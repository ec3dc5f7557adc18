import Mathlib.Order.Lattice.Nat
import Beanstalkd.Raft.Decision

/-!
# Elections, replication and rejoin

The cluster as a whole, for a fixed set of voters: openraft's elections and
replication as far as `docs/DESIGN.md` section 8 states them (F1: an append is
accepted from a vote that is at least the node's own, which is then saved; F2: a
granted vote is saved before it is answered; F3: votes are ordered by leader id
and then by `committed`), and around them the startup of a node that lost its
data directory: `discover` and `Core::rejoin` of
`crates/server/src/cluster/mod.rs`, with `startupDecision` as the code has it.

Messages stay in `net` for ever and are delivered at any time, in any order, any
number of times. What a process asked for is answered to that process only
(`proc`). A vote request carries the candidate's log, of which its receiver reads
the last log id; an append carries the leader's log up to the last entry it
sends, of which the receiver reads the entry before `prev` and those from `prev`
on.

Nothing in the protocol reads `losses` and `before` of a node, nor the history
`elected`, `committed` and `logs` of the state, nor the number of losses and the
logs in a grant: they are there to state what holds of a run.
-/

open Std

namespace Beanstalkd.Raft

/-- openraft's `LeaderId`: the term, then the node. -/
abbrev LeaderId := Nat ×ₗ NodeId

def Vote.leaderId (v : Vote) : LeaderId := toLex (v.term, v.node)

namespace Protocol

inductive Content where
  | membership
  | blank
  | dropNode (node : NodeId)
  | normal (x : Nat)
  deriving DecidableEq

/-- A log entry; its index is its position. -/
structure Entry where
  leader : LeaderId
  content : Content
  deriving DecidableEq

/-- The leader id of the bootstrap membership entry. -/
def bootId : LeaderId := toLex (0, 0)

/-- The log of an initialized node. -/
def bootLog : List Entry := [⟨bootId, .membership⟩]

/-- The static membership: its voters and their addresses. -/
structure Voters where
  ids : Finset NodeId
  nodes : ExtTreeMap NodeId String
  listed : ∀ n ∈ ids, nodes.contains n = true
  three : 3 ≤ ids.card

def Voters.majority (c : Voters) (p : NodeId → Bool) : Bool :=
  quorum c.ids.card ≤ (c.ids.filter (p ·)).card

/-- The membership as a node that holds its entry reports it. -/
def Voters.view (c : Voters) (committed : Bool) : MembershipView where
  logId := some ⟨0, 0, 0⟩
  committed := committed
  configs := [c.ids]
  nodes := c.nodes

def noView : MembershipView where
  logId := none
  committed := false
  configs := []
  nodes := ∅

/-! ## State -/

/-- How far a node's process has come. -/
inductive Phase where
  /-- It votes and stands for election. -/
  | running
  | discovering (answers : Answers)
  /-- A vote was adopted against the membership at `logId`; it asks again. -/
  | rechecking (logId : Option LogId) (answers : Answers)
  /-- Raft runs, with elections disabled and the vote gate closed. -/
  | catchingUp

inductive Role where
  | follower
  /-- The voters that granted, each with how often it had lost its data by then. -/
  | candidate (granted : List (NodeId × Nat))
  /-- How far each voter acknowledged, and the `DropNode` entries proposed for
  other nodes' processes. -/
  | leader (acked : List (NodeId × Nat)) (drops : List (NodeId × Nat × Nat))

structure Node where
  vote : Option Vote := none
  log : List Entry := bootLog
  /-- How many entries are committed, as far as the node knows. -/
  commit : Nat := 0
  phase : Phase := .running
  role : Role := .follower
  proc : Nat := 0
  /-- How often the node lost its data. -/
  losses : Nat := 0
  /-- The leaders that had been elected when it last did. -/
  before : List LeaderId := []

def Phase.isRunning : Phase → Bool
  | .running => true
  | _ => false

/-- No vote was adopted yet. -/
def Phase.undecided : Phase → Bool
  | .discovering _ => true
  | _ => false

/-- Raft runs. -/
def Phase.started : Phase → Bool
  | .running => true
  | .catchingUp => true
  | _ => false

/-- The answer to a status probe. -/
def Node.status (c : Voters) (x : Node) : NodeStatusEx where
  vote := x.vote
  rejoining := !x.phase.isRunning
  lastApplied := (x.log.take x.commit).getLast?.map fun e =>
    ⟨(ofLex e.leader).1, (ofLex e.leader).2, x.commit - 1⟩
  highestMember := if x.log.isEmpty then 0 else c.ids.sup id
  membership := if x.log.isEmpty then noView else c.view (0 < x.commit)

inductive Msg where
  | voteReq (w : Vote) (proc : Nat) (log : List Entry)
  | grant (w : Vote) (proc : Nat) (voter losses : Nat) (asked mine : List Entry)
  | append (vote : Vote) (prev : Nat) (log : List Entry) (commit : Nat)
  | ack (vote : Vote) (node losses matched : Nat)
  | status (dst proc src : Nat) (st : NodeStatusEx)
  | dropped (dst proc : Nat) (leader : LeaderId) (index : Nat)

structure Election where
  id : LeaderId
  /-- The leader's log when it was elected. -/
  log : List Entry
  voters : Finset NodeId

structure State where
  nodes : NodeId → Node := fun _ => {}
  net : List Msg := []
  elected : List Election := []
  /-- The leader that committed, and its log up to the entry it committed. -/
  committed : List (LeaderId × List Entry) := []
  /-- The last log of every leader. -/
  logs : LeaderId → List Entry := fun _ => bootLog

namespace State

def set (s : State) (n : NodeId) (x : Node) : State :=
  { s with nodes := Function.update s.nodes n x }

def send (s : State) (m : Msg) : State := { s with net := s.net ++ [m] }

end State

/-! ## Elections -/

/-- The last log id of `theirs` is at least that of `mine`. -/
def upToDate (mine theirs : List Entry) : Bool :=
  match mine.getLast?, theirs.getLast? with
  | none, _ => true
  | some _, none => false
  | some a, some b => a.leader < b.leader || (a.leader = b.leader && mine.length ≤ theirs.length)

/-- The vote of the next candidacy of node `n`. -/
def Node.nextVote (x : Node) (n : NodeId) : Vote := ⟨(x.vote.map Vote.term).getD 0 + 1, n, false⟩

namespace State

variable (c : Voters)

/-- The node stands for election, and votes for itself. -/
def campaign (s : State) (n : NodeId) : State :=
  let x := s.nodes n
  match x.phase, x.role with
  | .running, .leader .. => s
  | .running, _ =>
    if n ∈ c.ids then
      let w := x.nextVote n
      (s.set n { x with vote := some w, role := .candidate [(n, x.losses)] }
        |>.send (.voteReq w x.proc x.log)
        |>.send (.grant w x.proc n x.losses x.log x.log))
    else s
  | _, _ => s

/-- A vote request is handled: the vote gate lets it through, the candidate's log
is not behind, and its vote is at least the node's own. -/
def vote (s : State) (n : NodeId) (w : Vote) (proc : Nat) (log : List Entry) : State :=
  let x := s.nodes n
  if n ∈ c.ids ∧ n ≠ w.node ∧ x.phase.isRunning ∧ upToDate x.log log ∧ x.vote.all (· ≤ w) then
    (s.set n { x with vote := some w, role := .follower }
      |>.send (.grant w proc n x.losses log x.log))
  else s

/-- The candidate receives a grant. -/
def count (s : State) (w : Vote) (proc voter losses : Nat) : State :=
  let x := s.nodes w.node
  match x.role with
  | .candidate granted =>
    if proc = x.proc ∧ x.vote = some w then
      s.set w.node { x with role := .candidate (granted ++ [(voter, losses)]) }
    else s
  | _ => s

/-- The leader appends an entry to its log. -/
def extend (s : State) (n : NodeId) (x : Node) (v : Vote) (content : Content) : State :=
  let log := x.log ++ [⟨v.leaderId, content⟩]
  let s := s.set n { x with log }
  { s with logs := Function.update s.logs v.leaderId log }.send (.ack v n x.losses log.length)

/-- A candidate with a majority becomes leader: it saves its vote as committed and
appends a blank entry. -/
def lead (s : State) (n : NodeId) : State :=
  let x := s.nodes n
  match x.role, x.vote with
  | .candidate granted, some w =>
    let votes (q : NodeId) : Bool := granted.any (·.1 = q)
    if c.majority votes then
      let v : Vote := { w with committed := true }
      let s : State := { s with
        elected := s.elected ++ [⟨w.leaderId, x.log, c.ids.filter (votes ·)⟩] }
      s.extend n { x with vote := some v, role := .leader [] [] } v .blank
    else s
  | _, _ => s

/-! ## Replication -/

def propose (s : State) (n : NodeId) (content : Content) : State :=
  let x := s.nodes n
  match x.role, x.vote with
  | .leader .., some v => s.extend n x v content
  | _, _ => s

/-- The leader sends its entries from `prev` up to `last`. -/
def replicate (s : State) (n : NodeId) (prev last : Nat) : State :=
  let x := s.nodes n
  match x.role, x.vote with
  | .leader .., some v =>
    if prev ≤ last ∧ last ≤ x.log.length then s.send (.append v prev (x.log.take last) x.commit)
    else s
  | _, _ => s

end State

/-- Entries the node has already are skipped; from the first other one on its log is
replaced. -/
def merge : List Entry → List Entry → List Entry
  | log, [] => log
  | [], entries => entries
  | x :: log, e :: entries =>
    if x.leader = e.leader then x :: merge log entries else e :: entries

/-- The log after the entries of `sent` from `prev` on were appended. -/
def merged (log : List Entry) (prev : Nat) (sent : List Entry) : List Entry :=
  log.take prev ++ merge (log.drop prev) (sent.drop prev)

/-- The log id before `prev` is in the node's log. -/
def matchesAt (log : List Entry) (prev : Nat) (sent : List Entry) : Bool :=
  prev = 0 || (log[prev - 1]?.isSome &&
    log[prev - 1]?.map Entry.leader = sent[prev - 1]?.map Entry.leader)

namespace State

variable (c : Voters)

/-- An append is handled: from a vote that is at least the node's own, which is
saved. A log that conflicts is cut before the conflict. -/
def accept (s : State) (n : NodeId) (v : Vote) (prev : Nat) (sent : List Entry) (commit : Nat) :
    State :=
  let x := s.nodes n
  if n ∈ c.ids ∧ n ≠ v.node ∧ x.phase.started ∧ x.vote.all (· ≤ v) then
    let x := { x with vote := some v, role := .follower }
    if matchesAt x.log prev sent then
      (s.set n { x with
          log := merged x.log prev sent
          commit := max x.commit (min commit sent.length) }
        |>.send (.ack v n x.losses sent.length))
    else s.set n { x with log := x.log.take (prev - 1) }
  else s

/-- The leader receives an acknowledgement. -/
def acknowledge (s : State) (v : Vote) (q matched : Nat) : State :=
  let x := s.nodes v.node
  match x.role with
  | .leader acked drops =>
    if x.vote = some v then s.set v.node { x with role := .leader (acked ++ [(q, matched)]) drops }
    else s
  | _ => s

/-- The leader commits its log up to an entry of its own. -/
def commit (s : State) (n : NodeId) (k : Nat) : State :=
  let x := s.nodes n
  match x.role, x.vote with
  | .leader acked _, some v =>
    let holds (q : NodeId) : Bool := acked.any fun a => a.1 = q ∧ k ≤ a.2
    if x.commit < k ∧ (x.log[k - 1]?).any (·.leader = v.leaderId) ∧ c.majority holds then
      { s.set n { x with commit := k } with
        committed := s.committed ++ [(v.leaderId, x.log.take k)] }
    else s
  | _, _ => s

/-! ## Losing data and coming back -/

/-- The node's data directory is lost. No other voter is without its data. -/
def lose (s : State) (n : NodeId) : State :=
  let x := s.nodes n
  if n ∈ c.ids ∧ (∀ q ∈ c.ids, q ≠ n → (s.nodes q).phase.isRunning) then
    s.set n
      { log := [], phase := .discovering ∅, proc := x.proc + 1
        losses := x.losses + 1, before := s.elected.map Election.id }
  else s

/-- The process is started again. A node with the rejoin marker discovers again; one
whose committed vote is its own leads on. -/
def restart (s : State) (n : NodeId) : State :=
  let x := s.nodes n
  match x.phase with
  | .running =>
    let leads := x.vote.any fun v => v.committed ∧ v.node = n
    s.set n { x with role := if leads then .leader [] [] else .follower, proc := x.proc + 1 }
  | _ => s.set n { x with phase := .discovering ∅, role := .follower, proc := x.proc + 1 }

/-- Voter `src` answers a probe of `n`. -/
def probe (s : State) (n src : NodeId) : State :=
  if n ∈ c.ids ∧ src ≠ n then
    s.send (.status n (s.nodes n).proc src ((s.nodes src).status c))
  else s

/-- An answer reaches the process that asked. -/
def answer (s : State) (n proc src : Nat) (st : NodeStatusEx) : State :=
  let x := s.nodes n
  if proc = x.proc then
    match x.phase with
    | .discovering answers => s.set n { x with phase := .discovering (answers.insert src st) }
    | .rechecking l answers => s.set n { x with phase := .rechecking l (answers.insert src st) }
    | _ => s
  else s

/-- A round of `discover`. The vote saved so far is the floor. -/
def decide (s : State) (n : NodeId) : State :=
  let x := s.nodes n
  match x.phase with
  | .discovering answers =>
    match startupDecision n answers x.vote with
    | .rejoin vote m => s.set n { x with vote := vote.or x.vote, phase := .rechecking m.logId ∅ }
    | .wait _ true => s.set n { x with phase := .discovering ∅ }
    | _ => s
  | _ => s

/-- The second look, after the vote is saved. -/
def recheck (s : State) (n : NodeId) : State :=
  let x := s.nodes n
  match x.phase with
  | .rechecking l answers =>
    match startupDecision n answers x.vote with
    | .rejoin vote m =>
      if m.logId = l then s.set n { x with vote := vote.or x.vote, phase := .catchingUp }
      else s.set n { x with phase := .discovering answers }
    | _ => s.set n { x with phase := .discovering answers }
  | _ => s

/-- The leader proposes the `DropNode` that a rejoining node asks for. -/
def proposeDrop (s : State) (n r : NodeId) : State :=
  let x := s.nodes n
  match x.role, x.vote, (s.nodes r).phase with
  | .leader acked drops, some v, .catchingUp =>
    if n ≠ r then
      s.extend n { x with
        role := .leader acked (drops ++ [(r, (s.nodes r).proc, x.log.length)]) } v (.dropNode r)
    else s
  | _, _, _ => s

/-- The leader has applied a `DropNode`, and says so. -/
def confirmDrop (s : State) (n : NodeId) (j : Nat) : State :=
  let x := s.nodes n
  match x.role, x.vote with
  | .leader _ drops, some v =>
    match drops[j]? with
    | some (r, proc, index) =>
      if index < x.commit then s.send (.dropped r proc v.leaderId index) else s
    | none => s
  | _, _ => s

/-- The node has applied its `DropNode` as well: it votes again. -/
def rejoined (s : State) (n proc index : Nat) : State :=
  let x := s.nodes n
  match x.phase with
  | .catchingUp =>
    if proc = x.proc ∧ index < x.commit then s.set n { x with phase := .running } else s
  | _ => s

end State

/-! ## Runs -/

inductive Act where
  | campaign (n : NodeId)
  | lead (n : NodeId)
  | propose (n : NodeId) (x : Nat)
  | replicate (n : NodeId) (prev last : Nat)
  | commit (n : NodeId) (k : Nat)
  | lose (n : NodeId)
  | restart (n : NodeId)
  | probe (n src : NodeId)
  | decide (n : NodeId)
  | recheck (n : NodeId)
  | proposeDrop (n r : NodeId)
  | confirmDrop (n : NodeId) (j : Nat)
  /-- The `i`-th message sent is delivered; a vote request or an append to `n`. -/
  | deliver (i : Nat) (n : NodeId)

variable (c : Voters)

def State.deliver (s : State) (n : NodeId) : Msg → State
  | .voteReq w proc log => s.vote c n w proc log
  | .grant w proc voter losses _ _ => s.count w proc voter losses
  | .append v prev log commit => s.accept c n v prev log commit
  | .ack v q _ matched => s.acknowledge v q matched
  | .status dst proc src st => s.answer dst proc src st
  | .dropped dst proc _ index => s.rejoined dst proc index

def State.step (s : State) : Act → State
  | .campaign n => s.campaign c n
  | .lead n => s.lead c n
  | .propose n x => s.propose n (.normal x)
  | .replicate n prev last => s.replicate n prev last
  | .commit n k => s.commit c n k
  | .lose n => s.lose c n
  | .restart n => s.restart n
  | .probe n src => s.probe c n src
  | .decide n => s.decide n
  | .recheck n => s.recheck n
  | .proposeDrop n r => s.proposeDrop n r
  | .confirmDrop n j => s.confirmDrop n j
  | .deliver i n =>
    match s.net[i]? with
    | some m => s.deliver c n m
    | none => s

def State.run (s : State) (acts : List Act) : State := acts.foldl (State.step c) s

end Protocol

end Beanstalkd.Raft
