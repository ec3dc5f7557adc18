import Mathlib.Data.List.Chain
import Beanstalkd.Raft.Status

/-!
# Membership changes

`crates/raft/src/admin.rs`: what an operator may change about the cluster's
members. `plan` decides a request against the committed, uniform membership;
`execute` hands the change to openraft, which commits one membership entry, or,
when the voters change, a joint one that is then finished towards its new half
(`jointGoal`, by the executor itself or by `finish_joint` after a leader
change). The state machine folds the highest id of every membership entry into
its record (`storage/state_machine.rs`).

openraft's part is what its documentation says of `Membership::change`: a goal
that is one of the current voter sets becomes the only one, any other is joined
to the last one, and voters that are in no set any more leave the membership.
How the standard library reads a socket address is a parameter: `loopbackIp`
answers whether the text is an IP address and port, and then whether the
address is on loopback.
-/

open Std

namespace Beanstalkd.Raft

/-- openraft's `Membership`. -/
structure Membership where
  configs : List (Finset NodeId)
  nodes : ExtTreeMap NodeId String

inductive AdminRequest where
  | membership
  | addLearner (id : NodeId) (addr : String) (expect : Option LogId)
  | promote (ids : Finset NodeId) (expect : Option LogId) (force : Bool)
  | remove (id : NodeId) (expect : Option LogId) (force : Bool)
  | setAddr (id : NodeId) (addr : String) (expect : Option LogId) (force : Bool)

/-- One membership change, as decided by `plan`. -/
inductive Change where
  | addLearner (id : NodeId) (addr : String)
  | promote (id : NodeId)
  | removeLearner (id : NodeId)
  | removeVoter (id : NodeId)
  | setAddr (id : NodeId) (addr : String)
  deriving DecidableEq

/-- What `plan` needs to know besides the request. -/
structure Context where
  highestMember : NodeId
  tls : Bool
  plaintextAllowRemote : Bool
  /-- `addr.parse::<SocketAddr>()`, and then whether the IP is on loopback. -/
  loopbackIp : String → Option Bool

/-- Fewer voters only with `force`. -/
def minVoters : Nat := 3

namespace Membership

def voterIds (m : Membership) : Finset NodeId := m.configs.foldr (· ∪ ·) ∅

def isNode (m : Membership) (id : NodeId) : Bool := m.nodes.contains id

/-- openraft's `Membership::next_coherent`, as `docs/DESIGN.md` states it (F4): one step
towards the voters `goal`. Who stops being a voter leaves, since no change retains it. -/
def nextCoherent (m : Membership) (goal : Finset NodeId) : Membership :=
  let configs := if goal ∈ m.configs then [goal] else m.configs.getLast?.toList ++ [goal]
  let gone := m.voterIds \ configs.foldr (· ∪ ·) ∅
  { configs, nodes := m.nodes.filter fun id _ => id ∉ gone }

/-- The highest id of a membership entry. -/
def highestNode (m : Membership) : NodeId := m.nodes.keys.foldr max 0

end Membership

/-! ## The checks -/

/-- `rsplit_once(':')`: what is before and after the last colon. -/
def rsplitColon (addr : String) : Option (String × String) :=
  match addr.toList.reverse.span (· ≠ ':') with
  | (_, []) => none
  | (port, _ :: host) => some (String.ofList host.reverse, String.ofList port.reverse)

/-- An IP on loopback, or the host `localhost`. -/
def isLoopback (ctx : Context) (addr : String) : Bool :=
  match ctx.loopbackIp addr with
  | some b => b
  | none => (rsplitColon addr).any fun a => a.1.toLower = "localhost"

/-- `p.parse::<u16>()` succeeds. -/
def isPort (p : String) : Bool :=
  let digits := if p.startsWith "+" then p.toList.drop 1 else p.toList
  !digits.isEmpty && digits.all Char.isDigit &&
    digits.foldl (fun n d => n * 10 + (d.toNat - 48)) 0 < 2 ^ 16

def checkAddr (addr : String) (ctx : Context) (force : Bool) : Except String Unit :=
  if (rsplitColon addr).all fun a => a.1.isEmpty || !isPort a.2 then
    .error s!"{addr.quote} is not host:port"
  else if ctx.tls || isLoopback ctx addr then .ok ()
  else if !ctx.plaintextAllowRemote then
    .error (s!"{addr.quote} is not a loopback address, and plaintext cluster traffic stays on " ++
      "loopback (insecure_plaintext_allow_remote is off)")
  else if force then .ok ()
  else
    .error (s!"{addr.quote} is a remote address over plaintext cluster traffic, which proves no " ++
      "identity: use [cluster.tls] (or force)")

def planAddLearner (id : NodeId) (addr : String) (m : Membership) (ctx : Context) :
    Except String (Option Change) :=
  match m.nodes[id]? with
  | some known =>
    if known = addr ∧ id ∉ m.voterIds then .ok none
    else .error s!"node {id} is already a member (set-addr changes its address)"
  | none =>
    if ¬ (1 ≤ id ∧ id ≤ maxNodeId) then .error s!"node ids are 1..={maxNodeId}, not {id}"
    -- ids only grow: a removed node must never be readmitted
    else if id ≤ ctx.highestMember then
      .error (s!"node id {id} is not above {ctx.highestMember}, the highest id ever used: node " ++
        "ids are never reused (use a new id)")
    else
      match checkAddr addr ctx false with
      | .error e => .error e
      | .ok () => .ok (some (.addLearner id addr))

def planPromote (ids : Finset NodeId) (m : Membership) : Except String (Option Change) :=
  match ids.sort (· ≤ ·) with
  | [id] =>
    if id ∈ m.voterIds then .ok none
    else if !m.isNode id then .error s!"node {id} is not a learner: add it as a learner first"
    else .ok (some (.promote id))
  | _ =>
    .error ("promote one node at a time (each step a membership one voter away from the last), " ++
      s!"not {ids.card}")

def planRemove (id : NodeId) (force : Bool) (m : Membership) : Except String (Option Change) :=
  if !m.isNode id then .ok none
  else if id ∉ m.voterIds then .ok (some (.removeLearner id))
  else
    let left := m.voterIds.card - 1
    if left = 0 then .error s!"node {id} is the last voter"
    else if left < minVoters ∧ force = false then
      .error (s!"removing node {id} leaves {left} voter(s), fewer than {minVoters}: a wiped " ++
        "voter of a two-voter membership rejoins only while the other leads, and the voter of " ++
        "a one-voter membership never (use force to do it anyway)")
    else .ok (some (.removeVoter id))

def planSetAddr (id : NodeId) (addr : String) (force : Bool) (m : Membership) (ctx : Context) :
    Except String (Option Change) :=
  match m.nodes[id]? with
  | none => .error s!"node {id} is not a member"
  | some known =>
    if known = addr then .ok none
    else
      match checkAddr addr ctx force with
      | .error e => .error e
      | .ok () => .ok (some (.setAddr id addr))

/-- The checks that need nothing but the committed, uniform membership. -/
def plan (req : AdminRequest) (m : Membership) (ctx : Context) : Except String (Option Change) :=
  match req with
  | .membership => .ok none
  | .addLearner id addr _ => planAddLearner id addr m ctx
  | .promote ids _ _ => planPromote ids m
  | .remove id _ force => planRemove id force m
  | .setAddr id addr _ force => planSetAddr id addr force m ctx

/-! ## Committed memberships -/

/-- The membership entry that openraft commits first for a change, as `docs/DESIGN.md` states
it (F4): a voter change is one step towards the new voters (`change_membership`, A1), and
the other changes touch one node. -/
def execute (change : Change) (m : Membership) : Membership :=
  match change with
  | .addLearner id addr => { m with nodes := m.nodes.insert id addr }
  | .promote id => m.nextCoherent (insert id m.voterIds)
  | .removeVoter id => m.nextCoherent (m.voterIds.erase id)
  | .removeLearner id => { m with nodes := m.nodes.erase id }
  | .setAddr id addr => { m with nodes := m.nodes.insert id addr }

/-- The voters a joint configuration is finished towards: its last half. -/
def jointGoal (configs : List (Finset NodeId)) : Option (Finset NodeId) :=
  match configs with
  | _ :: _ :: _ => configs.getLast?
  | _ => none

/-- The committed membership, and the state machine's record of the highest id
that was ever a member. -/
structure Cluster where
  membership : Membership
  highestMember : NodeId

namespace Cluster

/-- A membership entry is applied. -/
def commit (c : Cluster) (m : Membership) : Cluster :=
  { membership := m, highestMember := max c.highestMember m.highestNode }

/-- A cluster whose first membership entry is `m`. -/
def start (m : Membership) : Cluster := { membership := m, highestMember := m.highestNode }

def isUniform (c : Cluster) : Bool := c.membership.configs.length ≤ 1

end Cluster

/-- What may lead to a membership entry: a request to a leader (with its settings
for cluster traffic), or the finishing of a joint configuration. -/
inductive AdminEvent where
  | request (req : AdminRequest) (tls plaintextAllowRemote : Bool)
  | finish

/-- The next committed membership, if the event leads to one. While a joint
configuration is in place every request is refused. -/
def commits (loopbackIp : String → Option Bool) (c : Cluster) : AdminEvent → Option Cluster
  | .request req tls plaintextAllowRemote =>
    if c.isUniform then
      match plan req c.membership
        { highestMember := c.highestMember, tls, plaintextAllowRemote, loopbackIp } with
      | .ok (some change) => some (c.commit (execute change c.membership))
      | _ => none
    else none
  | .finish =>
    (jointGoal c.membership.configs).map fun goal => c.commit (c.membership.nextCoherent goal)

/-- The cluster after each committed membership entry, the first included. -/
def trace (loopbackIp : String → Option Bool) : Cluster → List AdminEvent → List Cluster
  | c, [] => [c]
  | c, ev :: evs =>
    match commits loopbackIp c ev with
    | none => trace loopbackIp c evs
    | some c' => c :: trace loopbackIp c' evs

end Beanstalkd.Raft
