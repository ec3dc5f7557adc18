import Beanstalkd.Raft.Numbering
import Beanstalkd.Server.Forward

/-!
# A node and the replicated log

The node's actor, the log it sends its inputs to, and its own copy of the
replicated state, which applies the log with any lag. The actions are everything
that can happen between them: messages from clients, passes sent, rewinds and
stall checks at any time, entries reaching the log, entries applied, and the
`Applied` events read by the actor later than the state they came from. The log
is the environment's: any number of copies of what was sent, in any order, with
any losses, among `DropNode` entries and inputs of other nodes.

The inputs the actor numbered (`generated`) and those its state applied
(`accepted`) are recorded beside the state; no action reads them.
-/

namespace Beanstalkd.Server

open Raft

/-- Bits of a local connection number below the seconds of the time floor. -/
def timeFloorShift : Nat := 16

/-- The first local connection number of a new process. -/
def firstLocal (persisted : Option Nat) (highest unixSecs : Nat) : Except String Nat :=
  let floor := unixSecs <<< timeFloorShift
  if floor ≥ 1 <<< connSeqBits then
    .error (s!"the clock ({unixSecs} s since the epoch) does not fit the " ++
      "connection-number time floor")
  else
    let first := max (max (persisted.getD 0) (highest + 1)) floor
    if first ≥ 1 <<< connSeqBits then .error "connection numbers of this node are exhausted"
    else .ok first

/-- A node starts: its state is that of the log so far, and its connections are
numbered from `first`. -/
structure Launch where
  shared : Shared
  before : List LogEntry
  persisted : Option Nat
  unixSecs : Nat
  first : Nat
  numbered : firstLocal persisted
    (((Core.fresh shared).applyLog shared before).core.highestLocal shared.nodeId) unixSecs =
      .ok first

structure World where
  actor : Actor := {}
  /-- The next local connection number. -/
  nextLocal : Nat
  /-- Every item of every pass. -/
  sent : List (Nat × EngineInput) := []
  /-- The entries committed after those the node started from. -/
  log : List LogEntry := []
  /-- How many of them the node's state covers. -/
  applied : Nat := 0
  core : Core
  /-- `Applied` events the actor has not read yet. -/
  events : List (ConnId × Nat) := []
  generated : List (Nat × EngineInput) := []
  accepted : List (Nat × EngineInput) := []

inductive Action where
  | message (msg : EngineMsg)
  | pump (leader : Bool)
  | rewind
  | stall
  | isolate (on : Bool)
  /-- The leader commits an entry. -/
  | commit (ent : LogEntry)
  | apply
  /-- A snapshot brings the next entry: its state without its events. -/
  | install
  | event (rested : Bool)

/-- The connection inputs of an entry. -/
def entryItems (ent : LogEntry) : List (Nat × EngineInput) :=
  match ent.payload with
  | .normal { op := .conn seq input, .. } => [(seq, input)]
  | .normal { op := .batch items, .. } => items
  | _ => []

/-- The input that a message becomes, with its number; a `Disconnect` of a
connection that the state lost gets a number but is not queued. -/
def Actor.numbers (a : Actor) : EngineMsg → Option (Nat × EngineInput)
  | .connect conn => if a.isolated || a.shutdown then none else some (1, .connect conn)
  | .command conn cmd =>
    let input := match cmd with
      | .put .. => if a.queue.full then .putRejected conn .outOfMemory else .command conn cmd
      | _ => EngineInput.command conn cmd
    a.seqs[conn]?.map (·, input)
  | .putStarted conn tooBig => a.seqs[conn]?.map (·, .putStarted conn tooBig)
  | .putRejected conn why => a.seqs[conn]?.map (·, .putRejected conn why)
  | .halfClose conn => a.seqs[conn]?.map (·, .halfClose conn)
  | .disconnect conn => a.seqs[conn]?.map (·, .disconnect conn)
  | .setDraining _ | .snapshot _ | .shutdown => none

/-- The `Applied` events among those of the state machine. -/
def appliedEvents (events : List Event) : List (ConnId × Nat) :=
  events.filterMap fun
    | .applied conn seq => some (conn, seq)
    | _ => none

namespace World

variable (l : Launch)

/-- A connection of this process. -/
def mine (conn : ConnId) : Bool := ownerOf conn = l.shared.nodeId && l.first ≤ localOf conn

def start : World :=
  { nextLocal := l.first
    core := ((Core.fresh l.shared).applyLog l.shared l.before).core }

def message (w : World) (msg : EngineMsg) : World :=
  { w with
    actor := w.actor.onMessage w.core l.shared.nodeId msg
    generated := w.generated ++ (w.actor.numbers msg).toList }

/-- One action; one that cannot happen changes nothing. -/
def act (w : World) : Action → World
  | .message msg =>
    match msg with
    | .connect conn =>
      -- local connection numbers only grow
      if ownerOf conn = l.shared.nodeId ∧ w.nextLocal ≤ localOf conn then
        { w.message l msg with nextLocal := localOf conn + 1 }
      else w
    | msg => w.message l msg
  | .pump leader =>
    let (actor, items) := w.actor.pump leader
    { w with actor, sent := w.sent ++ items.map Item.key }
  | .rewind => { w with actor := w.actor.rewind }
  | .stall => { w with actor := w.actor.onStall w.core l.shared.nodeId }
  | .isolate on => { w with actor := { w.actor with isolated := on } }
  | .commit ent =>
    -- an input of one of our connections reaches the log only if it was sent
    if (entryItems ent).all fun item => !item.2.conn.any (mine l) || w.sent.contains item then
      { w with log := w.log ++ [ent] }
    else w
  | .apply =>
    match w.log[w.applied]? with
    | none => w
    | some ent =>
      let o := w.core.applyEntry l.shared ent
      { w with
        core := o.core
        applied := w.applied + 1
        events := w.events ++ appliedEvents o.events
        accepted := w.accepted ++ o.accepted }
  | .install =>
    match w.log[w.applied]? with
    | none => w
    | some ent =>
      let o := w.core.applyEntry l.shared ent
      { w with
        core := o.core
        applied := w.applied + 1
        accepted := w.accepted ++ o.accepted }
  | .event rested =>
    match w.events with
    | [] => w
    | (conn, seq) :: events =>
      { w with actor := w.actor.onEvent w.core l.shared.nodeId rested conn seq, events }

/-- The world after some actions. -/
def run (acts : List Action) : World := acts.foldl (act l) (start l)

end World

end Beanstalkd.Server
