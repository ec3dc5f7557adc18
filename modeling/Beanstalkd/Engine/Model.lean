import Beanstalkd.Lib.Slab
import Beanstalkd.Proto.Stats

/-!
# The engine's data

`crates/engine/src/{ms,model}.rs` and the `Engine` record of `engine.rs`.

Hash maps, B-tree maps and B-tree sets are all `Std.ExtTreeMap` and
`Std.ExtTreeSet`: ordered and extensional. A hash map's iteration order is not
observable in the engine (every place that iterates one either sorts or folds
commutatively), so the ordered map loses nothing, and two maps with the same
entries are equal.

Numbers are naturals. A counter of things that exist now (`ready_ct`,
`using_ct`, `cur_conns`, ...) is bounded by the size of the collection it
counts and is left as an ideal natural, and so are the allocators
`next_job_id` and `next_list_seq`, whose bounds `validate` checks. A counter
that only grows wraps at its machine width where it is incremented
(`inc32`, `inc64`).

`Engine` carries one field the Rust struct does not have: `out`, the outbox
that every Rust method takes as `out: &mut Outbox`. Threading it through the
state makes each method a function `Engine → Engine`.
-/

open Std

namespace Beanstalkd

/-! ## Ms: an array multiset with round-robin removal -/

/-- `ms.rs`: append at the end, remove by swapping in the last item, and a
round-robin `take`. Order and `take` decide list output and which waiter is
served, so they are modelled exactly. -/
structure Ms (α : Type) where
  items : List α
  /-- Round-robin cursor of `take`; any value is valid. -/
  last : Nat
  deriving DecidableEq

namespace Ms

variable {α : Type}

def new : Ms α := ⟨[], 0⟩

def append (m : Ms α) (a : α) : Ms α := { m with items := m.items ++ [a] }

/-- `ms_remove` by index. -/
def removeAt (m : Ms α) (i : Nat) : Ms α := { m with items := SwapRemove.swapRemove m.items i }

/-- `ms_remove`: linear search, then swap-with-last removal. -/
def remove [BEq α] (m : Ms α) (a : α) : Ms α :=
  match m.items.idxOf? a with
  | some i => m.removeAt i
  | none => m

/-- `ms_take`: round-robin removal (not simple FIFO). -/
def take (m : Ms α) : Option (α × Ms α) :=
  if m.items.isEmpty then none
  else
    let last := m.last % m.items.length
    m.items[last]?.map fun a => (a, ⟨SwapRemove.swapRemove m.items last, last + 1⟩)

/-- Deletes index 0 until nothing is left; `n` bounds the number of deletions. -/
def deleteOrder : Nat → List α → List α
  | 0, _ => []
  | _ + 1, [] => []
  | n + 1, a :: l => a :: deleteOrder n (SwapRemove.swapRemove (a :: l) 0)

/-- `ms_clear`: the items in the order they are deleted; the set is left empty. -/
def clearInDeleteOrder (m : Ms α) : List α := deleteOrder m.items.length m.items

end Ms

/-! ## Jobs -/

/-- Index of a live tube in `Engine::tubes`. -/
abbrev TubeId := Nat

inductive JobState where
  | ready
  | reserved
  | delayed
  | buried
  deriving DecidableEq

structure JobRec where
  id : JobId
  tube : TubeId
  pri : Nat
  /-- Original delay in whole seconds, as last set by `put` or `release`. -/
  delay : Nat
  ttr : Nat
  body : Bytes
  createdAt : Nanos
  /-- Meaningful only while `Delayed` (time to become ready) or `Reserved`. -/
  deadlineAt : Nanos
  state : JobState
  reserver : Option ConnId
  /-- Key in `TubeState::buried` or `ConnState::reserved`, stale otherwise. -/
  listSeq : Nat
  reserveCt : Nat
  timeoutCt : Nat
  releaseCt : Nat
  buryCt : Nat
  kickCt : Nat
  file : Nat
  deriving DecidableEq

def JobRec.stateName (j : JobRec) : String :=
  match j.state with
  | .ready => "ready"
  | .reserved => "reserved"
  | .delayed => "delayed"
  | .buried => "buried"

/-! ## Tubes -/

structure TubeStat where
  urgentCt : Nat := 0
  buriedCt : Nat := 0
  reservedCt : Nat := 0
  waitingCt : Nat := 0
  pauseCt : Nat := 0
  totalDeleteCt : Nat := 0
  totalJobsCt : Nat := 0
  deriving DecidableEq

structure TubeState where
  name : TubeName
  ready : ExtTreeSet (Nat × JobId)
  delayed : ExtTreeSet (Nanos × JobId)
  /-- Keyed by `next_list_seq` at insertion time, so iteration is FIFO. -/
  buried : ExtTreeMap Nat JobId
  waitingConns : Ms ConnId
  usingCt : Nat
  watchingCt : Nat
  jobRefCt : Nat
  stat : TubeStat
  /-- 0 means "not paused"; otherwise the pause duration in nanoseconds. -/
  pause : Nanos
  unpauseAt : Nanos
  /-- This tube's index in `Engine::tube_order`. -/
  pos : Nat
  /-- Deadline of the head of `delayed`, as recorded in `delay_heads`. -/
  delayHead : Option Nanos
  /-- Whether this tube is in `Engine::dispatchable`. -/
  dispatchable : Bool

namespace TubeState

def new (name : TubeName) (pos : Nat) : TubeState where
  name := name
  ready := ∅
  delayed := ∅
  buried := ∅
  waitingConns := Ms.new
  usingCt := 0
  watchingCt := 0
  jobRefCt := 0
  stat := {}
  pause := 0
  unpauseAt := 0
  pos := pos
  delayHead := none
  dispatchable := false

/-- A tube lives while this is positive ("default" lives for ever). -/
def refs (t : TubeState) : Nat := t.usingCt + t.watchingCt + t.jobRefCt

/-- This tube's key in `Engine::pauses`, while it is paused. -/
def pauseKey (t : TubeState) : Option Nanos := if 0 < t.pause then some t.unpauseAt else none

/-- Both waiting connections and ready jobs. -/
def wantsDispatch (t : TubeState) : Bool := !t.waitingConns.items.isEmpty && !t.ready.isEmpty

end TubeState

/-! ## Connections -/

/-- A put whose command line was accepted but whose body has not completed. -/
structure PendingPut where
  /-- The job id already allocated; `none` for an oversized put. -/
  id : Option JobId
  createdAt : Nanos
  deriving DecidableEq

structure ConnState where
  useTube : TubeId
  watch : Ms TubeId
  isProducer : Bool
  isWorker : Bool
  waiting : Bool
  waitDeadline : Option Nanos
  /-- Reservation order (oldest first), keyed like `TubeState::buried`. -/
  reserved : ExtTreeMap Nat JobId
  reservedByDeadline : ExtTreeSet (Nanos × JobId)
  pendingPut : Option PendingPut
  /-- This connection's `conntickat`, as recorded in `Engine::conn_ticks`. -/
  tickKey : Option Nanos

/-- `SAFETY_MARGIN` in conn.c: 1 second. -/
def safetyMargin : Nanos := nanosPerSec

namespace ConnState

def new (defaultTube : TubeId) : ConnState where
  useTube := defaultTube
  watch := Ms.new.append defaultTube
  isProducer := false
  isWorker := false
  waiting := false
  waitDeadline := none
  reserved := ∅
  reservedByDeadline := ∅
  pendingPut := none
  tickKey := none

def soonestReserved (c : ConnState) : Option (Nanos × JobId) := TreeMap.first c.reservedByDeadline

/-- `conntickat`: when this connection next needs attention. The source
subtracts in `i128` and clamps at 0, which is subtraction on naturals. -/
def tickat (c : ConnState) : Option Nanos :=
  let margin := if c.waiting then safetyMargin else 0
  let t := c.soonestReserved.map fun (deadline, _) => deadline - margin
  if c.waiting then
    match c.waitDeadline, t with
    | some wd, some v => some (min v wd)
    | some wd, none => some wd
    | none, t => t
  else t

end ConnState

/-! ## Journal records -/

inductive RecordState where
  | ready
  | delayed
  | buried
  deriving DecidableEq

/-- Persistent job state as of a journaled transition. -/
structure JobRecord where
  id : JobId
  pri : Nat
  delay : Nat
  ttr : Nat
  createdAt : Nanos
  /-- When a delayed job becomes ready; 0 for other states. -/
  deadlineAt : Nanos
  state : RecordState
  reserveCt : Nat
  timeoutCt : Nat
  releaseCt : Nat
  buryCt : Nat
  kickCt : Nat
  deriving DecidableEq

inductive JournalEntry where
  | put (record : JobRecord) (tube : TubeName) (body : Bytes)
  | update (record : JobRecord)
  | delete (id : JobId)
  deriving DecidableEq

/-! ## The engine -/

structure EngineConfig where
  maxJobSize : Nat
  binlogMaxSize : Nat
  /-- Record journal entries. -/
  journal : Bool
  deriving DecidableEq

/-- Binlog fields of `stats`, owned by the store. -/
structure BinlogStats where
  oldestIndex : Nat := 0
  currentIndex : Nat := 0
  recordsWritten : Nat := 0
  recordsMigrated : Nat := 0
  deriving DecidableEq

/-- The connections whose replies this process delivers. -/
structure LocalConns where
  nodeShift : Nat
  node : Nat
  deriving DecidableEq

def LocalConns.owns (l : LocalConns) (conn : ConnId) : Bool := conn >>> l.nodeShift == l.node

/-- What no input changes. `sys` is the `SysInfo` object: what it answers when
asked at a given time. -/
structure Statics where
  cfg : EngineConfig
  sys : Nanos → SysSnapshot
  start : Nanos
  binlog : BinlogStats
  localConns : Option LocalConns

/-- The tube directory: names, list order and free slots. -/
structure Directory where
  freeTubeIds : List TubeId
  tubeIds : ExtTreeMap TubeName TubeId
  /-- Insertion order with swap-removal; drives list-tubes and the tie-break
  between equal delayed-job deadlines. -/
  tubeOrder : Ms TubeId

structure Census where
  curConns : Nat
  totConns : Nat
  curProducers : Nat
  curWorkers : Nat
  deriving DecidableEq

/-- Counters that only accumulate. -/
structure Totals where
  totalJobsCt : Nat
  timeoutCt : Nat
  ops : OpCounts
  deriving DecidableEq

structure Engine extends Statics, Directory, Census, Totals where
  draining : Bool
  nextJobId : JobId
  nextListSeq : Nat
  jobs : ExtTreeMap JobId JobRec
  tubes : List (Option TubeState)
  conns : ExtTreeMap ConnId ConnState
  connTicks : ExtTreeSet (Nanos × ConnId)
  /-- (deadline of the soonest delayed job, tube) for every tube with any. -/
  delayHeads : ExtTreeSet (Nanos × TubeId)
  /-- (unpause time, tube) for every paused tube. -/
  pauses : ExtTreeSet (Nanos × TubeId)
  /-- Tubes with both waiting connections and ready jobs. -/
  dispatchable : ExtTreeSet TubeId
  readyCt : Nat
  urgentCt : Nat
  reservedCt : Nat
  buriedCt : Nat
  delayedCt : Nat
  waitingCt : Nat
  journal : List JournalEntry
  out : Outbox

/-- "default" is created first and never destroyed, so it always has id 0. -/
def defaultTubeId : TubeId := 0

/-- One engine input, as replicated through the Raft log in cluster mode. -/
inductive EngineInput where
  | connect (conn : ConnId)
  | disconnect (conn : ConnId)
  | halfClose (conn : ConnId)
  | putStarted (conn : ConnId) (tooBig : Bool)
  | putRejected (conn : ConnId) (why : PutRejection)
  | command (conn : ConnId) (cmd : Command)
  | tick
  | setDraining (on : Bool)
  deriving DecidableEq

def EngineInput.conn : EngineInput → Option ConnId
  | connect c | disconnect c | halfClose c => some c
  | putStarted c _ | putRejected c _ | command c _ => some c
  | tick | setDraining _ => none

end Beanstalkd
