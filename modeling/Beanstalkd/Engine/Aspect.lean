import Beanstalkd.Engine.Input

/-!
# The aspects of an engine's state

Every method changes a few fields of one tube, one connection or one job, and
every invariant reads a few fields of all of them. An *aspect* is what one
group of invariants reads: the reference counts of the tubes, their queues,
their wait lists, the reservation lists of the connections, and so on.

Invariants are stated over aspects: `Slab.view a e.tubes` for an aspect `a` of
the tubes, `e.conns.map fun _ c => a c` for one of the connections. A method
that does not touch an aspect leaves it alone because `Slab.view_modify` and
`TreeMap.map_modify` say so, whatever else it does.
-/

open Std

namespace Beanstalkd

/-! ## Aspects of a tube -/

/-- The reference counts. -/
structure RefCts where
  usingCt : Nat
  watchingCt : Nat
  jobRefCt : Nat

/-- The job containers and the per-tube counts of jobs. -/
structure Queues where
  ready : ExtTreeSet (Nat × JobId)
  delayed : ExtTreeSet (Nanos × JobId)
  buried : ExtTreeMap Nat JobId
  urgentCt : Nat
  buriedCt : Nat
  reservedCt : Nat

namespace TubeState

/-- Name and position in the tube list. -/
def sig (t : TubeState) : TubeName × Nat := (t.name, t.pos)

def refCts (t : TubeState) : RefCts := ⟨t.usingCt, t.watchingCt, t.jobRefCt⟩

def queues (t : TubeState) : Queues :=
  ⟨t.ready, t.delayed, t.buried, t.stat.urgentCt, t.stat.buriedCt, t.stat.reservedCt⟩

/-- The waiting connections and their count. -/
def waits (t : TubeState) : List ConnId × Nat := (t.waitingConns.items, t.stat.waitingCt)

/-- The deadline of the soonest delayed job, and the recorded one. -/
def heads (t : TubeState) : Option Nanos × Option Nanos :=
  ((TreeMap.first t.delayed).map Prod.fst, t.delayHead)

/-- Whether the tube should be in `dispatchable`, and whether it is marked so. -/
def disp (t : TubeState) : Bool × Bool := (t.wantsDispatch, t.dispatchable)

/-- A job could be handed to a waiter here and now. -/
def busy (t : TubeState) : Bool := t.wantsDispatch && t.pause == 0

end TubeState

/-! ## Aspects of a connection -/

/-- The two reservation lists. -/
structure Resv where
  reserved : ExtTreeMap Nat JobId
  byDeadline : ExtTreeSet (Nanos × JobId)

namespace ConnState

def resv (c : ConnState) : Resv := ⟨c.reserved, c.reservedByDeadline⟩

/-- The tubes whose wait lists the connection is on. -/
def queue (c : ConnState) : List TubeId := if c.waiting then c.watch.items else []

/-- The waiting flag and the reserve timeout. -/
def wait (c : ConnState) : Bool × Option Nanos := (c.waiting, c.waitDeadline)

/-- The next time the connection needs attention, and the recorded one. -/
def ticks (c : ConnState) : Option Nanos × Option Nanos := (c.tickat, c.tickKey)

/-- The job id held by a pending put. -/
def pendingId (c : ConnState) : Option JobId := c.pendingPut.bind PendingPut.id

def roles (c : ConnState) : Bool × Bool := (c.isProducer, c.isWorker)

end ConnState

/-- The counters of jobs by state. -/
structure Tally where
  ready : Nat
  urgent : Nat
  reserved : Nat
  buried : Nat
  delayed : Nat

def Engine.tally (e : Engine) : Tally :=
  ⟨e.readyCt, e.urgentCt, e.reservedCt, e.buriedCt, e.delayedCt⟩

end Beanstalkd
