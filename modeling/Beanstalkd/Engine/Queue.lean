import Beanstalkd.Engine.Model
import Beanstalkd.Lib.Best
import Beanstalkd.Lib.Index
import Beanstalkd.Lib.Loop

/-!
# Queue primitives and the dispatch loop

The private methods of `engine.rs` that every command is made of: the tube
directory, the three `refresh_*` helpers that keep the ordered indexes current,
the insertions and removals that move a job between containers, reservation
bookkeeping, wait queues, `process_queue` and `conn_timeout`.

A `while` loop is a fuelled `Loop.loop` over its own body; the fuel is one more
than the number of rounds the loop can need on a valid engine, which the
invariant modules prove.
-/

namespace Beanstalkd

/-- 1 for an urgent priority, 0 otherwise. -/
def urgentBit (pri : Nat) : Nat := (decide (pri < urgentThreshold)).toNat

namespace Engine

def tube (e : Engine) (id : TubeId) : Option TubeState := Slab.get e.tubes id

/-- `if let Some(t) = self.tube_mut(id)`. -/
def modTube (e : Engine) (id : TubeId) (f : TubeState → TubeState) : Engine :=
  { e with tubes := Slab.modify e.tubes id f }

def modJob (e : Engine) (id : JobId) (f : JobRec → JobRec) : Engine :=
  { e with jobs := e.jobs.modify id f }

def modConn (e : Engine) (id : ConnId) (f : ConnState → ConnState) : Engine :=
  { e with conns := e.conns.modify id f }

/-- Count a command (`self.cmd_* += 1`). -/
def countOp (e : Engine) (f : OpCounts → OpCounts) : Engine := { e with ops := f e.ops }

def tubeName (e : Engine) (id : TubeId) : TubeName :=
  match e.tube id with
  | some t => t.name
  | none => TubeName.defaultTube

/-! ## Replies -/

def wantsReply (e : Engine) (cid : ConnId) : Bool :=
  match e.localConns with
  | none => true
  | some l => l.owns cid

/-- `reply` and `reply_with`: the latter only delays building `r`. -/
def reply (e : Engine) (cid : ConnId) (r : Response) : Engine :=
  if e.wantsReply cid then { e with out := e.out ++ [(cid, r)] } else e

/-! ## Journal -/

/-- The persistent record of `j` as it is now. Reserved is never journaled as
such; it is mapped the way `readrec` does. -/
def jobRecord (j : JobRec) : JobRecord where
  id := j.id
  pri := j.pri
  delay := j.delay
  ttr := j.ttr
  createdAt := j.createdAt
  deadlineAt := match j.state with
    | .delayed => j.deadlineAt
    | .buried | .ready | .reserved => 0
  state := match j.state with
    | .delayed => .delayed
    | .buried => .buried
    | .ready | .reserved => .ready
  reserveCt := j.reserveCt
  timeoutCt := j.timeoutCt
  releaseCt := j.releaseCt
  buryCt := j.buryCt
  kickCt := j.kickCt

/-- Append what `entry` makes of job `id`, when journaling. -/
def journalWith (e : Engine) (id : JobId) (entry : JobRec → JournalEntry) : Engine :=
  if e.cfg.journal then
    match e.jobs[id]? with
    | some j => { e with journal := e.journal ++ [entry j] }
    | none => e
  else e

/-- Journals a new job. -/
def journalPut (e : Engine) (id : JobId) : Engine :=
  e.journalWith id fun j => .put (jobRecord j) (e.tubeName j.tube) j.body

/-- Journals a later transition of job `id`. -/
def journalUpdate (e : Engine) (id : JobId) : Engine :=
  e.journalWith id fun j => .update (jobRecord j)

def journalDelete (e : Engine) (id : JobId) : Engine :=
  if e.cfg.journal then { e with journal := e.journal ++ [.delete id] } else e

/-! ## The tube directory -/

/-- The id of the named tube, making the tube if there is none. A new tube
takes the most recently freed slot, or a new one at the end of the slab. -/
def findOrMakeTube (e : Engine) (name : TubeName) : Engine × TubeId :=
  match e.tubeIds[name]? with
  | some id => (e, id)
  | none =>
    let state := TubeState.new name e.tubeOrder.items.length
    let (tubes, free, id) :=
      match e.freeTubeIds.getLast? with
      | some id => (e.tubes.set id (some state), e.freeTubeIds.dropLast, id)
      | none => (e.tubes ++ [some state], e.freeTubeIds, e.tubes.length)
    ({ e with tubes := tubes, freeTubeIds := free,
              tubeIds := e.tubeIds.insert name id, tubeOrder := e.tubeOrder.append id }, id)

/-- Destroys a tube if it has no more uses, watchers or jobs; the tube moved
into its place in the list takes over its position. -/
def gcTubeIfOrphan (e : Engine) (id : TubeId) : Engine :=
  if id = defaultTubeId then e
  else
    match e.tube id with
    | none => e
    | some t =>
      if t.refs = 0 then
        let order := e.tubeOrder.removeAt t.pos
        let tubes := e.tubes.set id none
        { e with
          tubes := match order.items[t.pos]? with
            | some moved => Slab.modify tubes moved fun m => { m with pos := t.pos }
            | none => tubes
          tubeIds := e.tubeIds.erase t.name
          pauses := Index.rekey e.pauses id t.pauseKey none
          delayHeads := Index.rekey e.delayHeads id t.delayHead none
          dispatchable := if t.dispatchable then e.dispatchable.erase id else e.dispatchable
          tubeOrder := order
          freeTubeIds := e.freeTubeIds ++ [id] }
      else e

/-! ## Ordered indexes -/

def refreshDispatchable (e : Engine) (tube : TubeId) : Engine :=
  match e.tube tube with
  | none => e
  | some t =>
    let want := t.wantsDispatch
    if want != t.dispatchable then
      { e with
        tubes := Slab.modify e.tubes tube fun t => { t with dispatchable := want }
        dispatchable := Index.mark e.dispatchable tube want }
    else e

def refreshDelayHead (e : Engine) (tube : TubeId) : Engine :=
  match e.tube tube with
  | none => e
  | some t =>
    let head := (TreeMap.first t.delayed).map fun (d, _) => d
    if head != t.delayHead then
      { e with
        tubes := Slab.modify e.tubes tube fun t => { t with delayHead := head }
        delayHeads := Index.rekey e.delayHeads tube t.delayHead head }
    else e

/-- Re-derives `cid`'s entry in `conn_ticks`. -/
def refreshConnTick (e : Engine) (cid : ConnId) : Engine :=
  match e.conns[cid]? with
  | none => e
  | some c =>
    let new := c.tickat
    if new != c.tickKey then
      { e with
        conns := e.conns.modify cid fun c => { c with tickKey := new }
        connTicks := Index.rekey e.connTicks cid c.tickKey new }
    else e

/-- One round of `clear_expired_pauses`. -/
def clearOnePause (now : Nanos) (e : Engine) : Option Engine :=
  match TreeMap.first e.pauses with
  | none => none
  | some (at', tube) =>
    if at' > now then none
    else some { e with
                tubes := Slab.modify e.tubes tube fun t => { t with pause := 0 }
                pauses := e.pauses.erase (at', tube) }

/-- Clears every pause that has expired by `now`. -/
def clearExpiredPauses (e : Engine) (now : Nanos) : Engine :=
  Loop.loop (e.pauses.size + 1) (clearOnePause now) e

/-! ## Moving jobs between containers -/

def insertReady (e : Engine) (tube : TubeId) (id : JobId) : Engine :=
  match e.jobs[id]? with
  | none => e
  | some j =>
    refreshDispatchable
      { e with
        jobs := e.jobs.modify id fun j => { j with state := .ready, reserver := none }
        tubes := Slab.modify e.tubes tube fun t =>
          { t with ready := t.ready.insert (j.pri, id)
                   stat := { t.stat with urgentCt := t.stat.urgentCt + urgentBit j.pri } }
        readyCt := e.readyCt + 1
        urgentCt := e.urgentCt + urgentBit j.pri } tube

def removeReady (e : Engine) (tube : TubeId) (id : JobId) : Engine :=
  let pri := match e.jobs[id]? with
    | some j => j.pri
    | none => 0
  refreshDispatchable
    { e with
      tubes := Slab.modify e.tubes tube fun t =>
        { t with ready := t.ready.erase (pri, id)
                 stat := { t.stat with urgentCt := t.stat.urgentCt - urgentBit pri } }
      readyCt := e.readyCt - 1
      urgentCt := e.urgentCt - urgentBit pri } tube

def insertDelayed (e : Engine) (tube : TubeId) (id : JobId) (deadline : Nanos) : Engine :=
  -- `BTreeSet::insert` answers whether the entry is new
  let fresh := (e.tube tube).any fun t => !t.delayed.contains (deadline, id)
  refreshDelayHead
    { e with
      jobs := e.jobs.modify id fun j =>
        { j with state := .delayed, reserver := none, deadlineAt := deadline }
      tubes := Slab.modify e.tubes tube fun t =>
        { t with delayed := t.delayed.insert (deadline, id) }
      delayedCt := e.delayedCt + fresh.toNat } tube

def removeDelayed (e : Engine) (tube : TubeId) (id : JobId) : Engine :=
  let deadline := match e.jobs[id]? with
    | some j => j.deadlineAt
    | none => 0
  let present := (e.tube tube).any fun t => t.delayed.contains (deadline, id)
  refreshDelayHead
    { e with
      tubes := Slab.modify e.tubes tube fun t =>
        { t with delayed := t.delayed.erase (deadline, id) }
      delayedCt := e.delayedCt - present.toNat } tube

def insertBuried (e : Engine) (tube : TubeId) (id : JobId) : Engine :=
  let seq := e.nextListSeq
  { e with
    jobs := e.jobs.modify id fun j =>
      { j with state := .buried, reserver := none, buryCt := inc32 j.buryCt, listSeq := seq }
    tubes := Slab.modify e.tubes tube fun t =>
      { t with buried := t.buried.insert seq id
               stat := { t.stat with buriedCt := t.stat.buriedCt + 1 } }
    nextListSeq := seq + 1
    buriedCt := e.buriedCt + 1 }

/-- Take entry `seq` out of the tube's buried list. -/
def unbury (e : Engine) (tube : TubeId) (seq : Nat) : Engine :=
  { e with
    tubes := Slab.modify e.tubes tube fun t =>
      { t with buried := t.buried.erase seq
               stat := { t.stat with buriedCt := t.stat.buriedCt - 1 } }
    buriedCt := e.buriedCt - 1 }

/-- Removes a specific job from the buried set; no caller uses the answer
whether it was there. -/
def removeBuried (e : Engine) (tube : TubeId) (id : JobId) : Engine :=
  match e.jobs[id]?, e.tube tube with
  | some j, some t => if t.buried[j.listSeq]? = some id then e.unbury tube j.listSeq else e
  | _, _ => e

/-- The oldest buried job of the tube, taken out of its list. -/
def popBuriedFront (e : Engine) (tube : TubeId) : Option (JobId × Engine) :=
  match (e.tube tube).bind fun t => TreeMap.firstEntry t.buried with
  | none => none
  | some (seq, id) => some (id, e.unbury tube seq)

/-- `conn_reserve_job`: assigns `id` to `cid`, sets its TTR deadline, and
updates every reserved-job counter. -/
def doReserve (e : Engine) (cid : ConnId) (id : JobId) (now : Nanos) : Engine :=
  match e.jobs[id]? with
  | none => e
  | some j =>
    let deadline := satAdd now (j.ttr * nanosPerSec)
    let seq := e.nextListSeq
    refreshConnTick
      { e with
        jobs := e.jobs.modify id fun j =>
          { j with state := .reserved, reserver := some cid, deadlineAt := deadline
                   reserveCt := inc32 j.reserveCt, listSeq := seq }
        conns := e.conns.modify cid fun c =>
          { c with reserved := c.reserved.insert seq id
                   reservedByDeadline := c.reservedByDeadline.insert (deadline, id) }
        tubes := Slab.modify e.tubes j.tube fun t =>
          { t with stat := { t.stat with reservedCt := t.stat.reservedCt + 1 } }
        nextListSeq := seq + 1
        reservedCt := e.reservedCt + 1 } cid

/-- Removes `id` from `cid`'s reservation bookkeeping and decrements the
reserved-job counters. Does not change the job's state. -/
def doUnreserve (e : Engine) (cid : ConnId) (id : JobId) : Engine :=
  match e.jobs[id]? with
  | none =>
    refreshConnTick
      { e with
        conns := e.conns.modify cid fun c =>
          { c with reservedByDeadline := c.reservedByDeadline.erase (0, id) }
        reservedCt := e.reservedCt - 1 } cid
  | some j =>
    refreshConnTick
      { e with
        jobs := e.jobs.modify id fun j => { j with reserver := none }
        conns := e.conns.modify cid fun c =>
          -- checked by id, not just by key
          { c with reserved := if c.reserved[j.listSeq]? = some id then c.reserved.erase j.listSeq
                               else c.reserved
                   reservedByDeadline := c.reservedByDeadline.erase (j.deadlineAt, id) }
        tubes := Slab.modify e.tubes j.tube fun t =>
          { t with stat := { t.stat with reservedCt := t.stat.reservedCt - 1 } }
        reservedCt := e.reservedCt - 1 } cid

/-! ## Wait queues -/

/-- One tube of `enqueue_waiting_conn`. -/
def joinQueue (cid : ConnId) (e : Engine) (t : TubeId) : Engine :=
  (e.modTube t fun ts =>
    { ts with stat := { ts.stat with waitingCt := ts.stat.waitingCt + 1 }
              waitingConns := ts.waitingConns.append cid }).refreshDispatchable t

/-- One tube of `do_remove_waiting_conn`. -/
def leaveQueue (cid : ConnId) (e : Engine) (t : TubeId) : Engine :=
  (e.modTube t fun ts =>
    { ts with stat := { ts.stat with waitingCt := ts.stat.waitingCt - 1 }
              waitingConns := ts.waitingConns.remove cid }).refreshDispatchable t

/-- Set or clear a connection's waiting flag, counting it. -/
def setWaiting (e : Engine) (cid : ConnId) (waitDeadline : Option Nanos) : Engine :=
  { e with
    conns := e.conns.modify cid fun c => { c with waiting := true, waitDeadline := waitDeadline }
    waitingCt := e.waitingCt + 1 }

def clearWaiting (e : Engine) (cid : ConnId) : Engine :=
  { e with
    conns := e.conns.modify cid fun c => { c with waiting := false, waitDeadline := none }
    waitingCt := e.waitingCt - 1 }

/-- The source moves the watch list out for the loop and back afterwards;
nothing reads it in between. -/
def enqueueWaitingConn (e : Engine) (cid : ConnId) (waitDeadline : Option Nanos) : Engine :=
  match e.conns[cid]? with
  | none => e
  | some c =>
    (c.watch.items.foldl (joinQueue cid) (e.setWaiting cid waitDeadline)).refreshConnTick cid

def doRemoveWaitingConn (e : Engine) (cid : ConnId) : Engine :=
  match e.conns[cid]? with
  | none => e
  | some c =>
    if c.waiting then
      (c.watch.items.foldl (leaveQueue cid) (e.clearWaiting cid)).refreshConnTick cid
    else e

/-! ## Dispatch -/

/-- What tube `tid` offers: its best ready job, unless it is paused. -/
def offer (e : Engine) (tid : TubeId) : Option (Nat × JobId × TubeId) :=
  match e.tube tid with
  | none => none
  | some t =>
    if 0 < t.pause then none else (TreeMap.first t.ready).map fun (pri, id) => (pri, id, tid)

/-- The globally best (pri, id) over the dispatchable tubes. -/
def bestReady (e : Engine) : Option (Nat × JobId × TubeId) :=
  Best.first (fun (b : Nat × JobId × TubeId) => (b.1, b.2.1))
    (e.dispatchable.toList.filterMap e.offer)

/-- `reserved_reply`. -/
def reservedReply (e : Engine) (id : JobId) : Response :=
  .reserved id (match e.jobs[id]? with
    | some j => j.body
    | none => [])

/-- Takes the next waiter of a tube, in `ms_take` order. -/
def takeWaiter (e : Engine) (tube : TubeId) : Option ConnId × Engine :=
  match (e.tube tube).bind fun t => t.waitingConns.take with
  | some (cid, rest) => (some cid, e.modTube tube fun t => { t with waitingConns := rest })
  | none => (none, e)

/-- One round of `process_queue`: hand the best ready job to a waiter. -/
def dispatchOne (now : Nanos) (e : Engine) : Option Engine :=
  match e.bestReady with
  | none => none
  | some (_, id, tube) =>
    let (taken, e) := (e.removeReady tube id).takeWaiter tube
    let e := e.refreshDispatchable tube
    match taken with
    -- a guard of the reference; a dispatchable tube has a waiter
    | none => some e
    | some cid =>
      let e := e.doRemoveWaitingConn cid
      let e := e.doReserve cid id now
      some (e.reply cid (e.reservedReply id))

/-- Assigns ready jobs to waiting connections until no more can be. -/
def processQueue (e : Engine) (now : Nanos) : Engine :=
  Loop.loop (e.jobs.size + 1) (dispatchOne now) (e.clearExpiredPauses now)

/-- The delayed job with the smallest deadline across all tubes; ties go to
the tube earliest in the tube list. -/
def soonestDelayedJob (e : Engine) : Option (Nanos × TubeId × JobId) :=
  match TreeMap.first e.delayHeads with
  | none => none
  | some (deadline, _) =>
    let heads := e.delayHeads.toList.filter fun (d, _) => d == deadline
    let cands := heads.filterMap fun (_, tid) => (e.tube tid).map fun t => (t.pos, tid)
    match Best.first Prod.fst cands with
    | none => none
    | some (_, tube) =>
      ((e.tube tube).bind fun t => TreeMap.first t.delayed).map fun (d, id) => (d, tube, id)

/-! ## Connection timers -/

def connDeadlineSoon (e : Engine) (cid : ConnId) (now : Nanos) : Bool :=
  match e.conns[cid]?.bind ConnState.soonestReserved with
  | some (deadline, _) => decide (deadline - safetyMargin ≤ now)
  | none => false

def connReady (e : Engine) (cid : ConnId) : Bool :=
  match e.conns[cid]? with
  | none => false
  | some c => c.watch.items.any fun t => (e.tube t).any fun ts => !ts.ready.isEmpty

def isWaiting (e : Engine) (cid : ConnId) : Bool := e.conns[cid]?.any ConnState.waiting

/-- One round of the drain in `conn_timeout`: put back the connection's
soonest reserved job if its deadline has passed. -/
def expireOne (cid : ConnId) (now : Nanos) (e : Engine) : Option Engine :=
  match e.conns[cid]?.bind ConnState.soonestReserved with
  | none => none
  | some (deadline, id) =>
    if deadline ≥ now then none
    else
      let tube := e.jobs[id]?.map JobRec.tube
      let e := e.doUnreserve cid id
      let e := { e with timeoutCt := inc64 e.timeoutCt }
      let e := e.modJob id fun j => { j with timeoutCt := inc32 j.timeoutCt }
      let e := match tube with
        | some t => e.insertReady t id
        | none => e
      some (e.processQueue now)

/-- `conn_timeout`: drains the connection's expired reserved jobs, then decides
DEADLINE_SOON or TIMED_OUT for a connection still waiting on reserve. -/
def connTimeout (e : Engine) (cid : ConnId) (now : Nanos) : Engine :=
  let e := Loop.loop (e.jobs.size + 2) (expireOne cid now) e
  if e.isWaiting cid && e.connDeadlineSoon cid now then
    (e.doRemoveWaitingConn cid).reply cid .deadlineSoon
  else if e.isWaiting cid && (e.conns[cid]?.bind ConnState.waitDeadline).any (· ≤ now) then
    (e.doRemoveWaitingConn cid).reply cid .timedOut
  else e

def connsetproducer (e : Engine) (cid : ConnId) : Engine :=
  if e.conns[cid]?.any fun c => !c.isProducer then
    { e with
      conns := e.conns.modify cid fun c => { c with isProducer := true }
      curProducers := e.curProducers + 1 }
  else e

def connsetworker (e : Engine) (cid : ConnId) : Engine :=
  if e.conns[cid]?.any fun c => !c.isWorker then
    { e with
      conns := e.conns.modify cid fun c => { c with isWorker := true }
      curWorkers := e.curWorkers + 1 }
  else e

/-- The record is written (now ready) before `process_queue` can hand it on. -/
def kickToReady (e : Engine) (tube : TubeId) (id : JobId) (now : Nanos) : Engine :=
  let e := e.modJob id fun j => { j with kickCt := inc32 j.kickCt }
  let e := e.insertReady tube id
  let e := e.journalUpdate id
  e.processQueue now

def useTubeOf (e : Engine) (cid : ConnId) : TubeId :=
  match e.conns[cid]? with
  | some c => c.useTube
  | none => defaultTubeId

end Engine

end Beanstalkd
