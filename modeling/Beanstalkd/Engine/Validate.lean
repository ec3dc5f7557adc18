import Beanstalkd.Engine.Input
import Beanstalkd.Lib.Check

/-!
# `Engine::validate`

The check `import_state` runs on an untrusted snapshot: every condition with
its message, in the order of the source. The source goes over the connections,
the jobs and the tubes once each, and on the way adds up what it compares the
counters with; here those sums are definitions of their own (`recount...`), and
the loops that fill a set to find repetitions are `Check.each`, whose body sees
the elements before the current one.

The order in which a hash map is walked decides only which of several messages
is reported; the model walks it in key order.
-/

open Std

namespace Beanstalkd

open Check (ensure each)

/-- Largest tube slab accepted from a snapshot. -/
def maxTubeSlots : Nat := 2 ^ 24

def maxListSeq : Nat := 2 ^ 62

def maxNextJobId : JobId := 2 ^ 62

/-- `Display`: the name itself. -/
def TubeName.display (n : TubeName) : String :=
  String.ofList (n.bytes.map fun b => Char.ofNat b.toNat)

/-- The derived `Debug`. -/
def TubeName.debug (n : TubeName) : String := "TubeName(\"" ++ n.display ++ "\")"

namespace Engine

/-! ## What the counters are compared with -/

def recountUsing (e : Engine) (tid : TubeId) : Nat :=
  TreeMap.count (fun _ c => c.useTube == tid) e.conns

def recountWatching (e : Engine) (tid : TubeId) : Nat :=
  (e.conns.toList.map fun (_, c) => c.watch.items.count tid).sum

def recountWaiters (e : Engine) (tid : TubeId) : Nat :=
  (e.conns.toList.map fun (_, c) => if c.waiting then c.watch.items.count tid else 0).sum

def recountJobRefs (e : Engine) (tid : TubeId) : Nat :=
  TreeMap.count (fun _ j => j.tube == tid) e.jobs

def recountState (e : Engine) (s : JobState) : Nat :=
  TreeMap.count (fun _ j => j.state == s) e.jobs

def recountReservedIn (e : Engine) (tid : TubeId) : Nat :=
  TreeMap.count (fun _ j => j.state == .reserved && j.tube == tid) e.jobs

/-- The reservation entries of all connections. -/
def reservedEntries (e : Engine) : Nat := (e.conns.toList.map fun (_, c) => c.reserved.size).sum

def tubeUrgent (t : TubeState) : Nat :=
  t.ready.toList.countP fun (pri, _) => decide (pri < urgentThreshold)

/-- A sum over the live tubes. -/
def tubeSum (e : Engine) (f : TubeState → Nat) : Nat :=
  ((Slab.entries e.tubes).map fun (_, t) => f t).sum

def recountConnTicks (e : Engine) : ExtTreeSet (Nanos × ConnId) :=
  .ofList (e.conns.toList.filterMap fun (cid, c) => c.tickat.map fun t => (t, cid))

def recountDelayHeads (e : Engine) : ExtTreeSet (Nanos × TubeId) :=
  .ofList ((Slab.entries e.tubes).filterMap fun (tid, t) =>
    (TreeMap.first t.delayed).map fun (d, _) => (d, tid))

def recountPauses (e : Engine) : ExtTreeSet (Nanos × TubeId) :=
  .ofList ((Slab.entries e.tubes).filterMap fun (tid, t) =>
    if 0 < t.pause then some (t.unpauseAt, tid) else none)

def recountDispatchable (e : Engine) : ExtTreeSet TubeId :=
  .ofList ((Slab.entries e.tubes).filterMap fun (tid, t) =>
    if t.wantsDispatch then some tid else none)

/-! ## Tube slab, names, list order, free list -/

def checkBounds (e : Engine) : Except String Unit := do
  let n := e.tubes.length
  ensure (n ≤ maxTubeSlots) s!"tube slab of {n} slots exceeds the maximum of {maxTubeSlots}"
  ensure (e.nextListSeq ≤ maxListSeq)
    s!"next_list_seq {e.nextListSeq} exceeds the maximum of {maxListSeq}"

def checkDefault (e : Engine) : Except String Unit :=
  match e.tube defaultTubeId with
  | none => .error "tube 0 (default) is missing"
  | some default => do
    ensure (default.name = TubeName.defaultTube) s!"tube 0 is {default.name.debug}, not default"
    ensure (default.pos = 0) "default tube is not first in the tube list"

def checkListed (e : Engine) (tid : TubeId) (t : TubeState) : Except String Unit := do
  ensure (e.tubeIds[t.name]? = some tid) s!"tube_ids does not map {t.name.debug} to tube {tid}"
  ensure (e.tubeOrder.items[t.pos]? = some tid)
    s!"tube {tid} is not at its position {t.pos} in the tube list"

def checkFree (e : Engine) (seen : List TubeId) (id : TubeId) : Except String Unit := do
  ensure (e.tubes[id]?.any Option.isNone) s!"free list names tube {id}, which is not a free slot"
  ensure (id ∉ seen) s!"free list repeats tube {id}"

def checkDirectory (e : Engine) : Except String Unit := do
  e.checkDefault
  each (Slab.entries e.tubes) fun _ (tid, t) => e.checkListed tid t
  let live := (Slab.entries e.tubes).length
  ensure (e.tubeIds.size = live) s!"tube_ids has {e.tubeIds.size} entries for {live} tubes"
  let listed := e.tubeOrder.items.length
  ensure (listed = live) s!"tube list has {listed} entries for {live} tubes"
  let freeSlots := e.tubes.length - live
  let free := e.freeTubeIds.length
  ensure (free = freeSlots) s!"free list has {free} entries for {freeSlots} free slots"
  each e.freeTubeIds e.checkFree

def checkNextJobId (e : Engine) : Except String Unit := do
  ensure (1 ≤ e.nextJobId) "next job id is 0"
  ensure (e.nextJobId ≤ maxNextJobId)
    s!"next job id {e.nextJobId} exceeds the maximum of {maxNextJobId}"

/-! ## Connections -/

def checkWatch (e : Engine) (cid : ConnId) (seen : List TubeId) (t : TubeId) :
    Except String Unit := do
  ensure (e.tube t).isSome s!"conn {cid} watches missing tube {t}"
  ensure (t ∉ seen) s!"conn {cid} watches tube {t} twice"

def checkPending (e : Engine) (before : List (ConnId × ConnState)) (cid : ConnId)
    (c : ConnState) : Except String Unit :=
  match c.pendingPut with
  | some ⟨some id, _⟩ => do
    ensure (id < e.nextJobId) s!"conn {cid} has pending job id {id} >= next id {e.nextJobId}"
    ensure (e.jobs.contains id = false)
      s!"conn {cid} has pending job id {id}, which is a live job"
    ensure (id ∉ before.filterMap fun (_, d) => d.pendingPut.bind PendingPut.id)
      s!"pending job id {id} is shared"
  | _ => .ok ()

def checkReserved (e : Engine) (cid : ConnId) (seen : List (Nat × JobId)) (seq : Nat)
    (id : JobId) : Except String Unit := do
  ensure (id ∉ seen.map Prod.snd) s!"conn {cid} reserves job {id} twice"
  match e.jobs[id]? with
  | none => .error s!"conn {cid} reserves missing job {id}"
  | some j => do
    ensure (j.state = .reserved ∧ j.reserver = some cid)
      s!"conn {cid} lists job {id}, which it has not reserved"
    ensure (j.listSeq = seq)
      s!"conn {cid}: job {id} has list_seq {j.listSeq}, not its reservation key {seq}"
    ensure (seq < e.nextListSeq)
      s!"conn {cid}: job {id}'s reservation key {seq} is not below next_list_seq {e.nextListSeq}"

def checkDeadline (e : Engine) (cid : ConnId) (c : ConnState) (d : Nanos) (id : JobId) :
    Except String Unit := do
  ensure (id ∈ TreeMap.values c.reserved) s!"conn {cid}: job {id} is in the deadline index only"
  ensure (e.jobs[id]?.any fun j => j.deadlineAt == d) s!"conn {cid}: stale deadline for job {id}"

def checkConn (e : Engine) (before : List (ConnId × ConnState)) (cid : ConnId) (c : ConnState) :
    Except String Unit := do
  ensure (e.tube c.useTube).isSome s!"conn {cid} uses missing tube {c.useTube}"
  ensure (c.watch.items ≠ []) s!"conn {cid} watches no tube"
  each c.watch.items (e.checkWatch cid)
  ensure (c.waiting ∨ c.waitDeadline = none)
    s!"conn {cid} has a wait deadline but is not waiting"
  e.checkPending before cid c
  ensure (c.reserved.size = c.reservedByDeadline.size)
    s!"conn {cid}: reservation lists differ in length"
  each c.reserved.toList fun seen (seq, id) => e.checkReserved cid seen seq id
  each c.reservedByDeadline.toList fun _ (d, id) => e.checkDeadline cid c d id
  ensure (c.tickKey = c.tickat) s!"tick_key of conn {cid} is stale"

def checkCensus (e : Engine) : Except String Unit := do
  ensure (e.connTicks.toList = e.recountConnTicks.toList) "conn_ticks index is stale"
  ensure (e.curConns = e.conns.size) s!"cur_conns is {e.curConns} for {e.conns.size} conns"
  ensure (e.curConns ≤ e.totConns) "tot_conns below cur_conns"
  let producers := TreeMap.count (fun _ c => ConnState.isProducer c) e.conns
  ensure (e.curProducers = producers)
    s!"cur_producers is {e.curProducers}, recomputed {producers}"
  let workers := TreeMap.count (fun _ c => ConnState.isWorker c) e.conns
  ensure (e.curWorkers = workers) s!"cur_workers is {e.curWorkers}, recomputed {workers}"
  let waiting := TreeMap.count (fun _ c => ConnState.waiting c) e.conns
  ensure (e.waitingCt = waiting) s!"waiting_ct is {e.waitingCt}, recomputed {waiting}"

/-! ## Jobs -/

def checkHolder (e : Engine) (id : JobId) (j : JobRec) : Except String Unit :=
  if j.state = .reserved then
    match j.reserver with
    | none => .error s!"reserved job {id} has no reserver"
    | some cid => ensure (e.conns.contains cid) s!"job {id} is reserved by missing conn {cid}"
  else ensure (j.reserver = none) s!"unreserved job {id} has a reserver"

def checkFiled (t : TubeState) (id : JobId) (j : JobRec) : Except String Unit :=
  match j.state with
  | .ready => ensure ((j.pri, id) ∈ t.ready) s!"ready job {id} is not in its tube's ready set"
  | .delayed =>
    ensure ((j.deadlineAt, id) ∈ t.delayed) s!"delayed job {id} is not in its tube's delayed set"
  | .buried | .reserved => .ok ()

def checkJob (e : Engine) (id : JobId) (j : JobRec) : Except String Unit := do
  ensure (j.id = id) s!"job stored under id {id} has id {j.id}"
  ensure (id < e.nextJobId) s!"job {id} is not below next id {e.nextJobId}"
  ensure (1 ≤ j.ttr) s!"job {id} has ttr 0"
  match e.tube j.tube with
  | none => .error s!"job {id} is in missing tube {j.tube}"
  | some t => do
    e.checkHolder id j
    checkFiled t id j

def checkReservedTotals (e : Engine) : Except String Unit := do
  let entries := e.reservedEntries
  let n := e.recountState .reserved
  ensure (entries = n) s!"{entries} reservation entries for {n} reserved jobs"
  ensure (e.reservedCt = n) s!"reserved_ct is {e.reservedCt}, recomputed {n}"

/-! ## Per-tube sets, counters and indexes -/

def checkReady (e : Engine) (tid : TubeId) (pri : Nat) (id : JobId) : Except String Unit :=
  ensure (e.jobs[id]?.any fun j => j.state == .ready && j.tube == tid && j.pri == pri)
    s!"ready set of tube {tid} holds a stale entry for job {id}"

def checkDelayed (e : Engine) (tid : TubeId) (d : Nanos) (id : JobId) : Except String Unit :=
  ensure (e.jobs[id]?.any fun j => j.state == .delayed && j.tube == tid && j.deadlineAt == d)
    s!"delayed set of tube {tid} holds a stale entry for job {id}"

/-- `before` are the buried jobs of the tubes already checked. -/
def checkBuried (e : Engine) (tid : TubeId) (before : List JobId) (seen : List (Nat × JobId))
    (seq : Nat) (id : JobId) : Except String Unit := do
  ensure (e.jobs[id]?.any fun j => j.state == .buried && j.tube == tid)
    s!"buried list of tube {tid} holds a stale entry for job {id}"
  ensure (id ∉ before ++ seen.map Prod.snd) s!"job {id} is buried twice"
  ensure (e.jobs[id]?.any fun j => j.listSeq == seq)
    s!"buried list of tube {tid}: job {id} has a list_seq not matching its key {seq}"
  ensure (seq < e.nextListSeq)
    s!"buried list of tube {tid}: job {id}'s key {seq} is not below next_list_seq {e.nextListSeq}"

/-- A connection that waits and watches the tube. -/
def waitPair (e : Engine) (cid : ConnId) (tid : TubeId) : Bool :=
  e.conns[cid]?.any fun c => c.waiting && c.watch.items.contains tid

def checkWaiter (e : Engine) (tid : TubeId) (seen : List ConnId) (cid : ConnId) :
    Except String Unit := do
  ensure (e.waitPair cid tid) s!"tube {tid} lists conn {cid} as waiting"
  ensure (cid ∉ seen) s!"tube {tid} lists conn {cid} twice"

def checkTubeCounts (e : Engine) (tid : TubeId) (t : TubeState) : Except String Unit := do
  ensure (t.waitingConns.items.length = e.recountWaiters tid) s!"tube {tid} misses waiting conns"
  let urgent := tubeUrgent t
  ensure (t.stat.urgentCt = urgent)
    s!"urgent count of tube {tid} is {t.stat.urgentCt}, recomputed {urgent}"
  ensure (t.stat.buriedCt = t.buried.size) s!"buried count of tube {tid} is stale"
  ensure (t.stat.reservedCt = e.recountReservedIn tid) s!"reserved count of tube {tid} is stale"
  ensure (t.stat.waitingCt = e.recountWaiters tid) s!"waiting count of tube {tid} is stale"
  ensure (t.usingCt = e.recountUsing tid) s!"using count of tube {tid} is stale"
  ensure (t.watchingCt = e.recountWatching tid) s!"watching count of tube {tid} is stale"
  ensure (t.jobRefCt = e.recountJobRefs tid) s!"job count of tube {tid} is stale"
  ensure (tid = defaultTubeId ∨
      0 < e.recountUsing tid + e.recountWatching tid + e.recountJobRefs tid)
    s!"tube {tid} is unreferenced"

def checkTubeIndexes (tid : TubeId) (t : TubeState) : Except String Unit := do
  ensure (t.delayHead = (TreeMap.first t.delayed).map fun (d, _) => d)
    s!"delay_head of tube {tid} is stale"
  ensure (t.dispatchable = t.wantsDispatch) s!"dispatchable flag of tube {tid} is stale"
  ensure (t.wantsDispatch = false ∨ 0 < t.pause)
    s!"tube {tid} has ready jobs and waiting conns but is not paused"

def checkTube (e : Engine) (before : List (TubeId × TubeState)) (tid : TubeId) (t : TubeState) :
    Except String Unit := do
  each t.ready.toList fun _ (pri, id) => e.checkReady tid pri id
  each t.delayed.toList fun _ (d, id) => e.checkDelayed tid d id
  let buried := before.flatMap fun (_, u) => TreeMap.values u.buried
  each t.buried.toList fun seen (seq, id) => e.checkBuried tid buried seen seq id
  each t.waitingConns.items (e.checkWaiter tid)
  e.checkTubeCounts tid t
  checkTubeIndexes tid t

def checkTotals (e : Engine) : Except String Unit := do
  let readyEntries := e.tubeSum fun t => t.ready.size
  let nReady := e.recountState .ready
  ensure (readyEntries = nReady) s!"{readyEntries} ready entries for {nReady} ready jobs"
  let delayedEntries := e.tubeSum fun t => t.delayed.size
  let nDelayed := e.recountState .delayed
  ensure (delayedEntries = nDelayed)
    s!"{delayedEntries} delayed entries for {nDelayed} delayed jobs"
  let buriedEntries := e.tubeSum fun t => t.buried.size
  let nBuried := e.recountState .buried
  ensure (buriedEntries = nBuried) s!"{buriedEntries} buried entries for {nBuried} buried jobs"
  ensure (e.readyCt = nReady) s!"ready_ct is {e.readyCt}, recomputed {nReady}"
  let urgent := e.tubeSum tubeUrgent
  ensure (e.urgentCt = urgent) s!"urgent_ct is {e.urgentCt}, recomputed {urgent}"
  ensure (e.delayedCt = nDelayed) s!"delayed_ct is {e.delayedCt}, recomputed {nDelayed}"
  ensure (e.buriedCt = nBuried) s!"buried_ct is {e.buriedCt}, recomputed {nBuried}"
  ensure (e.delayHeads.toList = e.recountDelayHeads.toList) "delay_heads index is stale"
  ensure (e.pauses.toList = e.recountPauses.toList) "pauses index is stale"
  ensure (e.dispatchable.toList = e.recountDispatchable.toList) "dispatchable set is stale"

/-- Every invariant the engine relies on, as `Err(what)` for the first violation. -/
def validate (e : Engine) : Except String Unit := do
  e.checkBounds
  e.checkDirectory
  e.checkNextJobId
  each e.conns.toList fun before (cid, c) => e.checkConn before cid c
  e.checkCensus
  each e.jobs.toList fun _ (id, j) => e.checkJob id j
  e.checkReservedTotals
  each (Slab.entries e.tubes) fun before (tid, t) => e.checkTube before tid t
  e.checkTotals

end Engine

end Beanstalkd
