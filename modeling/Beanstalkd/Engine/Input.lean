import Beanstalkd.Engine.Command

/-!
# The public interface

`Engine::new`, the connection events, `tick`, `next_deadline` and
`apply_input`: the calls the server and the replicated state machine make.

`Admissible` is the contract those callers keep, taken from the documentation
of the methods: a connection id in use is not connected again, a connection
waiting on reserve sends nothing, a put that was started is completed before
anything else, and `quit` is never passed down.
-/

open Std

namespace Beanstalkd

namespace Engine

/-- An engine with no tube yet. -/
def blank (now : Nanos) (cfg : EngineConfig) (sys : Nanos → SysSnapshot) : Engine where
  cfg := cfg
  sys := sys
  start := now
  binlog := {}
  localConns := none
  freeTubeIds := []
  tubeIds := ∅
  tubeOrder := Ms.new
  curConns := 0
  totConns := 0
  curProducers := 0
  curWorkers := 0
  totalJobsCt := 0
  timeoutCt := 0
  ops := {}
  draining := false
  nextJobId := 1
  nextListSeq := 0
  jobs := ∅
  tubes := []
  conns := ∅
  connTicks := ∅
  delayHeads := ∅
  pauses := ∅
  dispatchable := ∅
  readyCt := 0
  urgentCt := 0
  reservedCt := 0
  buriedCt := 0
  delayedCt := 0
  waitingCt := 0
  journal := []
  out := []

/-- `Engine::new`. -/
def new (now : Nanos) (cfg : EngineConfig) (sys : Nanos → SysSnapshot) : Engine :=
  ((blank now cfg sys).findOrMakeTube TubeName.defaultTube).1

/-- Registers a new connection (it uses and watches "default"). -/
def connect (e : Engine) (conn : ConnId) : Engine :=
  let e := e.modTube defaultTubeId fun t =>
    { t with usingCt := t.usingCt + 1, watchingCt := t.watchingCt + 1 }
  { e with
    -- connection ids are never reused; the index is kept consistent anyway
    connTicks := Index.rekey e.connTicks conn (e.conns[conn]?.bind ConnState.tickKey) none
    conns := e.conns.insert conn (ConnState.new defaultTubeId)
    curConns := e.curConns + 1
    totConns := inc32 e.totConns }

/-- One reserved job of a closing connection goes back to ready. -/
def releaseOne (now : Nanos) (conn : ConnId) (e : Engine) (id : JobId) : Engine :=
  let e := e.doUnreserve conn id
  let e := match e.jobs[id]? with
    | some j => e.insertReady j.tube id
    | none => e
  e.processQueue now

/-- The last step of `disconnect`: forget the connection. -/
def removeConn (e : Engine) (conn : ConnId) : Engine :=
  let e := match e.conns[conn]? with
    | none => e
    | some c =>
      { e with
        conns := e.conns.erase conn
        connTicks := Index.rekey e.connTicks conn c.tickKey none
        curProducers := e.curProducers - c.isProducer.toNat
        curWorkers := e.curWorkers - c.isWorker.toNat }
  { e with curConns := e.curConns - 1 }

/-- The connection closed: its reserved jobs are released, oldest reservation
first, with a dispatch after each; then it leaves the tubes it watches, in
`ms_clear` order, and the tube it uses. -/
def disconnect (e : Engine) (now : Nanos) (conn : ConnId) : Engine :=
  if e.conns.contains conn then
    let e := e.doRemoveWaitingConn conn
    let reserved := match e.conns[conn]? with
      | some c => TreeMap.values c.reserved
      | none => []
    let e := reserved.foldl (releaseOne now conn) e
    let watched := match e.conns[conn]? with
      | some c => c.watch.clearInDeleteOrder
      | none => []
    let e := e.modConn conn fun c => { c with watch := Ms.new }
    let e := watched.foldl dropWatch e
    let e := match e.conns[conn]? with
      | some c => e.dropUse c.useTube
      | none => e
    e.removeConn conn
  else e

/-- A connection waiting on reserve whose client half-closed gets TIMED_OUT. -/
def halfClose (e : Engine) (conn : ConnId) : Engine :=
  if e.isWaiting conn then (e.doRemoveWaitingConn conn).reply conn .timedOut else e

/-- A `put` line was accepted and its body is about to be read: the put is
counted and, unless it is too big, a job id is allocated. No reply. -/
def putStarted (e : Engine) (now : Nanos) (conn : ConnId) (tooBig : Bool) : Engine :=
  if e.conns.contains conn then
    let e := e.countOp fun o => { o with put := inc64 o.put }
    let (e, id) :=
      if tooBig then (e, none)
      else
        let e := e.connsetproducer conn
        ({ e with nextJobId := e.nextJobId + 1 }, some e.nextJobId)
    e.modConn conn fun c => { c with pendingPut := some ⟨id, now⟩ }
  else e

/-- A `put` rejected by the codec. EXPECTED_CRLF and OUT_OF_MEMORY come after
the job id was allocated; what `put_started` already did is not repeated. -/
def putRejected (e : Engine) (conn : ConnId) (why : PutRejection) : Engine :=
  match e.conns[conn]? with
  | none => e
  | some c =>
    let e := e.modConn conn fun c => { c with pendingPut := none }
    let e :=
      if c.pendingPut.isSome then e
      else
        let e := e.countOp fun o => { o with put := inc64 o.put }
        if why = .expectedCrlf ∨ why = .outOfMemory then
          let e := e.connsetproducer conn
          { e with nextJobId := e.nextJobId + 1 }
        else e
    e.reply conn why.response

def setDraining (e : Engine) (on : Bool) : Engine := { e with draining := on }

/-! ## Time -/

/-- Earliest time `tick` must be called, if any. -/
def nextDeadline (e : Engine) : Option Nanos :=
  ([(TreeMap.first e.delayHeads).map Prod.fst, (TreeMap.first e.pauses).map Prod.fst,
    (TreeMap.first e.connTicks).map Prod.fst].filterMap id).min?

/-- One delayed job whose time has come becomes ready. -/
def wakeOne (now : Nanos) (e : Engine) : Option Engine :=
  match e.soonestDelayedJob with
  | none => none
  | some (deadline, tube, id) =>
    if deadline > now then none
    else some (((e.removeDelayed tube id).insertReady tube id).processQueue now)

/-- The first connection due at `now` that was not handled in this tick. -/
def nextDue (e : Engine) (now : Nanos) (processed : ExtTreeSet ConnId) : Option ConnId :=
  ((e.connTicks.toList.takeWhile fun (t, _) => t ≤ now).find?
    fun (_, cid) => !processed.contains cid).map Prod.snd

/-- One connection's turn; each is handled at most once per tick. -/
def timeoutOne (now : Nanos) (s : Engine × ExtTreeSet ConnId) :
    Option (Engine × ExtTreeSet ConnId) :=
  match s.1.nextDue now s.2 with
  | none => none
  | some cid => some (s.1.connTimeout cid now, s.2.insert cid)

/-- The body of `tick`, once something is known to be due. -/
def runTimers (e : Engine) (now : Nanos) : Engine :=
  let e := Loop.loop (e.jobs.size + 1) (wakeOne now) e
  let e := if (TreeMap.first e.pauses).any fun (t, _) => t ≤ now then e.processQueue now else e
  (Loop.loop (e.conns.size + 1) (timeoutOne now) (e, ∅)).1

/-- Processes everything due at or before `now`: delays, TTRs, DEADLINE_SOON,
reserve timeouts and pause expiry. -/
def tick (e : Engine) (now : Nanos) : Engine :=
  if e.nextDeadline.any (· ≤ now) then e.runTimers now else e

/-! ## Inputs -/

/-- One input, without the tick. -/
def step (e : Engine) (now : Nanos) : EngineInput → Engine
  | .connect c => e.connect c
  | .disconnect c => e.disconnect now c
  | .halfClose c => e.halfClose c
  | .putStarted c tooBig => e.putStarted now c tooBig
  | .putRejected c why => e.putRejected c why
  | .command c cmd => e.handle now c cmd
  | .tick => e
  | .setDraining on => e.setDraining on

/-- Runs one input, then `tick(now)`. -/
def applyInput (e : Engine) (now : Nanos) (input : EngineInput) : Engine :=
  (e.step now input).tick now

/-- A completion of the pending put `p`: the put itself, or the rejection the
codec can still raise for it. -/
def Completes (p : PendingPut) : EngineInput → Prop
  | .command _ (.put ..) => p.id.isSome
  | .putRejected _ why =>
    match why with
    | .jobTooBig => p.id = none
    | .expectedCrlf | .outOfMemory => p.id.isSome
    | .trailingGarbage => False
  | _ => False

/-- What the connection's state allows its client to send next. -/
def ClientMay (c : ConnState) (input : EngineInput) : Prop :=
  c.waiting = false ∧ ∀ p, c.pendingPut = some p → Completes p input

/-- The callers' contract: no connect for an id that is connected now; no put
event or command for a connection that is waiting; between `putStarted` and its
completion only that completion; `quit` never. -/
def Admissible (e : Engine) : EngineInput → Prop
  | .connect c => e.conns[c]? = none
  | .putStarted c tooBig => ∀ k, e.conns[c]? = some k → ClientMay k (.putStarted c tooBig)
  | .putRejected c why => ∀ k, e.conns[c]? = some k → ClientMay k (.putRejected c why)
  | .command c cmd => cmd ≠ .quit ∧ ∀ k, e.conns[c]? = some k → ClientMay k (.command c cmd)
  | .disconnect _ | .halfClose _ | .tick | .setDraining _ => True

instance (p : PendingPut) : DecidablePred (Completes p) := fun input => by
  unfold Completes
  split
  · infer_instance
  · split <;> infer_instance
  · infer_instance

instance (c : ConnState) : DecidablePred (ClientMay c) := fun input =>
  inferInstanceAs (Decidable (_ ∧ ∀ p ∈ c.pendingPut, Completes p input))

instance (e : Engine) : DecidablePred e.Admissible
  | .connect c => decidable_of_iff _ (Option.isNone_iff_eq_none (o := e.conns[c]?))
  | .putStarted c tooBig =>
    inferInstanceAs (Decidable (∀ k ∈ e.conns[c]?, ClientMay k (.putStarted c tooBig)))
  | .putRejected c why =>
    inferInstanceAs (Decidable (∀ k ∈ e.conns[c]?, ClientMay k (.putRejected c why)))
  | .command c cmd =>
    inferInstanceAs (Decidable (_ ∧ ∀ k ∈ e.conns[c]?, ClientMay k (.command c cmd)))
  | .disconnect _ | .halfClose _ | .tick | .setDraining _ => .isTrue trivial

end Engine

end Beanstalkd
