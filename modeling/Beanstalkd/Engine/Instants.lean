import Beanstalkd.Engine.Reserve
import Beanstalkd.Engine.Preservation

/-!
# The instants at which jobs are handed out

A call may dispatch several times, and a dispatch hands out several jobs, each from a
state of its own. `dispatches` lists the states in which a call enters `process_queue`:
it follows the code of the call up to each of these points. `instants` are the states
of all rounds in them, and the job of a RESERVED reply is the most urgent one there.
-/

open Std

namespace Beanstalkd

/-- The RESERVED replies of an outbox. -/
def servedIn (out : Outbox) : List (ConnId × JobId) :=
  out.filterMap fun x => match x.2 with
    | .reserved i _ => some (x.1, i)
    | _ => none

theorem servedIn_append (o o' : Outbox) : servedIn (o ++ o') = servedIn o ++ servedIn o' :=
  List.filterMap_append

namespace Engine

variable {e e' e₁ : Engine} {c : ConnId} {k : ConnState} {tube : TubeId} {id : JobId} {j : JobRec}
  {now : Nanos} {o : Bool}

/-! ## Rounds of a dispatch -/

/-- The states in which a dispatch entered in `e` hands out a job. -/
def turns (now : Nanos) (e : Engine) : List Engine :=
  Loop.states (e.jobs.size + 1) (dispatchOne now) (e.clearExpiredPauses now)

/-- The RESERVED reply of a round, unless it is another process's to deliver. -/
def told (e : Engine) : List (ConnId × JobId) := e.handed.toList.filter fun x => e.wantsReply x.1

theorem Hand.told {x : ConnId × JobId} (h : Hand now e x e') :
    servedIn e'.out = servedIn e.out ++ e.told := by
  rw [h.out, servedIn_append, Engine.told, h.chosen, said]
  congr 1
  cases hw : e.wantsReply x.1 with
  | true => simp [hw, servedIn, reservedReply]
  | false => simp [hw, servedIn]

theorem turns_urgent (h : Core { owed := o } e) {s : Engine} (hs : s ∈ e.turns now) :
    ∃ c i, s.handed = some (c, i) ∧ MostUrgent s c i := by
  have h₁ : Core { owed := true } (e.clearExpiredPauses now) := clearExpiredPauses_core h.owe
  obtain ⟨hcore, s', hstep⟩ := Loop.mem_states (fun _ _ h hs => (dispatchOne_core h hs).1) _ h₁ s hs
  obtain ⟨x, hx⟩ := dispatchOne_hand hcore hstep
  exact ⟨x.1, x.2, hx.chosen, hx.urgent⟩

theorem processQueue_served (h : Core { owed := o } e) (now : Nanos) :
    servedIn (e.processQueue now).out = servedIn e.out ++ (e.turns now).flatMap told := by
  have h₁ : Core { owed := true } (e.clearExpiredPauses now) := clearExpiredPauses_core h.owe
  have hout : (e.clearExpiredPauses now).out = e.out := by
    obtain ⟨_, _, hf⟩ := clearExpiredPauses_frame e now
    rw [hf]
  rw [← hout]
  refine Loop.loop_log (fun a : Engine => servedIn a.out)
    (fun a b ha hab => ?_) _ h₁
  obtain ⟨x, hx⟩ := dispatchOne_hand ha hab
  exact ⟨(dispatchOne_core ha hab).1, hx.told⟩

/-! ## The dispatches of each call

Each definition is the code of its method up to the calls of `process_queue`. -/

def putDispatches (e : Engine) (now : Nanos) (cid : ConnId) (pri delay ttr : Nat) (body : Bytes) :
    List Engine :=
  let (e, id, createdAt) := e.takePutId now cid
  if e.draining then []
  else
    let tube := e.useTubeOf cid
    let e := { e with jobs := e.jobs.insert id (e.newJob id tube pri delay ttr body createdAt) }
    let e := e.modTube tube fun t => { t with jobRefCt := t.jobRefCt + 1 }
    [(e.enqueueJob now tube id delay).journalPut id]

def reserveDispatches (e : Engine) (now : Nanos) (cid : ConnId) (timeout : Option Nat) :
    List Engine :=
  let e := e.countOp fun o => match timeout with
    | none => { o with reserve := inc64 o.reserve }
    | some _ => { o with reserveWithTimeout := inc64 o.reserveWithTimeout }
  let e := e.connsetworker cid
  if e.connDeadlineSoon cid now && !e.connReady cid then []
  else [e.enqueueWaitingConn cid (timeout.map fun t => satAdd now (t * nanosPerSec))]

def releaseDispatches (e : Engine) (now : Nanos) (cid : ConnId) (id : JobId) (pri delay : Nat) :
    List Engine :=
  let e := e.countOp fun o => { o with release := inc64 o.release }
  match e.reservedBy cid id with
  | none => []
  | some tube =>
    let e := e.doUnreserve cid id
    let e := e.modJob id fun j =>
      { j with pri := pri, delay := delay, releaseCt := inc32 j.releaseCt }
    let e := e.enqueueJob now tube id delay
    [if 0 < delay then e.journalUpdate id else e]

def kickDispatches (e : Engine) (now : Nanos) (cid : ConnId) (n : Nat) : List Engine :=
  let e := e.countOp fun o => { o with kick := inc64 o.kick }
  let tube := e.useTubeOf cid
  if (e.tube tube).any fun t => !t.buried.isEmpty then
    (Loop.states n (kickBuried now tube) e).flatMap fun e => (reviveBuried tube e).toList
  else
    (Loop.states n (kickDelayed now tube) e).flatMap fun e => (reviveDelayed tube e).toList

def kickJobDispatches (e : Engine) (id : JobId) : List Engine :=
  match e.jobs[id]? with
  | none => []
  | some j =>
    match j.state with
    | .buried => [(e.removeBuried j.tube id).revive j.tube id]
    | .delayed => [(e.removeDelayed j.tube id).revive j.tube id]
    | .ready | .reserved => []

/-- The dispatches of the jobs a closing connection gives back. -/
def giveBacks (now : Nanos) (conn : ConnId) : List JobId → Engine → List Engine
  | [], _ => []
  | id :: l, e => giveBack conn e id :: giveBacks now conn l (releaseOne now conn e id)

def disconnectDispatches (e : Engine) (now : Nanos) (conn : ConnId) : List Engine :=
  if e.conns.contains conn then
    let e := e.doRemoveWaitingConn conn
    let reserved := match e.conns[conn]? with
      | some c => TreeMap.values c.reserved
      | none => []
    giveBacks now conn reserved e
  else []

def timeoutDispatches (now : Nanos) (s : Engine × ExtTreeSet ConnId) : List Engine :=
  match s.1.nextDue now s.2 with
  | none => []
  | some cid => (Loop.states (s.1.jobs.size + 2) (expireOne cid now) s.1).flatMap fun e =>
      (expire cid now e).toList

def tickDispatches (e : Engine) (now : Nanos) : List Engine :=
  if e.nextDeadline.any (· ≤ now) then
    let wakes := (Loop.states (e.jobs.size + 1) (wakeOne now) e).flatMap fun e =>
      (wake now e).toList
    let e := Loop.loop (e.jobs.size + 1) (wakeOne now) e
    let due := (TreeMap.first e.pauses).any fun (t, _) => t ≤ now
    let pauses := if due then [e] else []
    let e := if due then e.processQueue now else e
    wakes ++ pauses ++ (Loop.states (e.conns.size + 1) (timeoutOne now) (e, ∅)).flatMap
      (timeoutDispatches now)
  else []

/-- The states in which a call enters `process_queue`. -/
def dispatches (e : Engine) (now : Nanos) : EngineInput → List Engine
  | .command c cmd =>
    if e.conns.contains c then
      match cmd with
      | .put pri delay ttr body => e.putDispatches now c pri delay ttr body
      | .reserve => e.reserveDispatches now c none
      | .reserveWithTimeout t => e.reserveDispatches now c (some t)
      | .release id pri delay => e.releaseDispatches now c id pri delay
      | .kick n => e.kickDispatches now c n
      | .kickJob id => e.kickJobDispatches id
      | _ => []
    else []
  | .disconnect c => e.disconnectDispatches now c
  | .tick => e.tickDispatches now
  | _ => []

/-- The states in which a call hands out a job. -/
def instants (e : Engine) (now : Nanos) (input : EngineInput) : List Engine :=
  (e.dispatches now input).flatMap (turns now)

/-- One call of the public interface. -/
def call (e : Engine) (now : Nanos) : EngineInput → Engine
  | .tick => e.tick now
  | input => e.step now input

end Engine

end Beanstalkd
