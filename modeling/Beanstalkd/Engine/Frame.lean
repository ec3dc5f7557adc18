import Beanstalkd.Engine.Aspect

/-!
# What the queue primitives leave alone

Two kinds of facts that need no invariant.

A *frame* lemma names the fields a method may change: `e.m = { e with ... }`.
Whatever reads other fields is the same before and after by computation.

`Same` is the part of the state that no movement of a job or of a waiter
touches: the directory, what makes a tube, a job or a connection the one it is,
and the id allocator. It is a preorder, so it goes through every loop, and the
reference counts (`RefsOk`) depend on nothing else.
-/

open Std

namespace Beanstalkd

/-- Identity of a tube, with its reference counts. -/
def TubeState.fixed (t : TubeState) : (TubeName × Nat) × RefCts := (t.sig, t.refCts)

/-- What never changes while a job lives. -/
structure JobCore where
  id : JobId
  tube : TubeId
  ttr : Nat
  body : Bytes
  createdAt : Nanos

def JobRec.fixed (j : JobRec) : JobCore := ⟨j.id, j.tube, j.ttr, j.body, j.createdAt⟩

/-- What only the client's own commands change. -/
structure ConnCore where
  useTube : TubeId
  watch : Ms TubeId
  pendingPut : Option PendingPut

def ConnState.fixed (c : ConnState) : ConnCore := ⟨c.useTube, c.watch, c.pendingPut⟩

/-- The connections open now, and those ever made. -/
def Engine.clients (e : Engine) : Nat × Nat := (e.curConns, e.totConns)

/-- `e'` differs from `e` only in where jobs and waiters are. -/
structure Same (e e' : Engine) : Prop where
  statics : e'.toStatics = e.toStatics
  clients : e'.clients = e.clients
  directory : e'.toDirectory = e.toDirectory
  draining : e'.draining = e.draining
  nextJobId : e'.nextJobId = e.nextJobId
  slots : e'.tubes.length = e.tubes.length
  tubes : Slab.view TubeState.fixed e'.tubes = Slab.view TubeState.fixed e.tubes
  jobs : (e'.jobs.map fun _ j => JobRec.fixed j) = e.jobs.map fun _ j => JobRec.fixed j
  conns : (e'.conns.map fun _ c => ConnState.fixed c) = e.conns.map fun _ c => ConnState.fixed c

namespace Same

variable {e e' e'' : Engine}

theorem refl (e : Engine) : Same e e := ⟨rfl, rfl, rfl, rfl, rfl, rfl, rfl, rfl, rfl⟩

theorem trans (h : Same e e') (h' : Same e' e'') : Same e e'' where
  statics := h'.statics.trans h.statics
  clients := h'.clients.trans h.clients
  directory := h'.directory.trans h.directory
  draining := h'.draining.trans h.draining
  nextJobId := h'.nextJobId.trans h.nextJobId
  slots := h'.slots.trans h.slots
  tubes := h'.tubes.trans h.tubes
  jobs := h'.jobs.trans h.jobs
  conns := h'.conns.trans h.conns

theorem symm (h : Same e e') : Same e' e :=
  ⟨h.statics.symm, h.clients.symm, h.directory.symm, h.draining.symm, h.nextJobId.symm,
    h.slots.symm, h.tubes.symm, h.jobs.symm, h.conns.symm⟩

theorem loop {step : Engine → Option Engine} (h : ∀ e e', step e = some e' → Same e e') (n : Nat)
    (e : Engine) : Same e (Loop.loop n step e) :=
  (Loop.loop_rec (fun e _ => refl e)
    (fun e e' _ he => ⟨trivial, fun _ ht => (h e e' he).trans ht⟩) n trivial).2

theorem foldl {α : Type} {f : Engine → α → Engine} (h : ∀ e a, Same e (f e a)) (l : List α)
    (e : Engine) : Same e (l.foldl f e) :=
  Loop.foldl_inv l (fun e' a _ h' => h'.trans (h e' a)) (refl e)

/-- The live jobs are the same ones. -/
theorem job (h : Same e e') (i : JobId) :
    e'.jobs[i]?.map JobRec.fixed = e.jobs[i]?.map JobRec.fixed := by
  have hi := congrArg (fun m => m[i]?) h.jobs
  simpa only [ExtTreeMap.getElem?_map] using hi

theorem job_some (h : Same e e') {i : JobId} {j : JobRec} (hj : e.jobs[i]? = some j) :
    ∃ j', e'.jobs[i]? = some j' ∧ j'.fixed = j.fixed := by
  have hi := h.job i
  rw [hj] at hi
  exact Option.map_eq_some_iff.mp hi

theorem jobs_size (h : Same e e') : e'.jobs.size = e.jobs.size := by
  have hs := congrArg ExtTreeMap.size h.jobs
  simpa only [ExtTreeMap.size_map] using hs

theorem conn (h : Same e e') (c : ConnId) :
    e'.conns[c]?.map ConnState.fixed = e.conns[c]?.map ConnState.fixed := by
  have hc := congrArg (fun m => m[c]?) h.conns
  simpa only [ExtTreeMap.getElem?_map] using hc

theorem conn_some (h : Same e e') {c : ConnId} {k : ConnState} (hk : e.conns[c]? = some k) :
    ∃ k', e'.conns[c]? = some k' ∧ k'.fixed = k.fixed := by
  have hc := h.conn c
  rw [hk] at hc
  exact Option.map_eq_some_iff.mp hc

end Same

namespace Engine

/-! ## Refreshing an index -/

theorem refreshDispatchable_frame (e : Engine) (t : TubeId) :
    ∃ tubes disp, e.refreshDispatchable t = { e with tubes := tubes, dispatchable := disp } := by
  unfold refreshDispatchable
  split
  · exact ⟨e.tubes, e.dispatchable, rfl⟩
  simp only
  split
  · exact ⟨_, _, rfl⟩
  · exact ⟨e.tubes, e.dispatchable, rfl⟩

theorem refreshDispatchable_same (e : Engine) (t : TubeId) : Same e (e.refreshDispatchable t) := by
  unfold refreshDispatchable
  split
  · exact .refl e
  simp only
  split
  · exact { Same.refl e with
      slots := Slab.length_modify ..
      tubes := Slab.view_modify fun _ => rfl }
  · exact .refl e

/-- An aspect that does not read the mark does not notice. -/
theorem refreshDispatchable_view {β : Type} {v : TubeState → β}
    (hv : ∀ ts b, v { ts with dispatchable := b } = v ts) (e : Engine) (t : TubeId) :
    Slab.view v (e.refreshDispatchable t).tubes = Slab.view v e.tubes := by
  unfold refreshDispatchable
  split
  · rfl
  simp only
  split
  · exact Slab.view_modify fun ts => hv ts _
  · rfl

theorem refreshDelayHead_frame (e : Engine) (t : TubeId) :
    ∃ tubes heads, e.refreshDelayHead t = { e with tubes := tubes, delayHeads := heads } := by
  unfold refreshDelayHead
  split
  · exact ⟨e.tubes, e.delayHeads, rfl⟩
  simp only
  split
  · exact ⟨_, _, rfl⟩
  · exact ⟨e.tubes, e.delayHeads, rfl⟩

theorem refreshDelayHead_same (e : Engine) (t : TubeId) : Same e (e.refreshDelayHead t) := by
  unfold refreshDelayHead
  split
  · exact .refl e
  simp only
  split
  · exact { Same.refl e with
      slots := Slab.length_modify ..
      tubes := Slab.view_modify fun _ => rfl }
  · exact .refl e

theorem refreshDelayHead_view {β : Type} {v : TubeState → β}
    (hv : ∀ ts d, v { ts with delayHead := d } = v ts) (e : Engine) (t : TubeId) :
    Slab.view v (e.refreshDelayHead t).tubes = Slab.view v e.tubes := by
  unfold refreshDelayHead
  split
  · rfl
  simp only
  split
  · exact Slab.view_modify fun ts => hv ts _
  · rfl

theorem refreshConnTick_frame (e : Engine) (c : ConnId) :
    ∃ conns ticks, e.refreshConnTick c = { e with conns := conns, connTicks := ticks } := by
  unfold refreshConnTick
  split
  · exact ⟨e.conns, e.connTicks, rfl⟩
  simp only
  split
  · exact ⟨_, _, rfl⟩
  · exact ⟨e.conns, e.connTicks, rfl⟩

theorem refreshConnTick_same (e : Engine) (c : ConnId) : Same e (e.refreshConnTick c) := by
  unfold refreshConnTick
  split
  · exact .refl e
  simp only
  split
  · exact { Same.refl e with conns := TreeMap.map_modify fun _ => rfl }
  · exact .refl e

/-! ## Small changes -/

theorem modTube_same (e : Engine) (t : TubeId) {f : TubeState → TubeState}
    (hf : ∀ ts, (f ts).fixed = ts.fixed) : Same e (e.modTube t f) :=
  { Same.refl e with
    slots := Slab.length_modify ..
    tubes := Slab.view_modify hf }

theorem modJob_same (e : Engine) (i : JobId) {f : JobRec → JobRec}
    (hf : ∀ j, (f j).fixed = j.fixed) : Same e (e.modJob i f) :=
  { Same.refl e with jobs := TreeMap.map_modify hf }

theorem modConn_same (e : Engine) (c : ConnId) {f : ConnState → ConnState}
    (hf : ∀ k, (f k).fixed = k.fixed) : Same e (e.modConn c f) :=
  { Same.refl e with conns := TreeMap.map_modify hf }

theorem reply_frame (e : Engine) (c : ConnId) (r : Response) :
    ∃ out, e.reply c r = { e with out := out } := by
  unfold reply
  split
  · exact ⟨_, rfl⟩
  · exact ⟨e.out, rfl⟩

theorem reply_same (e : Engine) (c : ConnId) (r : Response) : Same e (e.reply c r) := by
  obtain ⟨_, h⟩ := reply_frame e c r
  rw [h]
  exact { Same.refl e with }

theorem journalWith_frame (e : Engine) (i : JobId) (f : JobRec → JournalEntry) :
    ∃ log, e.journalWith i f = { e with journal := log } := by
  unfold journalWith
  split
  · split
    · exact ⟨_, rfl⟩
    · exact ⟨e.journal, rfl⟩
  · exact ⟨e.journal, rfl⟩

theorem journalWith_same (e : Engine) (i : JobId) (f : JobRec → JournalEntry) :
    Same e (e.journalWith i f) := by
  obtain ⟨_, h⟩ := journalWith_frame e i f
  rw [h]
  exact { Same.refl e with }

theorem journalDelete_frame (e : Engine) (i : JobId) :
    ∃ log, e.journalDelete i = { e with journal := log } := by
  unfold journalDelete
  split
  · exact ⟨_, rfl⟩
  · exact ⟨e.journal, rfl⟩

/-! ## Moving a job -/

theorem insertReady_same (e : Engine) (t : TubeId) (i : JobId) : Same e (e.insertReady t i) := by
  unfold insertReady
  split
  · exact .refl e
  refine Same.trans ?_ (refreshDispatchable_same _ t)
  exact { Same.refl e with
    slots := Slab.length_modify ..
    tubes := Slab.view_modify fun _ => rfl
    jobs := TreeMap.map_modify fun _ => rfl }

theorem insertReady_frame (e : Engine) (t : TubeId) (i : JobId) :
    ∃ jobs tubes disp n m, e.insertReady t i =
      { e with
        jobs := jobs, tubes := tubes, dispatchable := disp, readyCt := n, urgentCt := m } := by
  unfold insertReady
  split
  · exact ⟨e.jobs, e.tubes, e.dispatchable, e.readyCt, e.urgentCt, rfl⟩
  obtain ⟨_, _, hf⟩ := refreshDispatchable_frame _ t
  rw [hf]
  exact ⟨_, _, _, _, _, rfl⟩

theorem removeReady_same (e : Engine) (t : TubeId) (i : JobId) : Same e (e.removeReady t i) := by
  refine Same.trans ?_ (refreshDispatchable_same _ t)
  exact { Same.refl e with
    slots := Slab.length_modify ..
    tubes := Slab.view_modify fun _ => rfl }

theorem removeReady_frame (e : Engine) (t : TubeId) (i : JobId) :
    ∃ tubes disp n, e.removeReady t i =
      { e with tubes := tubes, dispatchable := disp, readyCt := e.readyCt - 1, urgentCt := n } := by
  unfold removeReady
  obtain ⟨_, _, h⟩ := refreshDispatchable_frame _ t
  rw [h]
  exact ⟨_, _, _, rfl⟩

theorem removeReady_waits (e : Engine) (t : TubeId) (i : JobId) :
    Slab.view TubeState.waits (e.removeReady t i).tubes = Slab.view TubeState.waits e.tubes := by
  unfold removeReady
  rw [refreshDispatchable_view fun _ _ => rfl]
  exact Slab.view_modify fun _ => rfl

theorem insertDelayed_same (e : Engine) (t : TubeId) (i : JobId) (d : Nanos) :
    Same e (e.insertDelayed t i d) := by
  refine Same.trans ?_ (refreshDelayHead_same _ t)
  exact { Same.refl e with
    slots := Slab.length_modify ..
    tubes := Slab.view_modify fun _ => rfl
    jobs := TreeMap.map_modify fun _ => rfl }

theorem removeDelayed_same (e : Engine) (t : TubeId) (i : JobId) :
    Same e (e.removeDelayed t i) := by
  refine Same.trans ?_ (refreshDelayHead_same _ t)
  exact { Same.refl e with
    slots := Slab.length_modify ..
    tubes := Slab.view_modify fun _ => rfl }

theorem removeDelayed_frame (e : Engine) (t : TubeId) (i : JobId) :
    ∃ tubes heads n, e.removeDelayed t i =
      { e with tubes := tubes, delayHeads := heads, delayedCt := n } := by
  unfold removeDelayed
  obtain ⟨_, _, h⟩ := refreshDelayHead_frame _ t
  rw [h]
  exact ⟨_, _, _, rfl⟩

theorem insertBuried_same (e : Engine) (t : TubeId) (i : JobId) : Same e (e.insertBuried t i) :=
  { Same.refl e with
    slots := Slab.length_modify ..
    tubes := Slab.view_modify fun _ => rfl
    jobs := TreeMap.map_modify fun _ => rfl }

theorem unbury_same (e : Engine) (t : TubeId) (seq : Nat) : Same e (e.unbury t seq) :=
  { Same.refl e with
    slots := Slab.length_modify ..
    tubes := Slab.view_modify fun _ => rfl }

theorem removeBuried_same (e : Engine) (t : TubeId) (i : JobId) : Same e (e.removeBuried t i) := by
  unfold removeBuried
  split
  · split
    · exact unbury_same e t _
    · exact .refl e
  · exact .refl e

theorem removeBuried_frame (e : Engine) (t : TubeId) (i : JobId) :
    ∃ tubes n, e.removeBuried t i = { e with tubes := tubes, buriedCt := n } := by
  unfold removeBuried
  split
  · split
    · exact ⟨_, _, rfl⟩
    · exact ⟨e.tubes, e.buriedCt, rfl⟩
  · exact ⟨e.tubes, e.buriedCt, rfl⟩

theorem doReserve_same (e : Engine) (c : ConnId) (i : JobId) (now : Nanos) :
    Same e (e.doReserve c i now) := by
  unfold doReserve
  cases hj : e.jobs[i]? with
  | none => exact .refl e
  | some j =>
    refine Same.trans ?_ (refreshConnTick_same _ c)
    exact { Same.refl e with
      slots := Slab.length_modify ..
      tubes := Slab.view_modify fun _ => rfl
      jobs := TreeMap.map_modify fun _ => by simp only [JobRec.fixed]
      conns := TreeMap.map_modify fun _ => rfl }

theorem doReserve_frame (e : Engine) (c : ConnId) (i : JobId) (now : Nanos) :
    ∃ jobs conns ticks tubes seq n, e.doReserve c i now =
      { e with jobs := jobs, conns := conns, connTicks := ticks, tubes := tubes
               nextListSeq := seq, reservedCt := n } := by
  unfold doReserve
  cases hj : e.jobs[i]? with
  | none => exact ⟨e.jobs, e.conns, e.connTicks, e.tubes, e.nextListSeq, e.reservedCt, rfl⟩
  | some j =>
    simp only
    obtain ⟨_, _, h⟩ := refreshConnTick_frame
      { e with
        jobs := e.jobs.modify i fun j' =>
          { j' with state := .reserved, reserver := some c
                    deadlineAt := satAdd now (j.ttr * nanosPerSec)
                    reserveCt := inc32 j'.reserveCt, listSeq := e.nextListSeq }
        conns := e.conns.modify c fun c =>
          { c with reserved := c.reserved.insert e.nextListSeq i
                   reservedByDeadline :=
                     c.reservedByDeadline.insert (satAdd now (j.ttr * nanosPerSec), i) }
        tubes := Slab.modify e.tubes j.tube fun t =>
          { t with stat := { t.stat with reservedCt := t.stat.reservedCt + 1 } }
        nextListSeq := e.nextListSeq + 1
        reservedCt := e.reservedCt + 1 } c
    rw [h]
    exact ⟨_, _, _, _, _, _, rfl⟩

theorem doUnreserve_same (e : Engine) (c : ConnId) (i : JobId) : Same e (e.doUnreserve c i) := by
  unfold doUnreserve
  split
  · refine Same.trans ?_ (refreshConnTick_same _ c)
    exact { Same.refl e with conns := TreeMap.map_modify fun _ => rfl }
  refine Same.trans ?_ (refreshConnTick_same _ c)
  exact { Same.refl e with
    slots := Slab.length_modify ..
    tubes := Slab.view_modify fun _ => rfl
    jobs := TreeMap.map_modify fun _ => rfl
    conns := TreeMap.map_modify fun _ => rfl }

/-! ## Waiters -/

theorem joinQueue_same (e : Engine) (c : ConnId) (t : TubeId) : Same e (joinQueue c e t) := by
  refine Same.trans ?_ (refreshDispatchable_same _ t)
  exact modTube_same e t fun _ => rfl

theorem leaveQueue_same (e : Engine) (c : ConnId) (t : TubeId) : Same e (leaveQueue c e t) := by
  refine Same.trans ?_ (refreshDispatchable_same _ t)
  exact modTube_same e t fun _ => rfl

/-- Joining and leaving wait lists changes tubes only. -/
theorem foldl_joinQueue_frame (c : ConnId) (l : List TubeId) (e : Engine) :
    ∃ tubes disp, l.foldl (joinQueue c) e = { e with tubes := tubes, dispatchable := disp } := by
  induction l generalizing e with
  | nil => exact ⟨e.tubes, e.dispatchable, rfl⟩
  | cons t l ih =>
    obtain ⟨_, _, h⟩ := refreshDispatchable_frame (e.modTube t fun ts =>
      { ts with stat := { ts.stat with waitingCt := ts.stat.waitingCt + 1 }
                waitingConns := ts.waitingConns.append c }) t
    obtain ⟨_, _, h'⟩ := ih (joinQueue c e t)
    rw [List.foldl_cons, h', joinQueue, h]
    exact ⟨_, _, rfl⟩

theorem foldl_leaveQueue_frame (c : ConnId) (l : List TubeId) (e : Engine) :
    ∃ tubes disp, l.foldl (leaveQueue c) e = { e with tubes := tubes, dispatchable := disp } := by
  induction l generalizing e with
  | nil => exact ⟨e.tubes, e.dispatchable, rfl⟩
  | cons t l ih =>
    obtain ⟨_, _, h⟩ := refreshDispatchable_frame (e.modTube t fun ts =>
      { ts with stat := { ts.stat with waitingCt := ts.stat.waitingCt - 1 }
                waitingConns := ts.waitingConns.remove c }) t
    obtain ⟨_, _, h'⟩ := ih (leaveQueue c e t)
    rw [List.foldl_cons, h', leaveQueue, h]
    exact ⟨_, _, rfl⟩

theorem enqueueWaitingConn_same (e : Engine) (c : ConnId) (d : Option Nanos) :
    Same e (e.enqueueWaitingConn c d) := by
  unfold enqueueWaitingConn
  split
  · exact .refl e
  refine Same.trans ?_ (refreshConnTick_same _ c)
  refine Same.trans ?_ (Same.foldl (fun e t => joinQueue_same e c t) _ _)
  exact { Same.refl e with conns := TreeMap.map_modify fun _ => rfl }

theorem doRemoveWaitingConn_same (e : Engine) (c : ConnId) :
    Same e (e.doRemoveWaitingConn c) := by
  unfold doRemoveWaitingConn
  split
  · exact .refl e
  split
  · refine Same.trans ?_ (refreshConnTick_same _ c)
    refine Same.trans ?_ (Same.foldl (fun e t => leaveQueue_same e c t) _ _)
    exact { Same.refl e with conns := TreeMap.map_modify fun _ => rfl }
  · exact .refl e

theorem doRemoveWaitingConn_frame (e : Engine) (c : ConnId) :
    ∃ tubes disp conns ticks n, e.doRemoveWaitingConn c =
      { e with tubes := tubes, dispatchable := disp, conns := conns, connTicks := ticks
               waitingCt := n } := by
  unfold doRemoveWaitingConn
  split
  · exact ⟨e.tubes, e.dispatchable, e.conns, e.connTicks, e.waitingCt, rfl⟩
  next k _ =>
  split
  · obtain ⟨_, _, h⟩ := foldl_leaveQueue_frame c k.watch.items (e.clearWaiting c)
    obtain ⟨_, _, h'⟩ := refreshConnTick_frame (k.watch.items.foldl (leaveQueue c)
      (e.clearWaiting c)) c
    rw [h', h]
    exact ⟨_, _, _, _, _, rfl⟩
  · exact ⟨e.tubes, e.dispatchable, e.conns, e.connTicks, e.waitingCt, rfl⟩

theorem takeWaiter_frame (e : Engine) (t : TubeId) :
    ∃ tubes, (e.takeWaiter t).2 = { e with tubes := tubes } := by
  unfold takeWaiter
  split
  · exact ⟨_, rfl⟩
  · exact ⟨e.tubes, rfl⟩

theorem takeWaiter_same (e : Engine) (t : TubeId) : Same e (e.takeWaiter t).2 := by
  unfold takeWaiter
  split
  · exact modTube_same e t fun _ => rfl
  · exact .refl e

/-! ## The loops -/

theorem clearExpiredPauses_same (e : Engine) (now : Nanos) : Same e (e.clearExpiredPauses now) := by
  refine Same.loop (fun e e' h => ?_) _ e
  unfold clearOnePause at h
  split at h
  · cases h
  split at h
  · cases h
  cases h
  exact { Same.refl e with
    slots := Slab.length_modify ..
    tubes := Slab.view_modify fun _ => rfl }

theorem dispatchOne_same {e e' : Engine} {now : Nanos} (h : dispatchOne now e = some e') :
    Same e e' := by
  unfold dispatchOne at h
  split at h
  · cases h
  next id tube _ =>
  have h₁ := ((removeReady_same e tube id).trans (takeWaiter_same _ tube)).trans
    (refreshDispatchable_same _ tube)
  simp only at h
  split at h
  · cases h
    exact h₁
  cases h
  exact ((h₁.trans (doRemoveWaitingConn_same _ _)).trans (doReserve_same _ _ _ _)).trans
    (reply_same _ _ _)

theorem processQueue_same (e : Engine) (now : Nanos) : Same e (e.processQueue now) :=
  (clearExpiredPauses_same e now).trans (Same.loop (fun _ _ h => dispatchOne_same h) _ _)

end Engine

end Beanstalkd
