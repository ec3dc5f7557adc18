import Beanstalkd.Engine.Lifecycle

/-!
# Jobs and connections under a reservation or a wait

What reserving, unreserving and leaving the wait lists do to the tables: which job's
record and which connection change, and that every other is as before.
-/

namespace Beanstalkd

namespace Engine

variable {e e' : Engine} {c d : ConnId} {k : ConnState} {tube : TubeId} {id : JobId} {j : JobRec}
  {now : Nanos}

theorem refreshConnTick_conn (hd : d ≠ c) : (e.refreshConnTick c).conns[d]? = e.conns[d]? := by
  unfold refreshConnTick
  split
  · rfl
  simp only
  split
  · exact TreeMap.getElem?_modify_ne hd
  · rfl

theorem doRemoveWaitingConn_conn (hd : d ≠ c) :
    (e.doRemoveWaitingConn c).conns[d]? = e.conns[d]? := by
  unfold doRemoveWaitingConn
  split
  · rfl
  next k _ =>
  split
  · rw [refreshConnTick_conn hd]
    obtain ⟨_, _, hf⟩ := foldl_leaveQueue_frame c k.watch.items (e.clearWaiting c)
    rw [hf]
    exact TreeMap.getElem?_modify_ne hd
  · rfl

theorem doReserve_conn (hd : d ≠ c) : (e.doReserve c id now).conns[d]? = e.conns[d]? := by
  unfold doReserve
  cases e.jobs[id]? with
  | none => rfl
  | some j =>
    rw [refreshConnTick_conn hd]
    exact TreeMap.getElem?_modify_ne hd

/-- Only the job reserved changes, and it gets its new holder. -/
theorem doReserve_job {i : JobId} (hi : i ≠ id) : (e.doReserve c id now).jobs[i]? = e.jobs[i]? := by
  unfold doReserve
  cases e.jobs[id]? with
  | none => rfl
  | some j =>
    simp only
    obtain ⟨_, _, hf⟩ := refreshConnTick_frame _ c
    rw [hf]
    exact TreeMap.getElem?_modify_ne hi

theorem doReserve_self (hj : e.jobs[id]? = some j) :
    (e.doReserve c id now).jobs[id]? = some { j with
      state := .reserved, reserver := some c, deadlineAt := satAdd now (j.ttr * nanosPerSec)
      reserveCt := inc32 j.reserveCt, listSeq := e.nextListSeq } := by
  unfold doReserve
  simp only [hj]
  obtain ⟨_, _, hf⟩ := refreshConnTick_frame _ c
  rw [hf]
  exact TreeMap.getElem?_modify_of hj

theorem clearExpiredPauses_frame (e : Engine) (now : Nanos) :
    ∃ tubes pauses, e.clearExpiredPauses now = { e with tubes := tubes, pauses := pauses } := by
  refine Loop.loop_inv (P := fun e' => ∃ tubes pauses,
    e' = { e with tubes := tubes, pauses := pauses })
    (fun e₁ e₂ h hs => ?_) _ ⟨e.tubes, e.pauses, rfl⟩
  obtain ⟨tubes, pauses, rfl⟩ := h
  unfold clearOnePause at hs
  split at hs
  · cases hs
  split at hs
  · cases hs
  · cases hs
    exact ⟨_, _, rfl⟩

/-- Up to the reservation, a round of the dispatch changes no job. -/
theorem dispatchOne_jobs {e₁ : Engine}
    (htake : (e.removeReady tube id).takeWaiter tube = (some d, e₁)) :
    ((e₁.refreshDispatchable tube).doRemoveWaitingConn d).jobs = e.jobs := by
  obtain ⟨_, _, _, hf₁⟩ := removeReady_frame e tube id
  obtain ⟨_, hf₂⟩ := takeWaiter_frame (e.removeReady tube id) tube
  rw [htake] at hf₂
  simp only at hf₂
  obtain ⟨_, _, hf₃⟩ := refreshDispatchable_frame e₁ tube
  obtain ⟨_, _, _, _, _, hf₄⟩ := doRemoveWaitingConn_frame (e₁.refreshDispatchable tube) d
  rw [hf₄, hf₃, hf₂, hf₁]

theorem isWaiting_eq_wait (e : Engine) (c : ConnId) :
    e.isWaiting c = (e.conns[c]?.map ConnState.wait).any Prod.fst := by
  rw [isWaiting]
  cases e.conns[c]? <;> rfl

theorem isWaiting_congr (h : e'.conns[c]?.map ConnState.wait = e.conns[c]?.map ConnState.wait) :
    e'.isWaiting c = e.isWaiting c := by
  rw [isWaiting_eq_wait, isWaiting_eq_wait, h]

theorem refreshConnTick_wait (e : Engine) (c d : ConnId) :
    (e.refreshConnTick c).conns[d]?.map ConnState.wait = e.conns[d]?.map ConnState.wait := by
  unfold refreshConnTick
  split
  · rfl
  simp only
  split
  · exact TreeMap.modify_map e.conns c d fun _ => rfl
  · rfl

theorem doUnreserve_wait (e : Engine) (c : ConnId) (i : JobId) (d : ConnId) :
    (e.doUnreserve c i).conns[d]?.map ConnState.wait = e.conns[d]?.map ConnState.wait := by
  unfold doUnreserve
  split
  · rw [refreshConnTick_wait]
    exact TreeMap.modify_map e.conns c d fun _ => rfl
  · rw [refreshConnTick_wait]
    exact TreeMap.modify_map e.conns c d fun _ => rfl

theorem doUnreserve_jobs (e : Engine) (c : ConnId) (i : JobId) :
    (e.doUnreserve c i).jobs = e.jobs.modify i fun j => { j with reserver := none } := by
  unfold doUnreserve
  split
  · next hn =>
    obtain ⟨_, _, hf⟩ := refreshConnTick_frame
      { e with
        conns := e.conns.modify c fun c =>
          { c with reservedByDeadline := c.reservedByDeadline.erase (0, i) }
        reservedCt := e.reservedCt - 1 } c
    rw [hf, TreeMap.modify_of_none hn]
  · obtain ⟨_, _, hf⟩ := refreshConnTick_frame _ c
    rw [hf]

theorem insertReady_jobs (e : Engine) (t : TubeId) (i : JobId) :
    (e.insertReady t i).jobs =
      e.jobs.modify i fun j => { j with state := .ready, reserver := none } := by
  unfold insertReady
  split
  · next hn => rw [TreeMap.modify_of_none hn]
  · obtain ⟨_, _, hf⟩ := refreshDispatchable_frame _ t
    rw [hf]

theorem insertReady_conns (e : Engine) (t : TubeId) (i : JobId) :
    (e.insertReady t i).conns = e.conns := by
  obtain ⟨_, _, _, _, _, hf⟩ := insertReady_frame e t i
  rw [hf]

theorem doRemoveWaitingConn_idle (e : Engine) (c : ConnId) :
    (e.doRemoveWaitingConn c).isWaiting c = false := by
  unfold doRemoveWaitingConn
  split
  · next hn => rw [isWaiting, hn, Option.any_none]
  next k hc =>
  split
  · rw [isWaiting_congr (refreshConnTick_wait _ c c)]
    obtain ⟨_, _, hf⟩ := foldl_leaveQueue_frame c k.watch.items (e.clearWaiting c)
    rw [hf]
    show (e.conns.modify c _)[c]?.any ConnState.waiting = false
    rw [TreeMap.getElem?_modify_of hc]
    rfl
  · next hw =>
    rw [isWaiting, hc, Option.any_some]
    exact Bool.eq_false_iff.mpr hw

end Engine

end Beanstalkd
