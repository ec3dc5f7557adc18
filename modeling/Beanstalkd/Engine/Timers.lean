import Beanstalkd.Engine.Steps

/-!
# Timers keep the invariant

`tick` runs three loops: delayed jobs become ready, expired pauses end, and the
connections that are due are looked at, each at most once. Each loop body keeps
`Core` and is `Same`, so the loops do and `tick` does.

The loops of the source have no bound. That the fuel of the model suffices is
proved for each: waking takes a job out of the delayed sets, a connection that
is due is not looked at twice, and the drain of `conn_timeout` lowers the
connection's *load*, the jobs it holds plus the one it waits for.
-/

open Std

namespace Beanstalkd

namespace Engine

variable {e e' : Engine} {c : ConnId} {k : ConnState} {tube : TubeId} {id : JobId} {j : JobRec}
  {now : Nanos} {o : Bool} {s : Slack}

/-! ## Delayed jobs -/

theorem soonestDelayedJob_spec {d : Nanos} (h : e.soonestDelayedJob = some (d, tube, id)) :
    ∃ ts, Slab.get e.tubes tube = some ts ∧ TreeMap.first ts.delayed = some (d, id) := by
  unfold soonestDelayedJob at h
  split at h
  · cases h
  simp only at h
  split at h
  · cases h
  obtain ⟨⟨d', id'⟩, hb, heq⟩ := Option.map_eq_some_iff.mp h
  cases heq
  obtain ⟨ts, hts, hf⟩ := Option.bind_eq_some_iff.mp hb
  exact ⟨ts, hts, hf⟩

/-- A round of the delay loop up to its dispatch. -/
def wake (now : Nanos) (e : Engine) : Option Engine :=
  match e.soonestDelayedJob with
  | none => none
  | some (deadline, tube, id) =>
    if deadline > now then none else some ((e.removeDelayed tube id).insertReady tube id)

theorem wakeOne_eq (now : Nanos) (e : Engine) :
    wakeOne now e = (wake now e).map fun e => e.processQueue now := by
  unfold wakeOne wake
  cases e.soonestDelayedJob with
  | none => rfl
  | some x =>
    simp only
    split <;> rfl

theorem wake_core (h : Core {} e) (hstep : wake now e = some e') : Core { owed := true } e' := by
  unfold wake at hstep
  split at hstep
  · cases hstep
  next d tube id hs =>
  split at hstep
  · cases hstep
  cases hstep
  obtain ⟨ts, hts, hf⟩ := soonestDelayedJob_spec hs
  obtain ⟨j, hj, hst, ht, -⟩ := delayed_job h hts (TreeMap.first_eq_some_iff.mp hf).1
  obtain ⟨j', hj', hfix⟩ := (removeDelayed_same e tube id).job_some hj
  exact insertReady_core (removeDelayed_core h hj hst ht) hj'
    ((congrArg JobCore.tube hfix).trans ht)

theorem wakeOne_core (h : Core {} e) (hstep : wakeOne now e = some e') : Core {} e' := by
  rw [wakeOne_eq] at hstep
  obtain ⟨e₁, he, rfl⟩ := Option.map_eq_some_iff.mp hstep
  exact processQueue_core (wake_core h he)

theorem wake_same (hstep : wake now e = some e') : Same e e' := by
  unfold wake at hstep
  split at hstep
  · cases hstep
  split at hstep
  · cases hstep
  · cases hstep
    exact (removeDelayed_same e _ _).trans (insertReady_same _ _ _)

theorem wakeOne_same (hstep : wakeOne now e = some e') : Same e e' := by
  rw [wakeOne_eq] at hstep
  obtain ⟨e₁, he, rfl⟩ := Option.map_eq_some_iff.mp hstep
  exact (wake_same he).trans (processQueue_same e₁ now)

/-! ## One connection -/

/-- A job in a connection's deadline index is reserved by it. -/
theorem reserved_job {d : Nanos} (h : Core {} e) (hc : e.conns[c]? = some k)
    (hd : (d, id) ∈ k.reservedByDeadline) :
    ∃ j, e.jobs[id]? = some j ∧ j.state = .reserved ∧ j.reserver = some c ∧ j.deadlineAt = d := by
  have hr : (e.conns.map fun _ k => ConnState.resv k)[c]? = some k.resv := TreeMap.map_of hc
  obtain ⟨j, hj, hl⟩ := job_of_filed (l := .due c d) h ⟨k.resv, hr, hd⟩
  obtain ⟨hst, hc', hdl⟩ := mem_locs_due.mp hl
  obtain ⟨c', hr'⟩ := Option.isSome_iff_exists.mp (((h.jobs id j hj).holder nofun).mpr hst)
  rw [hr'] at hc'
  exact ⟨j, hj, hst, hr'.trans (congrArg some hc'), hdl⟩

/-- A round of the drain in `conn_timeout` up to its dispatch. -/
def expire (cid : ConnId) (now : Nanos) (e : Engine) : Option Engine :=
  match e.conns[cid]?.bind ConnState.soonestReserved with
  | none => none
  | some (deadline, id) =>
    if deadline ≥ now then none
    else
      let tube := e.jobs[id]?.map JobRec.tube
      let e := e.doUnreserve cid id
      let e := { e with timeoutCt := inc64 e.timeoutCt }
      let e := e.modJob id fun j => { j with timeoutCt := inc32 j.timeoutCt }
      some (match tube with
        | some t => e.insertReady t id
        | none => e)

theorem expireOne_eq (c : ConnId) (now : Nanos) (e : Engine) :
    expireOne c now e = (expire c now e).map fun e => e.processQueue now := by
  unfold expireOne expire
  cases e.conns[c]?.bind ConnState.soonestReserved with
  | none => rfl
  | some x =>
    simp only
    split <;> rfl

theorem expire_core (h : Core {} e) (hstep : expire c now e = some e') :
    Core { owed := true } e' := by
  unfold expire at hstep
  split at hstep
  · cases hstep
  next d id hs =>
  obtain ⟨k, hc, hf⟩ := Option.bind_eq_some_iff.mp hs
  obtain ⟨j, hj, hst, hres, -⟩ := reserved_job h hc (TreeMap.first_eq_some_iff.mp hf).1
  split at hstep
  · cases hstep
  simp only [hj, Option.map_some, Option.some.injEq] at hstep
  subst hstep
  have h₁ := doUnreserve_core h hj hst hres
  have h₂ : Core { limbo := some id }
      { e.doUnreserve c id with timeoutCt := inc64 (e.doUnreserve c id).timeoutCt } :=
    { h₁ with }
  obtain ⟨j', hj', hfix⟩ := ((doUnreserve_same e c id).trans
    (modJob_same _ id (f := fun j => { j with timeoutCt := inc32 j.timeoutCt })
      fun _ => rfl)).job_some hj
  exact insertReady_core (modJob_core h₂ fun _ => rfl) hj' (congrArg JobCore.tube hfix)

theorem expireOne_core (h : Core {} e) (hstep : expireOne c now e = some e') : Core {} e' := by
  rw [expireOne_eq] at hstep
  obtain ⟨e₁, he, rfl⟩ := Option.map_eq_some_iff.mp hstep
  exact processQueue_core (expire_core h he)

theorem expire_same (hstep : expire c now e = some e') : Same e e' := by
  unfold expire at hstep
  split at hstep
  · cases hstep
  next d id hs =>
  split at hstep
  · cases hstep
  simp only [Option.some.injEq] at hstep
  subst hstep
  have h₁ : Same e ({ e.doUnreserve c id with
      timeoutCt := inc64 (e.doUnreserve c id).timeoutCt }.modJob id fun j =>
        { j with timeoutCt := inc32 j.timeoutCt }) := by
    refine Same.trans ?_ (modJob_same _ id fun _ => rfl)
    exact { doUnreserve_same e c id with }
  split
  · exact h₁.trans (insertReady_same _ _ id)
  · exact h₁

theorem expireOne_same (hstep : expireOne c now e = some e') : Same e e' := by
  rw [expireOne_eq] at hstep
  obtain ⟨e₁, he, rfl⟩ := Option.map_eq_some_iff.mp hstep
  exact (expire_same he).trans (processQueue_same e₁ now)

theorem connTimeout_core (h : Core {} e) : Core {} (e.connTimeout c now) := by
  unfold connTimeout
  simp only
  have h₁ : Core {} (Loop.loop (e.jobs.size + 2) (expireOne c now) e) :=
    Loop.loop_inv (fun _ _ h hs => expireOne_core h hs) _ h
  split
  · exact reply_core (stopWaiting_core h₁)
  split
  · exact reply_core (stopWaiting_core h₁)
  · exact h₁

theorem connTimeout_same (e : Engine) (c : ConnId) (now : Nanos) :
    Same e (e.connTimeout c now) := by
  unfold connTimeout
  simp only
  have h₁ : Same e (Loop.loop (e.jobs.size + 2) (expireOne c now) e) :=
    Same.loop (fun _ _ hs => expireOne_same hs) _ e
  split
  · exact (h₁.trans (doRemoveWaitingConn_same _ c)).trans (reply_same _ c _)
  split
  · exact (h₁.trans (doRemoveWaitingConn_same _ c)).trans (reply_same _ c _)
  · exact h₁

/-! ## The tick -/

theorem timeoutOne_core {s s' : Engine × ExtTreeSet ConnId} (h : Core {} s.1)
    (hstep : timeoutOne now s = some s') : Core {} s'.1 := by
  unfold timeoutOne at hstep
  split at hstep
  · cases hstep
  · cases hstep
    exact connTimeout_core h

theorem timeoutOne_same {s s' : Engine × ExtTreeSet ConnId} (hstep : timeoutOne now s = some s') :
    Same s.1 s'.1 := by
  unfold timeoutOne at hstep
  split at hstep
  · cases hstep
  · cases hstep
    exact connTimeout_same _ _ now

theorem tick_core (h : Core {} e) : Core {} (e.tick now) := by
  unfold tick
  split
  · have h₁ : Core {} (Loop.loop (e.jobs.size + 1) (wakeOne now) e) :=
      Loop.loop_inv (fun _ _ h hs => wakeOne_core h hs) _ h
    refine Loop.loop_inv
      (fun _ _ h hs => timeoutOne_core h hs) _ ?_
    split
    · exact processQueue_core h₁
    · exact h₁
  · exact h

theorem tick_same (e : Engine) (now : Nanos) : Same e (e.tick now) := by
  unfold tick
  split
  · have h₁ : Same e (Loop.loop (e.jobs.size + 1) (wakeOne now) e) :=
      Same.loop (fun _ _ hs => wakeOne_same hs) _ e
    refine Loop.loop_inv (P := fun s : Engine × ExtTreeSet ConnId => Same e s.1)
      (fun _ _ h hs => h.trans (timeoutOne_same hs)) _ ?_
    split
    · exact h₁.trans (processQueue_same _ now)
    · exact h₁
  · exact .refl e

end Engine

end Beanstalkd
