import Beanstalkd.Engine.Urgent

/-!
# The pieces of a tick

Every piece of a tick is `Eased`: it delays and pauses nothing, a job it hands out is due
at `now` at the earliest, and the connection that gets one does not wait any more.

Both the delay loop and the drain of a connection make one job ready and then dispatch,
so both end for the same reason (`readyLoop`): the jobs of the kind they look for, delayed
or overdue, become fewer with every round, and a dispatch makes none.
-/

open Std

namespace Beanstalkd

namespace Engine

variable {e e' e'' : Engine} {c : ConnId} {k : ConnState} {tube : TubeId} {id : JobId} {j : JobRec}
  {now : Nanos} {o : Bool}

/-! ## Pieces of a tick -/

/-- Nothing is delayed, paused or made to wait, and a job handed out is not overdue and
its connection does not wait. -/
structure Eased (now : Nanos) (e e' : Engine) : Prop where
  same : Same e e'
  delayed {i : JobId} {j : JobRec} :
    e'.jobs[i]? = some j → j.state = .delayed → e.jobs[i]? = some j
  paused {t : TubeId} {ts' : TubeState} : e'.tube t = some ts' → 0 < ts'.pause →
    ∃ ts, e.tube t = some ts ∧ ts.halt = ts'.halt
  held {i : JobId} {j : JobRec} : e'.jobs[i]? = some j → j.state = .reserved →
    e.jobs[i]? = some j ∨ now ≤ j.deadlineAt ∧ ∃ d, j.reserver = some d ∧ e'.isWaiting d = false
  waits {c : ConnId} : e'.isWaiting c = true →
    e'.conns[c]?.map ConnState.wait = e.conns[c]?.map ConnState.wait

namespace Eased

theorem refl (now : Nanos) (e : Engine) : Eased now e e where
  same := .refl e
  delayed hj _ := hj
  paused ht _ := ⟨_, ht, rfl⟩
  held hj _ := .inl hj
  waits _ := rfl

/-- Nobody starts to wait. -/
theorem waited (h : Eased now e e') (hc : e'.isWaiting c = true) : e.isWaiting c = true := by
  have hc' := hc
  rw [isWaiting_eq_wait, h.waits hc] at hc'
  rwa [isWaiting_eq_wait]

theorem trans (h : Eased now e e') (h' : Eased now e' e'') : Eased now e e'' where
  same := h.same.trans h'.same
  delayed hj hst := h.delayed (h'.delayed hj hst) hst
  paused ht hp := by
    obtain ⟨ts', ht', heq'⟩ := h'.paused ht hp
    have hpause : 0 < ts'.pause := by
      rw [show ts'.pause = _ from congrArg Prod.fst heq']
      exact hp
    obtain ⟨ts, hts, heq⟩ := h.paused ht' hpause
    exact ⟨ts, hts, heq.trans heq'⟩
  held hj hst := by
    rcases h'.held hj hst with hj' | hnew
    · rcases h.held hj' hst with hj | ⟨hle, d, hr, hd⟩
      · exact .inl hj
      refine .inr ⟨hle, d, hr, Bool.eq_false_iff.mpr fun hw => ?_⟩
      rw [h'.waited hw] at hd
      cases hd
    · exact .inr hnew
  waits hc := (h'.waits hc).trans (h.waits (h'.waited hc))

theorem loop {step : Engine → Option Engine} {P : Engine → Prop}
    (hstep : ∀ a b, P a → step a = some b → P b ∧ Eased now a b) (n : Nat) (h : P e) :
    Eased now e (Loop.loop n step e) :=
  (Loop.loop_rec (R := Eased now) (fun a _ => .refl now a)
    (fun a b ha hab => ⟨(hstep a b ha hab).1, fun _ ht => (hstep a b ha hab).2.trans ht⟩) n h).2

/-- Jobs and connections are untouched, and no tube is paused anew. -/
theorem of_frame (hs : Same e e') (hj : e'.jobs = e.jobs) (hc : e'.conns = e.conns)
    (hp : ∀ t ts', e'.tube t = some ts' → 0 < ts'.pause →
      ∃ ts, e.tube t = some ts ∧ ts.halt = ts'.halt) : Eased now e e' where
  same := hs
  delayed h _ := hj ▸ h
  paused := hp _ _
  held h _ := .inl (hj ▸ h)
  waits _ := by rw [hc]

end Eased

/-- The pauses are the same. -/
theorem paused_of_view (h : Slab.view TubeState.halt e'.tubes = Slab.view TubeState.halt e.tubes)
    {t : TubeId} {ts' : TubeState} (ht : e'.tube t = some ts') :
    ∃ ts, e.tube t = some ts ∧ ts.halt = ts'.halt := by
  have hv : Slab.view TubeState.halt e.tubes t = some ts'.halt := by
    rw [← h]
    exact Slab.view_of_get ht
  exact Slab.view_eq_some_iff.mp hv

theorem le_satAdd {x : Nat} (h : now ≤ u64Max) : now ≤ satAdd now x :=
  Nat.le_min.mpr ⟨Nat.le_add_right .., h⟩

theorem Hand.eased {x : ConnId × JobId} (h : Hand now e x e') (hn : now ≤ u64Max) :
    Eased now e e' where
  same := h.same
  delayed {i j} hj hst := by
    by_cases hi : i = x.2
    · subst hi
      rw [h.jobs, ExtTreeMap.getElem?_modify_self] at hj
      obtain ⟨j₀, -, rfl⟩ := Option.map_eq_some_iff.mp hj
      cases hst
    · rwa [h.jobs, TreeMap.getElem?_modify_ne hi] at hj
  paused ht _ := paused_of_view h.halt ht
  held {i j} hj _ := by
    by_cases hi : i = x.2
    · subst hi
      rw [h.jobs, ExtTreeMap.getElem?_modify_self] at hj
      obtain ⟨j₀, -, rfl⟩ := Option.map_eq_some_iff.mp hj
      exact .inr ⟨le_satAdd hn, x.1, rfl, h.served⟩
    · rw [h.jobs, TreeMap.getElem?_modify_ne hi] at hj
      exact .inl hj
  waits {d} hd := by
    have hne : d ≠ x.1 := fun he => by rw [he, h.served] at hd; cases hd
    rw [h.others d hne]

theorem clearOnePause_eased (hstep : clearOnePause now e = some e') : Eased now e e' := by
  unfold clearOnePause at hstep
  split at hstep
  · cases hstep
  next at' tube hf =>
  split at hstep
  · cases hstep
  cases hstep
  have hs : Same e { e with
      tubes := Slab.modify e.tubes tube fun t => { t with pause := 0 }
      pauses := e.pauses.erase (at', tube) } :=
    { modTube_same e tube (f := fun t => { t with pause := 0 }) fun _ => rfl with }
  refine .of_frame hs rfl rfl fun t ts' ht hp => ?_
  have ht : Slab.get (Slab.modify e.tubes tube fun t => { t with pause := 0 }) t = some ts' :=
    ht
  rw [Slab.get_modify] at ht
  split at ht
  · obtain ⟨ts, -, rfl⟩ := Option.map_eq_some_iff.mp ht
    cases hp
  · exact ⟨ts', ht, rfl⟩

theorem processQueue_eased (h : Core { owed := o } e) (hn : now ≤ u64Max) :
    Eased now e (e.processQueue now) := by
  have hclear : Eased now e (e.clearExpiredPauses now) :=
    Eased.loop (fun a b _ hab => ⟨trivial, clearOnePause_eased hab⟩) _ trivial
  obtain ⟨xs, hrun⟩ := processQueue_hands h now
  exact hrun.inv (fun _ _ _ _ hx hd => hd.trans (hx.eased hn)) hclear

/-- A step that makes job `id` ready, whatever it was. -/
theorem eased_of_ready (hs : Same e e')
    (hh : Slab.view TubeState.halt e'.tubes = Slab.view TubeState.halt e.tubes)
    (hself : ∀ j, e'.jobs[id]? = some j → j.state = .ready)
    (hother : ∀ i, i ≠ id → e'.jobs[i]? = e.jobs[i]?)
    (hw : ∀ c : ConnId, e'.conns[c]?.map ConnState.wait = e.conns[c]?.map ConnState.wait) :
    Eased now e e' where
  same := hs
  delayed {i j} hj hst := by
    by_cases hi : i = id
    · subst hi
      rw [hself j hj] at hst
      cases hst
    · rwa [hother i hi] at hj
  paused ht _ := paused_of_view hh ht
  held {i j} hj hst := by
    by_cases hi : i = id
    · subst hi
      rw [hself j hj] at hst
      cases hst
    · rw [hother i hi] at hj
      exact .inl hj
  waits {c} _ := hw c

theorem insertReady_state (e : Engine) (t : TubeId) {i : JobId} {j : JobRec}
    (h : (e.insertReady t i).jobs[i]? = some j) : j.state = .ready := by
  rw [insertReady_jobs, ExtTreeMap.getElem?_modify_self] at h
  obtain ⟨j₀, -, rfl⟩ := Option.map_eq_some_iff.mp h
  rfl

/-- Job `id`, of the kind `p`, became ready. -/
structure Readied (p : JobRec → Bool) (now : Nanos) (id : JobId) (e e' : Engine) : Prop where
  eased : Eased now e e'
  was : ∃ j, e.jobs[id]? = some j ∧ p j = true
  ready : ∀ j, e'.jobs[id]? = some j → j.state = .ready

/-- The job waits for its delay. -/
def JobRec.isDelayed (j : JobRec) : Bool := j.state == .delayed

/-- The job's reservation is over. -/
def JobRec.isOverdue (now : Nanos) (j : JobRec) : Bool :=
  j.state == .reserved && decide (j.deadlineAt < now)

theorem wake_readied (h : Core {} e) (hstep : wake now e = some e') :
    ∃ id, Readied JobRec.isDelayed now id e e' := by
  have hsame : Same e e' := wake_same hstep
  unfold wake at hstep
  split at hstep
  · cases hstep
  next d tube id hs =>
  split at hstep
  · cases hstep
  cases hstep
  obtain ⟨ts, hts, hf⟩ := soonestDelayedJob_spec hs
  obtain ⟨j, hj, hst, -, -⟩ := delayed_job h hts (TreeMap.first_eq_some_iff.mp hf).1
  have hself : ∀ j, ((e.removeDelayed tube id).insertReady tube id).jobs[id]? = some j →
      j.state = .ready := fun j hj => insertReady_state _ tube hj
  obtain ⟨_, _, _, hf⟩ := removeDelayed_frame e tube id
  have hh : Slab.view TubeState.halt ((e.removeDelayed tube id).insertReady tube id).tubes =
      Slab.view TubeState.halt e.tubes := by
    rw [insertReady_view fun _ _ _ _ _ => rfl, removeDelayed,
      refreshDelayHead_view fun _ _ => rfl]
    exact Slab.view_modify fun _ => rfl
  refine ⟨id, eased_of_ready hsame hh hself
    (fun i hi => ?_) (fun c => ?_), ⟨j, hj, by rw [JobRec.isDelayed, hst]; rfl⟩, hself⟩
  · rw [insertReady_jobs, TreeMap.getElem?_modify_ne hi, hf]
  · rw [insertReady_conns, hf]

theorem doUnreserve_view {β : Type} {v : TubeState → β} (hv : Indifferent v) (e : Engine)
    (c : ConnId) (i : JobId) :
    Slab.view v (e.doUnreserve c i).tubes = Slab.view v e.tubes := by
  unfold doUnreserve
  split
  · obtain ⟨_, _, hf⟩ := refreshConnTick_frame _ c
    rw [hf]
  obtain ⟨_, _, hf⟩ := refreshConnTick_frame _ c
  rw [hf]
  exact Slab.view_modify fun ts => hv ts _ _ _ _

theorem expire_readied (h : Core {} e) (hstep : expire c now e = some e') :
    ∃ id, Readied (JobRec.isOverdue now) now id e e' := by
  have hsame : Same e e' := expire_same hstep
  unfold expire at hstep
  split at hstep
  · cases hstep
  next d id hs =>
  obtain ⟨k, hc, hf⟩ := Option.bind_eq_some_iff.mp hs
  obtain ⟨j, hj, hst, hres, hd⟩ := reserved_job h hc (TreeMap.first_eq_some_iff.mp hf).1
  split at hstep
  · cases hstep
  next hlt =>
  simp only [hj, Option.map_some, Option.some.injEq] at hstep
  generalize he₁ : ({ e.doUnreserve c id with
    timeoutCt := inc64 (e.doUnreserve c id).timeoutCt }.modJob id fun j =>
      { j with timeoutCt := inc32 j.timeoutCt }) = e₁ at hstep
  subst hstep
  have hself : ∀ j', (e₁.insertReady j.tube id).jobs[id]? = some j' → j'.state = .ready :=
    fun j' hj' => insertReady_state _ j.tube hj'
  have hh : Slab.view TubeState.halt (e₁.insertReady j.tube id).tubes =
      Slab.view TubeState.halt e.tubes := by
    rw [insertReady_view fun _ _ _ _ _ => rfl, ← he₁]
    exact doUnreserve_view (fun _ _ _ _ _ => rfl) e c id
  refine ⟨id, eased_of_ready hsame hh hself (fun i hi => ?_) (fun d => ?_),
    ⟨j, hj, ?_⟩, hself⟩
  · rw [insertReady_jobs, TreeMap.getElem?_modify_ne hi, ← he₁]
    show ((e.doUnreserve c id).jobs.modify id _)[i]? = _
    rw [TreeMap.getElem?_modify_ne hi, doUnreserve_jobs, TreeMap.getElem?_modify_ne hi]
  · rw [insertReady_conns, ← he₁]
    exact doUnreserve_wait e c id d
  · rw [JobRec.isOverdue, hst, decide_eq_true (hd ▸ Nat.lt_of_not_le hlt)]
    rfl

/-! ## Loops that make jobs ready -/

/-- A loop whose rounds each make a job of the kind `p` ready and then dispatch: it eases
the engine and ends by itself. -/
theorem readyLoop {p : JobRec → Bool} {point step : Engine → Option Engine}
    (heq : ∀ a, step a = (point a).map fun d => d.processQueue now)
    (hcore : ∀ {a d}, Core {} a → point a = some d → Core { owed := true } d)
    (hpoint : ∀ {a d}, Core {} a → point a = some d → ∃ i, Readied p now i a d)
    (hkeep : ∀ {a b}, Eased now a b → ∀ (i : JobId) (j : JobRec), b.jobs[i]? = some j → p j = true →
      a.jobs[i]? = some j)
    (hready : ∀ j : JobRec, j.state = .ready → p j = false) (hn : now ≤ u64Max) {n : Nat}
    (h : Core {} e) (hfuel : e.jobs.size < n) :
    Core {} (Loop.loop n step e) ∧ Eased now e (Loop.loop n step e) ∧
      step (Loop.loop n step e) = none := by
  have hstep : ∀ a b, Core {} a → step a = some b → Core {} b ∧ Eased now a b ∧
      TreeMap.count (fun _ j => p j) b.jobs < TreeMap.count (fun _ j => p j) a.jobs := by
    intro a b ha hab
    rw [heq] at hab
    obtain ⟨d, hd, rfl⟩ := Option.map_eq_some_iff.mp hab
    have hdc := hcore ha hd
    have hdisp : Eased now d (d.processQueue now) := processQueue_eased hdc hn
    obtain ⟨i, hr⟩ := hpoint ha hd
    have heased : Eased now a (d.processQueue now) := hr.eased.trans hdisp
    obtain ⟨j, hj, hp⟩ := hr.was
    refine ⟨processQueue_core hdc, heased, TreeMap.count_lt hj hp ?_ ?_⟩
    · intro j' hj'
      cases hp' : p j' with
      | false => rfl
      | true =>
        rw [hready j' (hr.ready j' (hkeep hdisp i j' hj' hp'))] at hp'
        cases hp'
    · intro i' j' hj' hp'
      exact ⟨j', hkeep heased i' j' hj' hp', hp'⟩
  refine ⟨Loop.loop_inv (fun a b ha hab => (hstep a b ha hab).1) n h,
    Eased.loop (fun a b ha hab => ⟨(hstep a b ha hab).1, (hstep a b ha hab).2.1⟩) n h,
    Loop.loop_stop (fun a => TreeMap.count (fun _ j => p j) a.jobs)
      (fun a b ha hab => ⟨(hstep a b ha hab).1, (hstep a b ha hab).2.2⟩) n h ?_⟩
  exact Nat.lt_of_le_of_lt TreeMap.count_le_size hfuel

theorem wakeAll_ends (h : Core {} e) (hn : now ≤ u64Max) :
    Core {} (Loop.loop (e.jobs.size + 1) (wakeOne now) e) ∧
      Eased now e (Loop.loop (e.jobs.size + 1) (wakeOne now) e) ∧
      wakeOne now (Loop.loop (e.jobs.size + 1) (wakeOne now) e) = none := by
  refine readyLoop
    (fun a => wakeOne_eq now a) wake_core wake_readied ?_ ?_ hn
    h (Nat.lt_succ_self _)
  · intro a b hab i j hj hp
    exact hab.delayed hj (beq_iff_eq.mp hp)
  intro j hj
  rw [JobRec.isDelayed, hj]
  rfl

theorem drain_ends (c : ConnId) (h : Core {} e) (hn : now ≤ u64Max) :
    Core {} (Loop.loop (e.jobs.size + 2) (expireOne c now) e) ∧
      Eased now e (Loop.loop (e.jobs.size + 2) (expireOne c now) e) ∧
      expireOne c now (Loop.loop (e.jobs.size + 2) (expireOne c now) e) = none := by
  refine readyLoop (fun a => expireOne_eq c now a) expire_core
    expire_readied ?_ ?_ hn h (Nat.lt_succ_of_lt (Nat.lt_succ_self _))
  · intro a b hab i j hj hp
    rw [JobRec.isOverdue, Bool.and_eq_true, beq_iff_eq, decide_eq_true_eq] at hp
    rcases hab.held hj hp.1 with hj' | ⟨hle, -⟩
    · exact hj'
    · exact absurd hp.2 (Nat.not_lt.mpr hle)
  · intro j hj
    rw [JobRec.isOverdue, hj]
    rfl

end Engine

end Beanstalkd
