import Beanstalkd.Engine.Waiting

/-!
# Dispatch keeps the invariant, and pays what is owed

`process_queue` first clears the pauses that have expired, then hands ready
jobs to waiters until nothing is left to hand out. The first part may leave a
dispatch owed and the second pays it off: whatever was owed before,
`processQueue_core` ends with nothing owed. That needs the loop to run to its
own end, so the fuel is shown to suffice: every round takes one job out of the
ready sets, and there are at most as many rounds as jobs.
-/

open Std

namespace Beanstalkd

namespace Engine

variable {e e' : Engine} {now : Nanos} {tube : TubeId} {id : JobId} {pri : Nat} {o : Bool}
  {s : Slack} {ts : TubeState} {c : ConnId}

/-- Owing more is always possible. -/
theorem Core.owe {limbo : Option JobId} (h : Core { limbo := limbo, owed := o } e) :
    Core { limbo := limbo, owed := true } e :=
  { h with calm := nofun }

/-! ## Pauses -/

theorem clearOnePause_core (h : Core { owed := true } e) (hstep : clearOnePause now e = some e') :
    Core { owed := true } e' := by
  unfold clearOnePause at hstep
  cases hp : TreeMap.first e.pauses with
  | none => simp [hp] at hstep
  | some p =>
    obtain ⟨at', tube⟩ := p
    simp only [hp] at hstep
    split at hstep
    · cases hstep
    cases hstep
    have hmem : (at', tube) ∈ e.pauses := (TreeMap.first_eq_some_iff.mp hp).1
    have hkey := (h.pauses at' tube).mp hmem
    have hpauses : PausesOk (Slab.view TubeState.pauseKey (Slab.modify e.tubes tube
        fun t => { t with pause := 0 })) (e.pauses.erase (at', tube)) := by
      show Index.Of _ (Index.rekey e.pauses tube (some at') none)
      refine Index.Of.rekey h.pauses hkey ?_ fun u hu => congrArg _ (Slab.view_modify_ne hu)
      rw [Slab.view, Slab.get_modify_self]
      cases Slab.get e.tubes tube <;> rfl
    exact h.retube (fun _ => rfl) hpauses fun hcalm => by cases hcalm

theorem clearExpiredPauses_core (h : Core { owed := true } e) :
    Core { owed := true } (e.clearExpiredPauses now) :=
  Loop.loop_inv (fun _ _ h hs => clearOnePause_core h hs) _ h

/-! ## The best ready job -/

/-- What a tube offers is a ready job of that tube, and the tube is not paused. -/
theorem offer_eq_some_iff {x : Nat × JobId × TubeId} :
    e.offer tube = some x ↔ ∃ ts, Slab.get e.tubes tube = some ts ∧ ts.pause = 0 ∧
      x.2.2 = tube ∧ TreeMap.first ts.ready = some (x.1, x.2.1) := by
  obtain ⟨pri, id, t⟩ := x
  unfold offer Engine.tube
  cases ht : Slab.get e.tubes tube with
  | none => simp
  | some ts =>
    by_cases hp : 0 < ts.pause
    · have : ts.pause ≠ 0 := Nat.ne_of_gt hp
      simp [hp, this]
    have hz : ts.pause = 0 := Nat.eq_zero_of_not_pos hp
    simp only [if_neg hp, Option.map_eq_some_iff, Prod.mk.injEq, Option.some.injEq]
    constructor
    · rintro ⟨⟨pri', id'⟩, hf, rfl, rfl, rfl⟩
      exact ⟨ts, rfl, hz, rfl, hf⟩
    · rintro ⟨_, rfl, -, rfl, hf⟩
      exact ⟨(pri, id), hf, rfl, rfl, rfl⟩

theorem bestReady_offer (h : e.bestReady = some (pri, id, tube)) :
    tube ∈ e.dispatchable ∧ ∃ ts, Slab.get e.tubes tube = some ts ∧ ts.pause = 0 ∧
      TreeMap.first ts.ready = some (pri, id) := by
  obtain ⟨t, ht, hoff⟩ := List.mem_filterMap.mp (Best.first_some h).1
  obtain ⟨ts, hget, hp, rfl, hf⟩ := offer_eq_some_iff.mp hoff
  exact ⟨ExtTreeSet.mem_toList.mp ht, ts, hget, hp, hf⟩

/-- The record of a job in a ready set. -/
theorem ready_job (h : Core s e) (ht : Slab.get e.tubes tube = some ts) (hr : (pri, id) ∈ ts.ready)
    : ∃ j, e.jobs[id]? = some j ∧ j.state = .ready ∧ j.tube = tube ∧ j.pri = pri := by
  obtain ⟨j, hj, hl⟩ := job_of_filed (l := .ready tube pri) h ⟨ts.queues, Slab.view_of_get ht, hr⟩
  exact ⟨j, hj, mem_locs_ready.mp hl⟩

/-- A tube in the index has waiters. -/
theorem dispatchable_waiters (h : Core { s with disp := none } e) (hd : tube ∈ e.dispatchable)
    (ht : Slab.get e.tubes tube = some ts) : ts.wantsDispatch = true := by
  have hm := (h.disp.index tube).mp hd
  have hv : Slab.view TubeState.disp e.tubes tube = some ts.disp := Slab.view_of_get ht
  rw [hv] at hm
  have := h.disp.fresh tube _ hv (by simp)
  exact this.trans hm

/-- A tube with waiters and ready jobs is in the index. -/
theorem dispatchable_of_wants (h : Core { s with disp := none } e)
    (ht : Slab.get e.tubes tube = some ts) (hw : ts.wantsDispatch = true) :
    tube ∈ e.dispatchable := by
  have hv : Slab.view TubeState.disp e.tubes tube = some ts.disp := Slab.view_of_get ht
  rw [h.disp.index, hv]
  exact (h.disp.fresh tube _ hv (by simp)).symm.trans hw

/-- The best ready job comes before every ready job that could be handed out. -/
theorem bestReady_le {t : TubeId} {x : Nat × JobId} (h : Core { s with disp := none } e)
    (hb : e.bestReady = some (pri, id, tube)) (ht : Slab.get e.tubes t = some ts)
    (hw : ts.wantsDispatch = true) (hp : ts.pause = 0) (hx : x ∈ ts.ready) :
    (compare (pri, id) x).isLE := by
  obtain ⟨y, hy⟩ : ∃ y, TreeMap.first ts.ready = some y := by
    cases hf : TreeMap.first ts.ready with
    | none => exact absurd hx (TreeMap.first_eq_none_iff.mp hf x)
    | some y => exact ⟨y, rfl⟩
  have hoffer : e.offer t = some (y.1, y.2, t) := offer_eq_some_iff.mpr ⟨ts, ht, hp, rfl, hy⟩
  have hin : (y.1, y.2, t) ∈ e.dispatchable.toList.filterMap e.offer :=
    List.mem_filterMap.mpr
      ⟨t, ExtTreeSet.mem_toList.mpr (dispatchable_of_wants h ht hw), hoffer⟩
  exact TransOrd.isLE_trans ((Best.first_some hb).2 _ hin)
    ((TreeMap.first_eq_some_iff.mp hy).2 x hx)

/-- With no best ready job, nothing is owed. -/
theorem calm_of_bestReady (h : Core { owed := true } e) (hb : e.bestReady = none) : Core {} e := by
  have hcalm : Calm false (Slab.view TubeState.busy e.tubes) := by
    intro _ t hbusy
    obtain ⟨ts, ht, hbt⟩ := Slab.view_eq_some_iff.mp hbusy
    simp only [TubeState.busy, Bool.and_eq_true, beq_iff_eq] at hbt
    have hmark : t ∈ e.dispatchable := dispatchable_of_wants (s := { owed := true }) h ht hbt.1
    have hready : ts.ready.isEmpty = false := by
      have := hbt.1
      simp only [TubeState.wantsDispatch, Bool.and_eq_true, Bool.not_eq_true'] at this
      exact this.2
    have hoffer : ∃ x, e.offer t = some x := by
      cases hf : TreeMap.first ts.ready with
      | none =>
        have : ts.ready = ∅ :=
          ExtTreeSet.eq_empty_iff_forall_not_mem.mpr (TreeMap.first_eq_none_iff.mp hf)
        rw [this] at hready
        simp at hready
      | some p => exact ⟨(p.1, p.2, t), offer_eq_some_iff.mpr ⟨ts, ht, hbt.2, rfl, hf⟩⟩
    obtain ⟨x, hx⟩ := hoffer
    have hnil := Best.first_eq_none_iff.mp hb
    have hin : x ∈ e.dispatchable.toList.filterMap e.offer :=
      List.mem_filterMap.mpr ⟨t, ExtTreeSet.mem_toList.mpr hmark, hx⟩
    rw [hnil] at hin
    cases hin
  exact { h with calm := hcalm }

/-! ## One round -/

/-- What a round does: the best job goes to a connection waiting on its tube,
and just before it is handed over only the job is in limbo. -/
theorem dispatchOne_spec (now : Nanos) (h : Core { owed := true } e)
    (hb : e.bestReady = some (pri, id, tube)) :
    ∃ c e₁, WaitsOn e.waitQueues c tube ∧
      (e.removeReady tube id).takeWaiter tube = (some c, e₁) ∧
      dispatchOne now e =
        some ((((e₁.refreshDispatchable tube).doRemoveWaitingConn c).doReserve c id now).reply c
          ((((e₁.refreshDispatchable tube).doRemoveWaitingConn c).doReserve c id now).reservedReply
            id)) ∧
      Core { limbo := some id, owed := true }
        ((e₁.refreshDispatchable tube).doRemoveWaitingConn c) := by
  obtain ⟨hd, ts, ht, -, hf⟩ := bestReady_offer hb
  obtain ⟨j, hj, hst, htube, -⟩ := ready_job h ht (TreeMap.first_eq_some_iff.mp hf).1
  have h₁ := removeReady_core h hj hst htube
  obtain ⟨_, _, _, hframe⟩ := removeReady_frame e tube id
  have hq : (e.removeReady tube id).waitQueues = e.waitQueues := by rw [hframe]; rfl
  -- removing the job leaves the tube's wait list as it was
  obtain ⟨ts', ht', hw'⟩ : ∃ ts', Slab.get (e.removeReady tube id).tubes tube = some ts' ∧
      ts'.waits = ts.waits := by
    rw [← Slab.view_eq_some_iff, removeReady_waits]
    exact Slab.view_of_get ht
  have hne : ts'.waitingConns.items.isEmpty = false := by
    have hwant := dispatchable_waiters (s := { owed := true }) h hd ht
    simp only [TubeState.wantsDispatch, Bool.and_eq_true, Bool.not_eq_true'] at hwant
    rw [show ts'.waitingConns.items = ts.waitingConns.items from congrArg Prod.fst hw']
    exact hwant.1
  obtain ⟨c, e₁, htake, hwaits, hconns, -, h₂⟩ := takeWaiter_core h₁ ht' hne
  have h₃ := refreshDispatchable_core
    (s := { limbo := some id, early := some (tube, c), owed := true }) h₂
  have hq₁ : (e₁.refreshDispatchable tube).waitQueues = (e.removeReady tube id).waitQueues := by
    obtain ⟨_, _, hf⟩ := refreshDispatchable_frame e₁ tube
    rw [hf, waitQueues, waitQueues]
    simp only [hconns]
  refine ⟨c, e₁, hq ▸ hwaits, htake, ?_, ?_⟩
  · unfold dispatchOne
    simp only [hb, htake]
  refine doRemoveWaitingConn_core h₃ fun x hx => ?_
  cases hx
  exact ⟨rfl, hq₁ ▸ hwaits⟩

/-- A connection that waits is connected. -/
theorem conn_of_waitsOn (h : WaitsOn e.waitQueues c tube) :
    ∃ k, e.conns[c]? = some k ∧ k.waiting = true := by
  obtain ⟨l, hl, hmem⟩ := h
  obtain ⟨k, hk, rfl⟩ := TreeMap.map_eq_some_iff.mp hl
  refine ⟨k, hk, ?_⟩
  cases hw : k.waiting with
  | true => rfl
  | false =>
    rw [ConnState.queue, hw, if_neg (by simp)] at hmem
    cases hmem

theorem reply_core {r : Response} (h : Core s e) : Core s (e.reply c r) := by
  obtain ⟨_, hf⟩ := reply_frame e c r
  rw [hf]
  exact { h with }

/-- Up to the reservation, a round only takes a waiter off its lists. -/
theorem unqueued_same {e₁ : Engine} (htake : (e.removeReady tube id).takeWaiter tube = (some c, e₁))
    : Same e ((e₁.refreshDispatchable tube).doRemoveWaitingConn c) := by
  have h₀ := (removeReady_same e tube id).trans (takeWaiter_same _ tube)
  rw [htake] at h₀
  exact (h₀.trans (refreshDispatchable_same _ tube)).trans (doRemoveWaitingConn_same _ c)

/-- A round keeps the invariant and takes one job out of the ready sets. -/
theorem dispatchOne_core (h : Core { owed := true } e) (hstep : dispatchOne now e = some e') :
    Core { owed := true } e' ∧ e'.readyCt < e.readyCt := by
  cases hb : e.bestReady with
  | none => simp [dispatchOne, hb] at hstep
  | some x =>
    obtain ⟨pri, id, tube⟩ := x
    obtain ⟨hd, ts, ht, -, hf⟩ := bestReady_offer hb
    obtain ⟨j, hj, hst, htube, -⟩ := ready_job h ht (TreeMap.first_eq_some_iff.mp hf).1
    obtain ⟨c, e₁, hwaits, htake, heq, h₁⟩ := dispatchOne_spec now h hb
    rw [heq, Option.some.injEq] at hstep
    subst hstep
    have hsame := unqueued_same htake
    obtain ⟨k, hk, -⟩ := conn_of_waitsOn hwaits
    obtain ⟨j', hj', -⟩ := hsame.job_some hj
    obtain ⟨k', hk', -⟩ := hsame.conn_some hk
    refine ⟨reply_core (doReserve_core h₁ hj' hk'), ?_⟩
    have hpos : 0 < e.readyCt := by
      have ht : e.readyCt = (tallyOf (places none e.jobs)).ready :=
        congrArg Tally.ready h.placed.tally
      rw [ht]
      refine TreeMap.count_pos_iff.mpr ⟨id, j.place, place_of_job hj, ?_⟩
      rw [JobRec.place, hst]
      rfl
    obtain ⟨_, _, _, hf₁⟩ := removeReady_frame e tube id
    obtain ⟨_, hf₂⟩ := takeWaiter_frame (e.removeReady tube id) tube
    rw [htake] at hf₂
    obtain ⟨_, _, hf₃⟩ := refreshDispatchable_frame e₁ tube
    obtain ⟨_, _, _, _, _, hf₄⟩ := doRemoveWaitingConn_frame (e₁.refreshDispatchable tube) c
    obtain ⟨_, _, _, _, _, _, hf₅⟩ :=
      doReserve_frame ((e₁.refreshDispatchable tube).doRemoveWaitingConn c) c id now
    obtain ⟨_, hf₆⟩ := reply_frame
      (((e₁.refreshDispatchable tube).doRemoveWaitingConn c).doReserve c id now) c
      ((((e₁.refreshDispatchable tube).doRemoveWaitingConn c).doReserve c id now).reservedReply id)
    rw [hf₆, hf₅, hf₄, hf₃]
    simp only at hf₂ ⊢
    rw [hf₂, hf₁]
    show e.readyCt - 1 < e.readyCt
    omega

/-! ## The loop -/

/-- There are at most as many ready jobs as jobs. -/
theorem readyCt_le (h : Core { owed := o } e) : e.readyCt ≤ e.jobs.size := by
  have ht : e.readyCt = (tallyOf (places none e.jobs)).ready :=
    congrArg Tally.ready h.placed.tally
  have hc : (tallyOf (places none e.jobs)).ready =
      TreeMap.count (fun _ j => (JobRec.place j).isReady) e.jobs := by
    refine TreeMap.count_congr fun i => ?_
    rw [places_none]
    cases e.jobs[i]? <;> rfl
  rw [ht, hc]
  exact TreeMap.count_le_size

/-- The dispatch loop runs to its own end. -/
theorem dispatch_done {n : Nat} (h : Core { owed := true } e) (hn : e.jobs.size < n) :
    (Loop.loop n (dispatchOne now) e).bestReady = none := by
  have hstop : dispatchOne now (Loop.loop n (dispatchOne now) e) = none :=
    Loop.loop_stop Engine.readyCt (fun _ _ => dispatchOne_core) n h
      (Nat.lt_of_le_of_lt (readyCt_le h) hn)
  have hcore : Core { owed := true } (Loop.loop n (dispatchOne now) e) :=
    Loop.loop_inv (fun _ _ h hs => (dispatchOne_core h hs).1) n h
  cases hb : (Loop.loop n (dispatchOne now) e).bestReady with
  | none => rfl
  | some x =>
    obtain ⟨_, _, _, _, heq, _⟩ := dispatchOne_spec now hcore hb
    rw [heq] at hstop
    cases hstop

/-- `process_queue` keeps the invariant and leaves nothing to hand out. -/
theorem processQueue_core (h : Core { owed := o } e) : Core {} (e.processQueue now) := by
  have h₁ : Core { owed := true } (e.clearExpiredPauses now) := clearExpiredPauses_core h.owe
  have hsize := (clearExpiredPauses_same e now).jobs_size
  exact calm_of_bestReady (Loop.loop_inv (fun _ _ h hs => (dispatchOne_core h hs).1) _ h₁)
    (dispatch_done h₁ (by omega))

end Engine

end Beanstalkd
