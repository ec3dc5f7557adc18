import Beanstalkd.Engine.Hand

/-!
# Reserve

A reserve joins the wait lists of all tubes the connection watches and dispatches.
Between two calls nobody who waits is offered a job (`Core.not_offered`), so the only
connection that this dispatch can serve is the one that has just joined: it gets its
most urgent job if there is one, and otherwise nothing at all happens.
-/

open Std

namespace Beanstalkd

namespace Engine

variable {e e' : Engine} {c d : ConnId} {k : ConnState} {id : JobId} {j : JobRec} {now : Nanos}
  {o : Bool}

/-! ## What a connection sees -/

/-- A tube that `c` watches has a ready job, paused or not. -/
def SeesReady (e : Engine) (c : ConnId) : Prop :=
  ∃ (i : JobId) (j : JobRec) (k : ConnState), e.jobs[i]? = some j ∧ j.state = .ready ∧
    e.conns[c]? = some k ∧ j.tube ∈ k.watch.items

/-- `c` holds a job that times out within the safety margin. -/
def HoldsDue (e : Engine) (c : ConnId) (now : Nanos) : Prop :=
  ∃ (i : JobId) (j : JobRec), e.jobs[i]? = some j ∧ j.state = .reserved ∧ j.reserver = some c ∧
    j.deadlineAt - safetyMargin ≤ now

theorem isWaiting_iff : e.isWaiting c = true ↔ ∃ k, e.conns[c]? = some k ∧ k.waiting = true := by
  rw [isWaiting]
  cases e.conns[c]? with
  | none => simp
  | some k => simp

/-- A tube with the same pause. -/
theorem halt_some {t : TubeId} {ts : TubeState} (hts : e.tube t = some ts)
    (hh : Slab.view TubeState.halt e'.tubes = Slab.view TubeState.halt e.tubes) :
    ∃ ts', e'.tube t = some ts' ∧ ts'.pause = ts.pause ∧ ts'.unpauseAt = ts.unpauseAt := by
  obtain ⟨ts', hts', hhalt⟩ :=
    Slab.view_eq_some_iff.mp ((congrFun hh t).trans (Slab.view_of_get hts))
  exact ⟨ts', hts', congrArg Prod.fst hhalt, congrArg Prod.snd hhalt⟩

/-- What is offered depends on the job, the watch list and the pause. -/
theorem Offered.of_same (h : Offered e c id j) (hs : Same e e')
    (hh : Slab.view TubeState.halt e'.tubes = Slab.view TubeState.halt e.tubes)
    (hj : e'.jobs[id]? = some j) : Offered e' c id j where
  job := hj
  ready := h.ready
  watched := by
    obtain ⟨k, hk, hmem⟩ := h.watched
    obtain ⟨k', hk', hfix⟩ := hs.conn_some hk
    refine ⟨k', hk', ?_⟩
    rwa [show k'.watch = k.watch from congrArg ConnCore.watch hfix]
  unpaused := by
    obtain ⟨t, ht, hp⟩ := h.unpaused
    obtain ⟨t', ht', hp', -⟩ := halt_some ht hh
    exact ⟨t', ht', hp'.trans hp⟩

theorem Offered.seesReady (h : Offered e c id j) : SeesReady e c := by
  obtain ⟨k, hk, hmem⟩ := h.watched
  exact ⟨id, j, k, h.job, h.ready, hk, hmem⟩

/-- Jobs, watch lists and pauses are the same. -/
structure Alike (e e' : Engine) : Prop where
  same : Same e e'
  halt : Slab.view TubeState.halt e'.tubes = Slab.view TubeState.halt e.tubes
  jobs : e'.jobs = e.jobs

namespace Alike

theorem symm (h : Alike e e') : Alike e' e := ⟨h.same.symm, h.halt.symm, h.jobs.symm⟩

theorem trans {e'' : Engine} (h : Alike e e') (h' : Alike e' e'') : Alike e e'' :=
  ⟨h.same.trans h'.same, h'.halt.trans h.halt, h'.jobs.trans h.jobs⟩

theorem offered (h : Alike e e') (ho : Offered e c id j) : Offered e' c id j :=
  ho.of_same h.same h.halt (h.jobs.symm ▸ ho.job)

theorem offered_iff (h : Alike e e') : Offered e' c id j ↔ Offered e c id j :=
  ⟨h.symm.offered, h.offered⟩

theorem mostUrgent (h : Alike e e') (hm : MostUrgent e' c id) : MostUrgent e c id := by
  obtain ⟨j, ho, hmin⟩ := hm
  exact ⟨j, h.offered_iff.mp ho, fun i' j' ho' => hmin i' j' (h.offered_iff.mpr ho')⟩

theorem holdsDue_iff (h : Alike e e') : HoldsDue e' c now ↔ HoldsDue e c now := by
  unfold HoldsDue
  rw [h.jobs]

theorem seesReady (h : Alike e e') (hs : SeesReady e c) : SeesReady e' c := by
  obtain ⟨i, j, k, hj, hst, hk, hmem⟩ := hs
  obtain ⟨k', hk', hfix⟩ := h.same.conn_some hk
  refine ⟨i, j, k', h.jobs.symm ▸ hj, hst, hk', ?_⟩
  rwa [show k'.watch = k.watch from congrArg ConnCore.watch hfix]

theorem seesReady_iff (h : Alike e e') : SeesReady e' c ↔ SeesReady e c :=
  ⟨h.symm.seesReady, h.seesReady⟩

theorem reservedReply_eq (h : Alike e e') (i : JobId) : e'.reservedReply i = e.reservedReply i := by
  rw [reservedReply, h.jobs, reservedReply]

end Alike

/-- Between two calls, nobody who waits is offered a job. -/
theorem Core.not_offered (h : Core {} e) (hw : e.isWaiting c = true) : ¬Offered e c id j := by
  intro ho
  obtain ⟨k, hk, hkw⟩ := isWaiting_iff.mp hw
  obtain ⟨k', hk', hwatch⟩ := ho.watched
  obtain rfl : k = k' := Option.some.inj (hk.symm.trans hk')
  obtain ⟨ts, hts, hready⟩ := ready_of_job h (by nofun) ho.job ho.ready
  obtain ⟨ts', hts', hpause⟩ := ho.unpaused
  obtain rfl : ts = ts' := Option.some.inj (hts.symm.trans hts')
  have hbusy : ts.busy = true := by
    rw [TubeState.busy, wantsDispatch_of_mem (waits_of_watch h rfl rfl hk hkw hwatch hts) hready,
      hpause]
    rfl
  exact h.calm rfl j.tube ((Slab.view_of_get hts).trans (congrArg some hbusy))

theorem clearExpiredPauses_id (h : Core { owed := o } e)
    (hp : ∀ t ts, e.tube t = some ts → 0 < ts.pause → now < ts.unpauseAt) :
    e.clearExpiredPauses now = e := by
  refine Loop.loop_none ?_
  unfold clearOnePause
  cases hf : TreeMap.first e.pauses with
  | none => rfl
  | some p =>
    obtain ⟨at', t⟩ := p
    have hkey := (h.pauses at' t).mp (TreeMap.first_eq_some_iff.mp hf).1
    rw [Option.join_eq_some_iff] at hkey
    obtain ⟨ts, hts, hpk⟩ := Slab.view_eq_some_iff.mp hkey
    unfold TubeState.pauseKey at hpk
    split at hpk
    · next hpos =>
      cases hpk
      exact if_pos (hp t ts hts hpos)
    · cases hpk

theorem connReady_iff (h : Core { owed := o } e) : e.connReady c = true ↔ SeesReady e c := by
  unfold connReady SeesReady
  cases hk : e.conns[c]? with
  | none => simp
  | some k =>
    simp only [List.any_eq_true, Option.any_eq_true, Bool.not_eq_true',
      TreeMap.isEmpty_eq_false_iff]
    constructor
    · rintro ⟨t, ht, ts, hts, x, hx⟩
      obtain ⟨j, hj, hst, rfl, -⟩ := ready_job h hts hx
      exact ⟨x.2, j, k, hj, hst, rfl, ht⟩
    rintro ⟨i, j, k', hj, hst, hk', hmem⟩
    cases hk'
    obtain ⟨ts, hts, hr⟩ := ready_of_job h (by nofun) hj hst
    exact ⟨j.tube, hmem, ts, hts, _, hr⟩

/-- A job held by a connection is in its deadline index. -/
theorem due_of_job (h : Core { owed := o } e) (hk : e.conns[c]? = some k)
    (hj : e.jobs[id]? = some j) (hst : j.state = .reserved) (hr : j.reserver = some c) :
    (j.deadlineAt, id) ∈ k.reservedByDeadline := by
  obtain ⟨r, hr', hmem⟩ := filed_of_job h (by nofun) hj
    (mem_locs_due.mpr ⟨hst, by rw [hr, Option.getD_some], rfl⟩)
  rw [ExtTreeMap.getElem?_map, hk, Option.map_some, Option.some.injEq] at hr'
  subst hr'
  exact hmem

theorem connDeadlineSoon_iff (h : Core {} e) (hk : e.conns[c]? = some k) :
    e.connDeadlineSoon c now = true ↔ HoldsDue e c now := by
  unfold connDeadlineSoon HoldsDue ConnState.soonestReserved
  rw [hk, Option.bind_some]
  cases hf : TreeMap.first k.reservedByDeadline with
  | none =>
    constructor
    · intro hfalse
      cases hfalse
    · rintro ⟨i, j, hj, hst, hr, -⟩
      exact absurd (due_of_job h hk hj hst hr) (TreeMap.first_eq_none_iff.mp hf _)
  | some x =>
    obtain ⟨dl, i⟩ := x
    obtain ⟨hmem, hmin⟩ := TreeMap.first_eq_some_iff.mp hf
    simp only [decide_eq_true_eq]
    constructor
    · intro hle
      obtain ⟨j, hj, hst, hr, hdl⟩ := reserved_job h hk hmem
      exact ⟨i, j, hj, hst, hr, hdl ▸ hle⟩
    rintro ⟨i', j, hj, hst, hr, hle⟩
    -- the soonest deadline is not after this one
    have hsoon := isLE_pair (hmin _ (due_of_job h hk hj hst hr))
    exact Nat.le_trans (Nat.sub_le_sub_right (by omega) safetyMargin) hle

/-! ## Joining the wait lists -/

/-- Connection `c` waits, and that is all that happened. -/
structure Joined (c : ConnId) (e e' : Engine) : Prop extends Alike e e' where
  waits : e'.isWaiting c = true
  others : ∀ d, d ≠ c → e'.conns[d]? = e.conns[d]?
  out : e'.out = e.out

theorem joinQueue_view {β : Type} {v : TubeState → β} (hv : Indifferent v) (e : Engine)
    (c : ConnId) (t : TubeId) : Slab.view v (joinQueue c e t).tubes = Slab.view v e.tubes := by
  unfold joinQueue
  rw [refreshDispatchable_view fun ts b => hv ts _ _ _ b]
  exact Slab.view_modify fun ts => hv ts _ _ _ _

theorem enqueueWaitingConn_joined (hk : e.conns[c]? = some k) (wd : Option Nanos) :
    Joined c e (e.enqueueWaitingConn c wd) := by
  have hsame := enqueueWaitingConn_same e c wd
  have heq : e.enqueueWaitingConn c wd =
      (k.watch.items.foldl (joinQueue c) (e.setWaiting c wd)).refreshConnTick c := by
    rw [enqueueWaitingConn, hk]
  have hview : Slab.view TubeState.halt
      (k.watch.items.foldl (joinQueue c) (e.setWaiting c wd)).tubes =
        Slab.view TubeState.halt e.tubes :=
    Loop.foldl_inv k.watch.items
      (fun a t _ ha => (joinQueue_view (fun _ _ _ _ _ => rfl) a c t).trans ha) rfl
  obtain ⟨_, _, hf⟩ := foldl_joinQueue_frame c k.watch.items (e.setWaiting c wd)
  obtain ⟨_, _, hf'⟩ := refreshConnTick_frame
    (k.watch.items.foldl (joinQueue c) (e.setWaiting c wd)) c
  rw [heq] at hsame ⊢
  exact {
    waits := by
      rw [isWaiting_congr (refreshConnTick_wait _ c c), hf]
      show (e.conns.modify c _)[c]?.any ConnState.waiting = true
      rw [TreeMap.getElem?_modify_of hk]
      rfl
    others := fun d hd => by
      rw [refreshConnTick_conn hd, hf]
      exact TreeMap.getElem?_modify_ne hd
    jobs := by rw [hf', hf]; rfl
    halt := by rw [hf']; exact hview
    out := by rw [hf', hf]; rfl
    same := hsame }

/-- Nobody but the connection that joined can be served. -/
theorem Joined.hand {x : ConnId × JobId} {e'' : Engine} (h : Core {} e) (hjoin : Joined c e e')
    (hx : Hand now e' x e'') : x.1 = c := by
  by_cases hc : x.1 = c
  · exact hc
  obtain ⟨j, ho, -⟩ := hx.urgent
  have hw : e.isWaiting x.1 = true := by
    rw [isWaiting, ← hjoin.others x.1 hc]
    exact hx.waited
  exact absurd (hjoin.toAlike.offered_iff.mp ho) (h.not_offered hw)

/-- And once it is served, nobody is. -/
theorem Joined.hand_last {x y : ConnId × JobId} {e₂ e₃ : Engine} (h : Core {} e)
    (hjoin : Joined c e e') (hx : Hand now e' x e₂) (hy : Hand now e₂ y e₃) : False := by
  obtain ⟨j, ho, -⟩ := hy.urgent
  have hc : y.1 ≠ x.1 := fun he => by
    have hw := hy.waited
    rw [he, hx.served] at hw
    cases hw
  have hi : y.2 ≠ x.2 := fun he => by
    obtain ⟨j', ho', -⟩ := hx.urgent
    have hj := ho.job
    rw [he, hx.jobs, TreeMap.getElem?_modify_of ho'.job, Option.some.injEq] at hj
    have hst := ho.ready
    rw [← hj] at hst
    cases hst
  have hj : e'.jobs[y.2]? = some j := by
    rw [← ho.job, hx.jobs, TreeMap.getElem?_modify_ne hi]
  have hw : e.isWaiting y.1 = true := by
    have hw := hy.waited
    rwa [isWaiting, hx.others y.1 hc, hjoin.others y.1 (hjoin.hand h hx ▸ hc)] at hw
  exact h.not_offered hw (hjoin.toAlike.offered_iff.mp (ho.of_same hx.same.symm hx.halt.symm hj))

/-- The dispatch of a reserve: the connection gets its most urgent job, or it is
offered none and nothing happens. -/
theorem Joined.dispatch (h : Core {} e) (hjoin : Joined c e e') (h' : Core { owed := true } e')
    (hp : ∀ t ts, e.tube t = some ts → 0 < ts.pause → now < ts.unpauseAt) :
    (∃ i, MostUrgent e c i ∧ Hand now e' (c, i) (e'.processQueue now)) ∨
      (¬∃ i j, Offered e c i j) ∧ e'.processQueue now = e' := by
  have hp' : ∀ t ts, e'.tube t = some ts → 0 < ts.pause → now < ts.unpauseAt := by
    intro t ts hts hpos
    obtain ⟨ts', hts', hpause, hunpause⟩ := halt_some hts hjoin.halt.symm
    exact hunpause ▸ hp t ts' hts' (hpause.symm ▸ hpos)
  have hcalm : Core {} (e'.processQueue now) := processQueue_core h'
  obtain ⟨xs, hrun⟩ := processQueue_hands h' now
  rw [clearExpiredPauses_id h' hp'] at hrun
  generalize e'.processQueue now = e'' at hrun hcalm
  cases hrun with
  | nil =>
    refine .inr ⟨?_, rfl⟩
    rintro ⟨i, j, ho⟩
    exact hcalm.not_offered hjoin.waits (hjoin.toAlike.offered_iff.mpr ho)
  | cons hx hrest =>
    rename_i e₂ x xs
    cases hrest with
    | nil =>
      obtain ⟨d, i⟩ := x
      obtain rfl : d = c := hjoin.hand h hx
      exact .inl ⟨i, hjoin.toAlike.mostUrgent hx.urgent, hx⟩
    | cons hy _ => exact (hjoin.hand_last h hx hy).elim

/-! ## The command -/

/-- What a reserve with this timeout does for connection `c`. -/
structure Reserves (now : Nanos) (c : ConnId) (timeout : Option Nat) (e e' : Engine) : Prop where
  served : (∃ i j, Offered e c i j) →
    ∃ i, MostUrgent e c i ∧ e'.out = e.out ++ e.said c (e.reservedReply i)
  deadlineSoon : (¬∃ i j, Offered e c i j) → HoldsDue e c now →
    ¬SeesReady e c ∨ timeout = some 0 → e'.out = e.out ++ e.said c .deadlineSoon
  timedOut : (¬∃ i j, Offered e c i j) → ¬HoldsDue e c now → timeout = some 0 →
    e'.out = e.out ++ e.said c .timedOut
  /-- It waits in every tube it watches, and nobody else notices. -/
  waits : (¬∃ i j, Offered e c i j) → ¬(HoldsDue e c now ∧ ¬SeesReady e c) → timeout ≠ some 0 →
    e'.out = e.out ∧ e'.isWaiting c = true ∧
    (∀ k, e.conns[c]? = some k → ∀ t ∈ k.watch.items,
      ∃ ts, e'.tube t = some ts ∧ c ∈ ts.waitingConns.items) ∧
    (∀ d, d ≠ c → e'.conns[d]? = e.conns[d]?) ∧ e'.jobs = e.jobs

/-- A connection is marked as a worker, and that is all that happened. -/
structure Marked (c : ConnId) (e e' : Engine) : Prop extends Alike e e' where
  core : Core {} e'
  waiting : e'.isWaiting c = e.isWaiting c
  others : ∀ d, d ≠ c → e'.conns[d]? = e.conns[d]?
  out : e'.out = e.out

/-- A worker that joins the wait lists. -/
theorem Marked.join {e'' : Engine} (h : Marked c e e') (hjoin : Joined c e' e'') :
    Joined c e e'' where
  toAlike := h.toAlike.trans hjoin.toAlike
  waits := hjoin.waits
  others d hd := (hjoin.others d hd).trans (h.others d hd)
  out := hjoin.out.trans h.out

theorem connsetworker_marked (h : Core {} e) (c : ConnId) (f : OpCounts → OpCounts) :
    Marked c e ((e.countOp f).connsetworker c) where
  core := connsetworker_core (countOp_core h)
  same := (countOp_same e f).trans (connsetworker_same _ c)
  waiting := by
    unfold connsetworker
    split
    · exact isWaiting_congr (TreeMap.modify_map e.conns c c fun _ => rfl)
    · rfl
  others d hd := by
    unfold connsetworker
    split
    · exact TreeMap.getElem?_modify_ne hd
    · rfl
  halt := by unfold connsetworker; split <;> rfl
  jobs := by unfold connsetworker; split <;> rfl
  out := by unfold connsetworker; split <;> rfl

theorem cmdReserve_spec {timeout : Option Nat} (h : Core {} e) (hk : e.conns[c]? = some k)
    (hw : e.isWaiting c = false)
    (hp : ∀ t ts, e.tube t = some ts → 0 < ts.pause → now < ts.unpauseAt) :
    Reserves now c timeout e (e.cmdReserve now c timeout) := by
  unfold cmdReserve
  extract_lets e₁ e₂ wd e₃ e₄ soon
  have hm : Marked c e e₂ := connsetworker_marked h c _
  obtain ⟨k₂, hk₂, -⟩ := hm.same.conn_some hk
  have hcond : (e₂.connDeadlineSoon c now && !e₂.connReady c) = true ↔
      HoldsDue e c now ∧ ¬SeesReady e c := by
    rw [Bool.and_eq_true, connDeadlineSoon_iff hm.core hk₂, hm.toAlike.holdsDue_iff,
      Bool.not_eq_true', ← Bool.not_eq_true, connReady_iff hm.core, hm.toAlike.seesReady_iff]
  split
  · next hs =>
    obtain ⟨hdue, hnone⟩ := hcond.mp hs
    exact {
      served := fun ⟨i, j, ho⟩ => absurd ho.seesReady hnone
      deadlineSoon := fun _ _ _ => by rw [reply_out, hm.out, said_same hm.same]
      timedOut := fun _ hnot _ => absurd hdue hnot
      waits := fun _ hnot _ => absurd ⟨hdue, hnone⟩ hnot }
  · next hs =>
    rw [hcond] at hs
    have hk₂w : k₂.waiting = false := by
      have hw₂ := hm.waiting.trans hw
      rwa [isWaiting, hk₂, Option.any_some] at hw₂
    have hjoin : Joined c e e₃ := hm.join (enqueueWaitingConn_joined hk₂ wd)
    have h₃ : Core { owed := true } e₃ := enqueueWaitingConn_core hm.core hk₂ hk₂w
    rcases hjoin.dispatch h h₃ hp with ⟨i, hurg, hhand⟩ | ⟨hnot, heq⟩
    · -- served at once, so it does not wait any more
      have hoff : ∃ i j, Offered e c i j := by
        obtain ⟨j, ho, -⟩ := hurg
        exact ⟨i, j, ho⟩
      have hidle : e₄.isWaiting c = false := hhand.served
      rw [if_neg (by rw [hidle, Bool.and_false]; exact Bool.false_ne_true)]
      exact {
        served := fun _ => ⟨i, hurg, by
          rw [show e₄.out = _ from hhand.out, hjoin.out, said_same hjoin.same,
            hjoin.toAlike.reservedReply_eq]⟩
        deadlineSoon := fun hnot => absurd hoff hnot
        timedOut := fun hnot => absurd hoff hnot
        waits := fun hnot => absurd hoff hnot }
    · have h₄ : Core {} e₄ := processQueue_core h₃
      replace hjoin : Joined c e e₄ := (show e₄ = e₃ from heq) ▸ hjoin
      obtain ⟨k₄, hk₄, hfix⟩ := hjoin.same.conn_some hk
      rw [hjoin.waits, Bool.and_true]
      by_cases ht : timeout = some 0
      · rw [if_pos (beq_iff_eq.mpr ht)]
        have hsoon : soon = true ↔ HoldsDue e c now :=
          (connDeadlineSoon_iff h₄ hk₄).trans hjoin.toAlike.holdsDue_iff
        have hout : (e₄.doRemoveWaitingConn c).out = e.out := by
          obtain ⟨_, _, _, _, _, hf⟩ := doRemoveWaitingConn_frame e₄ c
          rw [hf, ← hjoin.out]
        have hsaid (r : Response) : (e₄.doRemoveWaitingConn c).said c r = e.said c r :=
          said_same (hjoin.same.trans (doRemoveWaitingConn_same e₄ c)) c r
        exact {
          served := fun hoff => absurd hoff hnot
          deadlineSoon := fun _ hdue _ => by
            rw [reply_out, hout, hsaid, if_pos (hsoon.mpr hdue)]
          timedOut := fun _ hdue _ => by
            rw [reply_out, hout, hsaid, if_neg fun hs => hdue (hsoon.mp hs)]
          waits := fun _ _ hne => absurd ht hne }
      · rw [if_neg fun hb => ht (beq_iff_eq.mp hb)]
        have hlists : ∀ k, e.conns[c]? = some k → ∀ t ∈ k.watch.items,
            ∃ ts, e₄.tube t = some ts ∧ c ∈ ts.waitingConns.items := by
          intro k' hk' t ht
          obtain rfl : k = k' := Option.some.inj (hk.symm.trans hk')
          rw [← show k₄.watch = k.watch from congrArg ConnCore.watch hfix] at ht
          obtain ⟨s, hs⟩ := h₄.watched.live (watches_of_conn hk₄) t ht
          obtain ⟨ts, hts, -⟩ := Slab.view_eq_some_iff.mp hs
          have hkw : k₄.waiting = true := by
            have hw₄ := hjoin.waits
            rwa [isWaiting, hk₄, Option.any_some] at hw₄
          exact ⟨ts, hts, waits_of_watch h₄ rfl rfl hk₄ hkw ht hts⟩
        exact {
          served := fun hoff => absurd hoff hnot
          deadlineSoon := fun _ hdue hor => absurd ⟨hdue, hor.resolve_right ht⟩ hs
          timedOut := fun _ _ htz => absurd htz ht
          waits := fun _ _ _ => ⟨hjoin.out, hjoin.waits, hlists, hjoin.others, hjoin.jobs⟩ }

end Engine

end Beanstalkd
