import Beanstalkd.Engine.Eased

/-!
# The tick is complete and idempotent

`tick` wakes the delayed jobs whose time has come, ends the pauses that have expired and
gives each connection that is due one turn. What a connection's turn achieves, the later
turns do not undo, because they are `Eased`; and each turn leaves one connection less
without one, so the turns end.

What is left after a tick has nothing for a second tick to do, with one exception that
changes nothing: a reservation that ends exactly at `now` is due but not over.
-/

open Std

namespace Beanstalkd

namespace Engine

variable {e e' : Engine} {c : ConnId} {k : ConnState} {id : JobId} {j : JobRec} {now : Nanos}
  {o : Bool} {processed : ExtTreeSet ConnId}

/-! ## What the indexes say -/

/-- An index that has an entry has a first one, whose key is no greater. -/
theorem exists_first {s : ExtTreeSet (Nat × Nat)} {d i : Nat} (hmem : (d, i) ∈ s) :
    ∃ d' i', TreeMap.first s = some (d', i') ∧ d' ≤ d := by
  cases hf : TreeMap.first s with
  | none => exact absurd hmem (TreeMap.first_eq_none_iff.mp hf _)
  | some x =>
    refine ⟨x.1, x.2, rfl, ?_⟩
    rcases isLE_pair ((TreeMap.first_eq_some_iff.mp hf).2 _ hmem) with hlt | ⟨heq, -⟩
    · exact Nat.le_of_lt hlt
    · exact Nat.le_of_eq heq

/-- A delayed job is in its tube's set. -/
theorem delayed_filed (h : Core {} e) (hj : e.jobs[id]? = some j) (hst : j.state = .delayed) :
    ∃ ts, Slab.get e.tubes j.tube = some ts ∧ (j.deadlineAt, id) ∈ ts.delayed := by
  obtain ⟨q, hq, hmem⟩ := filed_of_job h (by nofun) hj (mem_locs_delayed.mpr ⟨hst, rfl, rfl⟩)
  obtain ⟨ts, hts, rfl⟩ := Slab.view_eq_some_iff.mp hq
  exact ⟨ts, hts, hmem⟩

/-- The index of delay heads holds the first deadline of every tube. -/
theorem mem_delayHeads (h : Core {} e) {d : Nanos} {t : TubeId} :
    (d, t) ∈ e.delayHeads ↔
      ∃ ts i, Slab.get e.tubes t = some ts ∧ TreeMap.first ts.delayed = some (d, i) := by
  rw [h.heads.index d t]
  constructor
  · intro hk
    obtain ⟨p, hp, hsnd⟩ := Option.bind_eq_some_iff.mp hk
    have hfresh := h.heads.fresh t p hp nofun
    obtain ⟨ts, hts, rfl⟩ := Slab.view_eq_some_iff.mp hp
    rw [← hfresh] at hsnd
    obtain ⟨⟨d', i⟩, hfirst, rfl⟩ := Option.map_eq_some_iff.mp hsnd
    exact ⟨ts, i, hts, hfirst⟩
  · rintro ⟨ts, i, hts, hfirst⟩
    have hp : Slab.view TubeState.heads e.tubes t = some ts.heads := Slab.view_of_get hts
    show (Slab.view TubeState.heads e.tubes t).bind Prod.snd = some d
    rw [hp, Option.bind_some, ← h.heads.fresh t ts.heads hp nofun, TubeState.heads, hfirst]
    rfl

theorem mem_pauses {s : Slack} (h : Core s e) {d : Nanos} {t : TubeId} :
    (d, t) ∈ e.pauses ↔ ∃ ts, e.tube t = some ts ∧ 0 < ts.pause ∧ ts.unpauseAt = d := by
  rw [h.pauses d t, Option.join_eq_some_iff, Slab.view_eq_some_iff]
  constructor
  · rintro ⟨ts, hts, hkey⟩
    unfold TubeState.pauseKey at hkey
    split at hkey
    · next hpos => exact ⟨ts, hts, hpos, Option.some.inj hkey⟩
    · cases hkey
  · rintro ⟨ts, hts, hpos, rfl⟩
    exact ⟨ts, hts, by rw [TubeState.pauseKey, if_pos hpos]⟩

theorem mem_connTicks (h : Core {} e) {d : Nanos} :
    (d, c) ∈ e.connTicks ↔ ∃ k, e.conns[c]? = some k ∧ k.tickat = some d := by
  rw [h.ticks.index d c]
  show (e.conns.map fun _ k => ConnState.ticks k)[c]?.bind Prod.snd = some d ↔ _
  rw [ExtTreeMap.getElem?_map]
  have hmap (k : ConnState) (hk : e.conns[c]? = some k) :
      (e.conns.map fun _ k => ConnState.ticks k)[c]? = some k.ticks := TreeMap.map_of hk
  cases hk : e.conns[c]? with
  | none => simp
  | some k =>
    have hfresh : k.tickat = k.tickKey := h.ticks.fresh c k.ticks (hmap k hk) nofun
    simp [ConnState.ticks, hfresh]

/-- The delay loop looks at the soonest deadline of all. -/
theorem soonestDelayedJob_le (h : Core {} e) {d : Nanos} {t : TubeId} (hx : (d, t) ∈ e.delayHeads) :
    ∃ d₀ t₀ i₀, e.soonestDelayedJob = some (d₀, t₀, i₀) ∧ d₀ ≤ d := by
  obtain ⟨d₀, t₁, hfirst, hle⟩ := exists_first hx
  have hmem := (TreeMap.first_eq_some_iff.mp hfirst).1
  unfold soonestDelayedJob
  simp only [hfirst]
  -- the candidates are the tubes whose first deadline is `d₀`
  generalize hcands : ((e.delayHeads.toList.filter fun x => x.1 == d₀).filterMap fun x =>
    (e.tube x.2).map fun t => (t.pos, x.2)) = cands
  have hcand : ∀ y ∈ cands, (d₀, y.2) ∈ e.delayHeads := by
    intro y hy
    rw [← hcands] at hy
    obtain ⟨x, hx, hsome⟩ := List.mem_filterMap.mp hy
    obtain ⟨hx, heq⟩ := List.mem_filter.mp hx
    obtain ⟨ts, -, rfl⟩ := Option.map_eq_some_iff.mp hsome
    rw [← beq_iff_eq.mp heq]
    exact ExtTreeSet.mem_toList.mp hx
  obtain ⟨ts₁, i₁, hts₁, -⟩ := (mem_delayHeads h).mp hmem
  have hne : (ts₁.pos, t₁) ∈ cands := by
    rw [← hcands]
    refine List.mem_filterMap.mpr ⟨(d₀, t₁), List.mem_filter.mpr
      ⟨ExtTreeSet.mem_toList.mpr hmem, beq_self_eq_true d₀⟩, ?_⟩
    rw [show e.tube t₁ = some ts₁ from hts₁]
    rfl
  cases hb : Best.first Prod.fst cands with
  | none =>
    rw [Best.first_eq_none_iff.mp hb] at hne
    cases hne
  | some y =>
    obtain ⟨ts, i, hts, hfd⟩ := (mem_delayHeads h).mp (hcand y (Best.first_some hb).1)
    refine ⟨d₀, y.2, i, ?_, hle⟩
    simp only
    rw [show e.tube y.2 = some ts from hts, Option.bind_some, hfd]
    rfl

theorem delayed_after (h : Core {} e) (hw : wakeOne now e = none) (hj : e.jobs[id]? = some j)
    (hst : j.state = .delayed) : now < j.deadlineAt := by
  obtain ⟨ts, hts, hmem⟩ := delayed_filed h hj hst
  obtain ⟨d, i, hf, hd⟩ := exists_first hmem
  obtain ⟨d₀, t₀, i₀, hsoon, hle⟩ :=
    soonestDelayedJob_le h ((mem_delayHeads h).mpr ⟨ts, i, hts, hf⟩)
  unfold wakeOne at hw
  simp only [hsoon] at hw
  split at hw
  · next hlt => exact Nat.lt_of_lt_of_le hlt (Nat.le_trans hle hd)
  · cases hw

/-! ## Connections with nothing to do -/

section Ticks

theorem tickat_idle (hw : k.waiting = false) :
    k.tickat = k.soonestReserved.map Prod.fst := by
  unfold ConnState.tickat
  simp only [hw, Bool.false_eq_true, if_false, Nat.sub_zero]

/-- A waiting connection is due a margin before its soonest deadline, and when its
patience ends. -/
theorem tickat_le (hw : k.waiting = true) {t : Nanos}
    (ht : k.waitDeadline = some t ∨ ∃ d i, k.soonestReserved = some (d, i) ∧ d - safetyMargin = t) :
    ∃ t', k.tickat = some t' ∧ t' ≤ t := by
  unfold ConnState.tickat
  simp only [hw, if_true]
  rcases ht with hwd | ⟨d, i, hs, rfl⟩
  · rw [hwd]
    cases k.soonestReserved with
    | none => exact ⟨t, rfl, Nat.le_refl t⟩
    | some x => exact ⟨_, rfl, Nat.min_le_right ..⟩
  · rw [hs]
    cases k.waitDeadline with
    | none => exact ⟨_, rfl, Nat.le_refl _⟩
    | some wd => exact ⟨_, rfl, Nat.min_le_left ..⟩

theorem tickat_waiting (hw : k.waiting = true) {t : Nanos} (ht : k.tickat = some t) :
    k.waitDeadline = some t ∨ ∃ d i, k.soonestReserved = some (d, i) ∧ d - safetyMargin = t := by
  unfold ConnState.tickat at ht
  simp only [hw, if_true] at ht
  cases hwd : k.waitDeadline with
  | none =>
    rw [hwd] at ht
    obtain ⟨x, hx, rfl⟩ := Option.map_eq_some_iff.mp ht
    exact .inr ⟨x.1, x.2, hx, rfl⟩
  | some wd =>
    rw [hwd] at ht
    cases hs : k.soonestReserved with
    | none =>
      rw [hs] at ht
      exact .inl ht
    | some x =>
      rw [hs] at ht
      simp only [Option.map_some, Option.some.injEq] at ht
      rcases Nat.le_total (x.1 - safetyMargin) wd with hle | hle
      · rw [Nat.min_eq_left hle] at ht
        exact .inr ⟨x.1, x.2, rfl, ht⟩
      · rw [Nat.min_eq_right hle] at ht
        exact .inl (congrArg some ht)

end Ticks

/-- Connection `c` has nothing to do at `now`: no reservation of its is over, and if it
waits then neither is its patience, nor is a deadline soon. -/
structure Rested (now : Nanos) (e : Engine) (c : ConnId) : Prop where
  past {i : JobId} {j : JobRec} : e.jobs[i]? = some j → j.state = .reserved →
    j.reserver = some c → now ≤ j.deadlineAt
  soon : e.isWaiting c = true → ¬HoldsDue e c now
  patience : e.isWaiting c = true → ∀ k d, e.conns[c]? = some k → k.waitDeadline = some d → now < d

theorem Rested.eased (h : Rested now e c) (he : Eased now e e') : Rested now e' c where
  past hj hst hr := by
    rcases he.held hj hst with hj' | ⟨hle, -⟩
    · exact h.past hj' hst hr
    · exact hle
  soon hw := by
    rintro ⟨i, j, hj, hst, hr, hle⟩
    rcases he.held hj hst with hj' | ⟨-, d, hd, hidle⟩
    · exact h.soon (he.waited hw) ⟨i, j, hj', hst, hr, hle⟩
    rw [hr, Option.some.injEq] at hd
    rw [← hd, hw] at hidle
    cases hidle
  patience hw k d hk hd := by
    have hwait := he.waits hw
    rw [hk, Option.map_some] at hwait
    obtain ⟨k₀, hk₀, heq⟩ := Option.map_eq_some_iff.mp hwait.symm
    exact h.patience (he.waited hw) k₀ d hk₀ ((congrArg Prod.snd heq).trans hd)

/-- The holder of a job is connected, and its soonest deadline is no later. -/
theorem soonest_of_job (h : Core {} e) (hj : e.jobs[id]? = some j) (hst : j.state = .reserved)
    (hr : j.reserver = some c) :
    ∃ k d i, e.conns[c]? = some k ∧ k.soonestReserved = some (d, i) ∧ d ≤ j.deadlineAt := by
  obtain ⟨r, hr', -⟩ := filed_of_job h (by nofun) hj
    (mem_locs_due.mpr ⟨hst, by rw [hr, Option.getD_some], rfl⟩)
  obtain ⟨k, hk, -⟩ := TreeMap.map_eq_some_iff.mp hr'
  obtain ⟨d, i, hf, hle⟩ := exists_first (due_of_job h hk hj hst hr)
  exact ⟨k, d, i, hk, hf, hle⟩

/-- A connection that is not due has nothing to do. -/
theorem rested_of_ticks (h : Core {} e) (ht : ∀ d, (d, c) ∈ e.connTicks → now < d) :
    Rested now e c := by
  have htick : ∀ k d, e.conns[c]? = some k → k.tickat = some d → now < d :=
    fun k d hk hd => ht d ((mem_connTicks h).mpr ⟨k, hk, hd⟩)
  refine ⟨fun {i j} hj hst hr => ?_, fun hw => ?_, fun hw k d hk hd => ?_⟩
  · obtain ⟨k, d, i, hk, hs, hle⟩ := soonest_of_job h hj hst hr
    cases hw : k.waiting with
    | false =>
      have hd : k.tickat = some d := by rw [tickat_idle hw, hs]; rfl
      exact Nat.le_trans (Nat.le_of_lt (htick k d hk hd)) hle
    | true =>
      obtain ⟨t, ht, htd⟩ := tickat_le hw (.inr ⟨d, i, hs, rfl⟩)
      have hlt : now < t := htick k t hk ht
      exact Nat.le_of_lt (Nat.lt_of_lt_of_le (Nat.lt_of_lt_of_le hlt htd)
        (Nat.le_trans (Nat.sub_le ..) hle))
  · rintro ⟨i, j, hj, hst, hr, hdue⟩
    obtain ⟨k, d, i, hk, hs, hle⟩ := soonest_of_job h hj hst hr
    rw [isWaiting, hk, Option.any_some] at hw
    obtain ⟨t, ht, htd⟩ := tickat_le hw (.inr ⟨d, i, hs, rfl⟩)
    have hlt : now < t := htick k t hk ht
    exact Nat.not_lt.mpr hdue (Nat.lt_of_lt_of_le (Nat.lt_of_lt_of_le hlt htd)
      (Nat.sub_le_sub_right hle safetyMargin))
  · rw [isWaiting, hk, Option.any_some] at hw
    obtain ⟨t, ht, htd⟩ := tickat_le hw (.inl hd)
    exact Nat.lt_of_lt_of_le (htick k t hk ht) htd

theorem doRemoveWaitingConn_eased (e : Engine) (c : ConnId) :
    Eased now e (e.doRemoveWaitingConn c) where
  same := doRemoveWaitingConn_same e c
  delayed hj _ := by
    obtain ⟨_, _, _, _, _, hf⟩ := doRemoveWaitingConn_frame e c
    rwa [hf] at hj
  paused ht _ := paused_of_view (doRemoveWaitingConn_view (fun _ _ _ _ _ => rfl) e c) ht
  held hj _ := by
    obtain ⟨_, _, _, _, _, hf⟩ := doRemoveWaitingConn_frame e c
    rw [hf] at hj
    exact .inl hj
  waits {d} hd := by
    have hne : d ≠ c := fun he => by rw [he, doRemoveWaitingConn_idle] at hd; cases hd
    rw [doRemoveWaitingConn_conn hne]

theorem reply_eased (e : Engine) (c : ConnId) (r : Response) : Eased now e (e.reply c r) := by
  obtain ⟨_, hf⟩ := reply_frame e c r
  have hs := reply_same e c r
  rw [hf] at hs ⊢
  exact .of_frame hs rfl rfl fun t ts' ht _ => ⟨ts', ht, rfl⟩

theorem expired_after (h : Core {} e) (hx : expireOne c now e = none) (hj : e.jobs[id]? = some j)
    (hst : j.state = .reserved) (hr : j.reserver = some c) : now ≤ j.deadlineAt := by
  obtain ⟨k, d, i, hk, hs, hle⟩ := soonest_of_job h hj hst hr
  unfold expireOne at hx
  simp only [hk, Option.bind_some, hs] at hx
  split at hx
  · next hge => exact Nat.le_trans hge hle
  · cases hx

/-- A connection's turn eases the engine and leaves the connection nothing to do. -/
theorem connTimeout_rested (c : ConnId) (h : Core {} e) (hn : now ≤ u64Max) :
    Eased now e (e.connTimeout c now) ∧ Rested now (e.connTimeout c now) c := by
  obtain ⟨h₁, heased, hend⟩ := drain_ends c h hn
  unfold connTimeout
  simp only
  generalize Loop.loop (e.jobs.size + 2) (expireOne c now) e = e₁ at h₁ heased hend ⊢
  have hstop (r : Response) : Eased now e₁ ((e₁.doRemoveWaitingConn c).reply c r) :=
    (doRemoveWaitingConn_eased e₁ c).trans (reply_eased _ c r)
  have hrest (r : Response) : Rested now ((e₁.doRemoveWaitingConn c).reply c r) c := by
    have hidle : ¬((e₁.doRemoveWaitingConn c).reply c r).isWaiting c = true := by
      obtain ⟨_, hf⟩ := reply_frame (e₁.doRemoveWaitingConn c) c r
      rw [hf]
      exact Bool.eq_false_iff.mp (doRemoveWaitingConn_idle e₁ c)
    refine ⟨fun hj hst hr => ?_, fun hw => absurd hw hidle, fun hw => absurd hw hidle⟩
    rcases (hstop r).held hj hst with hj' | ⟨hle, -⟩
    · exact expired_after h₁ hend hj' hst hr
    · exact hle
  split
  · exact ⟨heased.trans (hstop _), hrest _⟩
  next hsoon =>
  split
  · exact ⟨heased.trans (hstop _), hrest _⟩
  next hpatience =>
  refine ⟨heased, fun hj hst hr => expired_after h₁ hend hj hst hr, fun hw hdue => ?_,
    fun hw k d hk hd => ?_⟩
  · obtain ⟨k, hk, -⟩ := isWaiting_iff.mp hw
    exact hsoon (by rw [hw, (connDeadlineSoon_iff h₁ hk).mpr hdue]; rfl)
  · refine Nat.lt_of_not_le fun hle => hpatience ?_
    simp [hw, hk, hd, hle]

/-! ## The turns -/

/-- In an ordered list, what satisfies a condition that only a beginning can satisfy is in
that beginning. -/
theorem mem_takeWhile {α : Type} {r : α → α → Prop} {p : α → Bool}
    (hp : ∀ a b, r a b → p b = true → p a = true) {l : List α} (hl : l.Pairwise r) {x : α}
    (hx : x ∈ l) (hpx : p x = true) : x ∈ l.takeWhile p := by
  induction l with
  | nil => cases hx
  | cons a l ih =>
    rw [List.pairwise_cons] at hl
    rcases List.mem_cons.mp hx with rfl | hx
    · rw [List.takeWhile_cons, if_pos hpx]
      exact List.mem_cons_self
    · rw [List.takeWhile_cons, if_pos (hp a x (hl.1 x hx) hpx)]
      exact List.mem_cons_of_mem _ (ih hl.2 hx)

theorem due_mem {d : Nanos} (hmem : (d, c) ∈ e.connTicks) (hle : d ≤ now) :
    (d, c) ∈ e.connTicks.toList.takeWhile fun (t, _) => t ≤ now := by
  refine mem_takeWhile ?_
    ExtTreeSet.ordered_toList
    (ExtTreeSet.mem_toList.mpr hmem) (decide_eq_true hle)
  rintro ⟨a, i⟩ ⟨b, i'⟩ hab hb
  have hle : a ≤ b := by
    rcases isLE_pair (Ordering.isLE_of_eq_lt hab) with hlt | ⟨heq, -⟩
    · exact Nat.le_of_lt hlt
    · exact Nat.le_of_eq heq
  exact decide_eq_true (Nat.le_trans hle (of_decide_eq_true hb))

theorem nextDue_none (hnone : e.nextDue now processed = none) {d : Nanos}
    (hmem : (d, c) ∈ e.connTicks) (hle : d ≤ now) : processed.contains c = true := by
  rw [nextDue, Option.map_eq_none_iff, List.find?_eq_none] at hnone
  have hc := hnone _ (due_mem hmem hle)
  simpa using hc

theorem nextDue_some (h : Core {} e) (hsome : e.nextDue now processed = some c) :
    (∃ k, e.conns[c]? = some k) ∧ processed.contains c = false := by
  obtain ⟨⟨d, c'⟩, hfind, rfl⟩ := Option.map_eq_some_iff.mp hsome
  have hmem := List.takeWhile_subset _ (List.mem_of_find?_eq_some hfind)
  obtain ⟨k, hk, -⟩ := (mem_connTicks h).mp (ExtTreeSet.mem_toList.mp hmem)
  refine ⟨⟨k, hk⟩, ?_⟩
  simpa using List.find?_some hfind

/-- After some turns: what was eased, and who had one has nothing to do. -/
structure Turned (now : Nanos) (e₀ : Engine) (s : Engine × ExtTreeSet ConnId) : Prop where
  core : Core {} s.1
  eased : Eased now e₀ s.1
  rested : ∀ c, s.2.contains c = true → Rested now s.1 c

theorem timeoutOne_turned {e₀ : Engine} {s s' : Engine × ExtTreeSet ConnId} (hn : now ≤ u64Max)
    (h : Turned now e₀ s) (hstep : timeoutOne now s = some s') :
    Turned now e₀ s' ∧
      TreeMap.count (fun c _ => !s'.2.contains c) s'.1.conns <
        TreeMap.count (fun c _ => !s.2.contains c) s.1.conns := by
  unfold timeoutOne at hstep
  split at hstep
  · cases hstep
  next c hc =>
  cases hstep
  obtain ⟨heased, hrest⟩ := connTimeout_rested c h.core hn
  obtain ⟨⟨k, hk⟩, hnew⟩ := nextDue_some h.core hc
  refine ⟨⟨connTimeout_core h.core, h.eased.trans heased, fun d hd => ?_⟩, ?_⟩
  · rw [ExtTreeSet.contains_insert, Bool.or_eq_true, beq_iff_eq] at hd
    rcases hd with he | hd
    · rw [← LawfulEqOrd.eq_of_compare he]
      exact hrest
    · exact (h.rested d hd).eased heased
  · refine TreeMap.count_lt hk (by rw [hnew]; rfl) ?_ ?_
    · intro k' _
      simp
    intro d k' hk' hd
    obtain ⟨k₀, hk₀, -⟩ := heased.same.symm.conn_some hk'
    refine ⟨k₀, hk₀, ?_⟩
    simp only [ExtTreeSet.contains_insert, Bool.not_or, Bool.and_eq_true] at hd
    exact hd.2

/-! ## The whole tick -/

/-- The state after the delay loop. -/
def woken (e : Engine) (now : Nanos) : Engine := Loop.loop (e.jobs.size + 1) (wakeOne now) e

/-- The state in which the turns begin. -/
def unpaused (e : Engine) (now : Nanos) : Engine :=
  if (TreeMap.first (e.woken now).pauses).any fun (t, _) => t ≤ now then
    (e.woken now).processQueue now
  else e.woken now

theorem runTimers_eq (e : Engine) (now : Nanos) :
    e.runTimers now = (Loop.loop ((e.unpaused now).conns.size + 1) (timeoutOne now)
      (e.unpaused now, ∅)).1 := rfl

/-- Nothing is left to do at `now`. -/
structure Quiescent (now : Nanos) (e : Engine) : Prop where
  core : Core {} e
  delayed {i : JobId} {j : JobRec} : e.jobs[i]? = some j → j.state = .delayed → now < j.deadlineAt
  pauses {t : TubeId} {ts : TubeState} : e.tube t = some ts → 0 < ts.pause → now < ts.unpauseAt
  rested (c : ConnId) : Rested now e c

theorem clearPauses_ends (e : Engine) (now : Nanos) :
    clearOnePause now (e.clearExpiredPauses now) = none := by
  refine Loop.loop_stop (fun a : Engine => a.pauses.size)
    (fun a b _ hab => ⟨trivial, ?_⟩) _ trivial (Nat.lt_succ_self _)
  unfold clearOnePause at hab
  split at hab
  · cases hab
  next at' t hf =>
  split at hab
  · cases hab
  cases hab
  have hmem := (TreeMap.first_eq_some_iff.mp hf).1
  have hpos : 0 < a.pauses.size := by
    rw [← ExtTreeSet.length_toList]
    exact List.length_pos_of_mem (ExtTreeSet.mem_toList.mpr hmem)
  rw [ExtTreeSet.size_erase, if_pos (ExtTreeSet.mem_iff_contains.mp hmem)]
  omega

theorem pauses_after {s : Slack} (h : Core s e) (hnone : clearOnePause now e = none) {t : TubeId}
    {ts : TubeState} (ht : e.tube t = some ts) (hp : 0 < ts.pause) : now < ts.unpauseAt := by
  obtain ⟨d, t', hf, hle⟩ := exists_first ((mem_pauses h).mpr ⟨ts, ht, hp, rfl⟩)
  simp only [clearOnePause, hf] at hnone
  split at hnone
  · next hlt => exact Nat.lt_of_lt_of_le hlt hle
  · cases hnone

/-- After a dispatch no pause is over. -/
theorem processQueue_pauses (h : Core { owed := o } e) (hn : now ≤ u64Max) {t : TubeId}
    {ts : TubeState} (ht : (e.processQueue now).tube t = some ts) (hp : 0 < ts.pause) :
    now < ts.unpauseAt := by
  obtain ⟨xs, hrun⟩ := processQueue_hands h now
  have heased : Eased now (e.clearExpiredPauses now) (e.processQueue now) :=
    hrun.inv
      (fun _ _ _ _ hx hd => hd.trans (hx.eased hn)) (.refl now _)
  obtain ⟨ts₀, hts₀, hhalt⟩ := heased.paused ht hp
  rw [TubeState.halt, TubeState.halt, Prod.mk.injEq] at hhalt
  rw [← hhalt.2]
  exact pauses_after (clearExpiredPauses_core h.owe) (clearPauses_ends e now) hts₀ (hhalt.1 ▸ hp)

theorem unpaused_spec (h : Core {} e) (hn : now ≤ u64Max) :
    Core {} (e.unpaused now) ∧ wakeOne now (e.woken now) = none ∧
      (∀ (i : JobId) (j : JobRec), (e.unpaused now).jobs[i]? = some j → j.state = .delayed →
        now < j.deadlineAt) ∧
      ∀ t ts, (e.unpaused now).tube t = some ts → 0 < ts.pause → now < ts.unpauseAt := by
  obtain ⟨h₁, -, hend⟩ := wakeAll_ends h hn
  have hdel : ∀ (i : JobId) (j : JobRec), (e.woken now).jobs[i]? = some j → j.state = .delayed →
      now < j.deadlineAt := fun i j hj hst => delayed_after h₁ hend hj hst
  unfold unpaused
  split
  · have heased : Eased now (e.woken now) ((e.woken now).processQueue now) :=
      processQueue_eased h₁ hn
    refine ⟨processQueue_core h₁, hend, fun i j hj hst => hdel i j (heased.delayed hj hst) hst,
      fun t ts ht hp => processQueue_pauses h₁ hn ht hp⟩
  · next hnone =>
    refine ⟨h₁, hend, hdel, fun t ts ht hp => Nat.lt_of_not_le fun hle => hnone ?_⟩
    have hmem : (ts.unpauseAt, t) ∈ (e.woken now).pauses := (mem_pauses h₁).mpr ⟨ts, ht, hp, rfl⟩
    obtain ⟨d, t', hf, hd⟩ := exists_first hmem
    rw [hf]
    exact decide_eq_true (Nat.le_trans hd hle)

theorem turns_spec (h : Core {} e) (hn : now ≤ u64Max) :
    Turned now e (Loop.loop (e.conns.size + 1) (timeoutOne now) (e, ∅)) ∧
      timeoutOne now (Loop.loop (e.conns.size + 1) (timeoutOne now) (e, ∅)) = none := by
  have hstart : Turned now e (e, ∅) :=
    ⟨h, .refl now e, fun c hc => by rw [ExtTreeSet.contains_empty] at hc; cases hc⟩
  refine ⟨Loop.loop_inv (fun a b ha hab => (timeoutOne_turned hn ha hab).1) _
    hstart, ?_⟩
  refine Loop.loop_stop (P := Turned now e)
    (fun s => TreeMap.count (fun c _ => !s.2.contains c) s.1.conns)
    (fun a b ha hab => timeoutOne_turned hn ha hab) _ hstart ?_
  exact Nat.lt_succ_of_le TreeMap.count_le_size

theorem runTimers_quiescent (h : Core {} e) (hn : now ≤ u64Max) :
    Quiescent now (e.runTimers now) := by
  obtain ⟨h₁, -, hdel, hpause⟩ := unpaused_spec h hn
  obtain ⟨hturned, hend⟩ := turns_spec h₁ hn
  rw [runTimers_eq]
  generalize Loop.loop _ (timeoutOne now) (e.unpaused now, ∅) = s at hturned hend ⊢
  refine ⟨hturned.core, fun hj hst => hdel _ _ (hturned.eased.delayed hj hst) hst,
    fun ht hp => ?_, fun c => ?_⟩
  · obtain ⟨ts₀, hts₀, hhalt⟩ := hturned.eased.paused ht hp
    rw [TubeState.halt, TubeState.halt, Prod.mk.injEq] at hhalt
    rw [← hhalt.2]
    exact hpause _ ts₀ hts₀ (hhalt.1 ▸ hp)
  · cases hc : s.2.contains c with
    | true => exact hturned.rested c hc
    | false =>
      refine rested_of_ticks hturned.core fun d hd => Nat.lt_of_not_le fun hle => ?_
      have hnone : s.1.nextDue now s.2 = none := by
        unfold timeoutOne at hend
        split at hend
        · assumption
        · cases hend
      rw [nextDue_none hnone hd hle] at hc
      cases hc

/-- The indexes that `nextDeadline` looks at. -/
def schedules (e : Engine) : List (ExtTreeSet (Nat × Nat)) := [e.delayHeads, e.pauses, e.connTicks]

theorem nextDeadline_eq (e : Engine) :
    e.nextDeadline = (e.schedules.filterMap fun s => (TreeMap.first s).map Prod.fst).min? := rfl

/-- The next deadline is in one of the indexes. -/
theorem mem_of_nextDeadline {d : Nanos} (hd : e.nextDeadline = some d) :
    ∃ s ∈ e.schedules, ∃ i, (d, i) ∈ s := by
  rw [nextDeadline_eq] at hd
  obtain ⟨s, hs, hf⟩ := List.mem_filterMap.mp (List.min?_eq_some_iff.mp hd).1
  obtain ⟨x, hx, rfl⟩ := Option.map_eq_some_iff.mp hf
  exact ⟨s, hs, x.2, (TreeMap.first_eq_some_iff.mp hx).1⟩

theorem nextDeadline_le {d : Nanos} (hd : ∃ s ∈ e.schedules, ∃ i, (d, i) ∈ s) :
    ∃ d', e.nextDeadline = some d' ∧ d' ≤ d := by
  obtain ⟨s, hs, i, hmem⟩ := hd
  obtain ⟨d₁, i₁, hf, hle⟩ := exists_first hmem
  have hfirst : d₁ ∈ e.schedules.filterMap fun s => (TreeMap.first s).map Prod.fst :=
    List.mem_filterMap.mpr ⟨s, hs, by rw [hf]; rfl⟩
  cases hmin : e.nextDeadline with
  | none =>
    rw [nextDeadline_eq, List.min?_eq_none_iff] at hmin
    rw [hmin] at hfirst
    cases hfirst
  | some d' =>
    exact ⟨d', rfl, Nat.le_trans ((List.min?_eq_some_iff.mp hmin).2 d₁ hfirst) hle⟩

/-- An engine whose next deadline is later has nothing to do. -/
theorem quiescent_of_nextDeadline (h : Core {} e) (hlate : ¬e.nextDeadline.any (· ≤ now) = true) :
    Quiescent now e := by
  have hlater {d : Nanos} (hd : ∃ s ∈ e.schedules, ∃ i, (d, i) ∈ s) : now < d := by
    obtain ⟨d', hd', hle⟩ := nextDeadline_le hd
    rw [hd', Option.any_some, decide_eq_true_eq] at hlate
    exact Nat.lt_of_lt_of_le (Nat.lt_of_not_le hlate) hle
  refine ⟨h, fun {i j} hj hst => ?_, fun {t ts} ht hp => ?_, fun c => ?_⟩
  · obtain ⟨ts, hts, hmem⟩ := delayed_filed h hj hst
    obtain ⟨d, i, hf, hle⟩ := exists_first hmem
    exact Nat.lt_of_lt_of_le (hlater ⟨e.delayHeads, by simp [schedules], j.tube,
      (mem_delayHeads h).mpr ⟨ts, i, hts, hf⟩⟩) hle
  · exact hlater ⟨e.pauses, by simp [schedules], t, (mem_pauses h).mpr ⟨ts, ht, hp, rfl⟩⟩
  · exact rested_of_ticks h fun d hd => hlater ⟨e.connTicks, by simp [schedules], c, hd⟩

theorem tick_quiescent (h : Core {} e) (hn : now ≤ u64Max) : Quiescent now (e.tick now) := by
  unfold tick
  split
  · exact runTimers_quiescent h hn
  · next hlate => exact quiescent_of_nextDeadline h hlate

/-! ## Nothing to do twice -/

theorem connTimeout_rest (h : Quiescent now e) (c : ConnId) : e.connTimeout c now = e := by
  have hnone : expireOne c now e = none := by
    unfold expireOne
    cases hs : e.conns[c]?.bind ConnState.soonestReserved with
    | none => rfl
    | some x =>
      obtain ⟨k, hk, hf⟩ := Option.bind_eq_some_iff.mp hs
      obtain ⟨j, hj, hst, hr, hd⟩ := reserved_job h.core hk (TreeMap.first_eq_some_iff.mp hf).1
      exact if_pos (hd ▸ (h.rested c).past hj hst hr)
  unfold connTimeout
  simp only [Loop.loop_none hnone]
  cases hw : e.isWaiting c with
  | false => rfl
  | true =>
    obtain ⟨k, hk, -⟩ := isWaiting_iff.mp hw
    have hsoon : e.connDeadlineSoon c now = false := by
      refine Bool.eq_false_iff.mpr fun hs => ?_
      exact (h.rested c).soon hw ((connDeadlineSoon_iff h.core hk).mp hs)
    have hpatience : (e.conns[c]?.bind ConnState.waitDeadline).any (· ≤ now) = false := by
      rw [hk, Option.bind_some]
      cases hwd : k.waitDeadline with
      | none => rfl
      | some d => exact decide_eq_false (Nat.not_le.mpr ((h.rested c).patience hw k d hk hwd))
    rw [hsoon, hpatience]
    rfl

theorem tick_again (h : Quiescent now e) : e.tick now = e := by
  unfold tick
  split
  · have hwake : wakeOne now e = none := by
      unfold wakeOne
      cases hs : e.soonestDelayedJob with
      | none => rfl
      | some x =>
        obtain ⟨ts, hts, hf⟩ := soonestDelayedJob_spec hs
        obtain ⟨j, hj, hst, -, hd⟩ := delayed_job h.core hts (TreeMap.first_eq_some_iff.mp hf).1
        exact if_pos (hd ▸ h.delayed hj hst)
    have hpause : ¬((TreeMap.first e.pauses).any fun (t, _) => t ≤ now) = true := by
      cases hf : TreeMap.first e.pauses with
      | none => nofun
      | some x =>
        obtain ⟨ts, hts, hp, hu⟩ := (mem_pauses h.core).mp (TreeMap.first_eq_some_iff.mp hf).1
        rw [Option.any_some, decide_eq_true_eq, ← hu]
        exact Nat.not_le.mpr (h.pauses hts hp)
    have hunpaused : e.unpaused now = e := by
      rw [unpaused, woken, Loop.loop_none hwake, if_neg hpause]
    rw [runTimers_eq, hunpaused]
    refine Loop.loop_inv (P := fun s : Engine × ExtTreeSet ConnId => s.1 = e) (s := (e, ∅))
      (fun a b ha hab => ?_) _ rfl
    unfold timeoutOne at hab
    split at hab
    · cases hab
    cases hab
    rw [ha]
    exact connTimeout_rest h _
  · rfl

/-! ## The result -/

/-- Every loop of the tick, those of the dispatches included, ends by itself. -/
structure TickEnds (e : Engine) (now : Nanos) : Prop where
  wakes : wakeOne now (e.woken now) = none
  turns : timeoutOne now (Loop.loop ((e.unpaused now).conns.size + 1) (timeoutOne now)
    (e.unpaused now, ∅)) = none
  drains : ∀ s ∈ Loop.states ((e.unpaused now).conns.size + 1) (timeoutOne now) (e.unpaused now, ∅),
    ∀ c, expireOne c now (Loop.loop (s.1.jobs.size + 2) (expireOne c now) s.1) = none
  dispatches : ∀ d ∈ e.tickDispatches now, clearOnePause now (d.clearExpiredPauses now) = none ∧
    dispatchOne now (d.processQueue now) = none

theorem processQueue_ends (h : Core { owed := o } e) :
    dispatchOne now (e.processQueue now) = none := by
  have hsize := (clearExpiredPauses_same e now).jobs_size
  have hbest : (e.processQueue now).bestReady = none :=
    dispatch_done (clearExpiredPauses_core h.owe) (by omega)
  unfold dispatchOne
  rw [hbest]

theorem tick_ends (h : Core {} e) (hn : now ≤ u64Max) : TickEnds e now := by
  obtain ⟨h₁, hend, -⟩ := unpaused_spec h hn
  refine ⟨hend, (turns_spec h₁ hn).2, fun s hs c => ?_, fun d hd => ⟨clearPauses_ends d now, ?_⟩⟩
  · have hcore := (Loop.mem_states
      (fun a b ha hab => timeoutOne_core ha hab) _ h₁ s hs).1
    exact (drain_ends c hcore hn).2.2
  · exact processQueue_ends ((tick_piece (T := e.terms now .tick) h).core d hd)

/-- What is left when everything due by `now` is done. -/
structure Ticked (now : Nanos) (e : Engine) : Prop where
  delayed {i : JobId} {j : JobRec} : e.jobs[i]? = some j → j.state = .delayed → now < j.deadlineAt
  paused {t : TubeId} {ts : TubeState} : e.tube t = some ts → 0 < ts.pause → now < ts.unpauseAt
  reserved {i : JobId} {j : JobRec} : e.jobs[i]? = some j → j.state = .reserved →
    now ≤ j.deadlineAt
  waiting {c : ConnId} {k : ConnState} : e.conns[c]? = some k → k.waiting = true →
    (∀ d, k.waitDeadline = some d → now < d) ∧ ¬HoldsDue e c now
  calm {t : TubeId} {ts : TubeState} : e.tube t = some ts → ts.pause = 0 →
    ts.ready.isEmpty = true ∨ ts.waitingConns.items = []
  next {d : Nanos} : e.nextDeadline = some d → now ≤ d ∧ (d = now →
    ∃ (c : ConnId) (k : ConnState) (i : JobId) (j : JobRec), e.conns[c]? = some k ∧
      k.waiting = false ∧ e.jobs[i]? = some j ∧ j.state = .reserved ∧ j.reserver = some c ∧
      j.deadlineAt = now)

/-- A connection's tick is not before `now`, and is `now` only for a reservation of a
connection that does not wait. -/
theorem Rested.tick {d : Nanos} (h : Core {} e) (hrest : Rested now e c) (hk : e.conns[c]? = some k)
    (hd : k.tickat = some d) : now ≤ d ∧ (d = now → k.waiting = false ∧ ∃ (i : JobId) (j : JobRec),
      e.jobs[i]? = some j ∧ j.state = .reserved ∧ j.reserver = some c ∧ j.deadlineAt = now) := by
  cases hw : k.waiting with
  | false =>
    rw [tickat_idle hw] at hd
    obtain ⟨⟨d', i⟩, hs, rfl⟩ := Option.map_eq_some_iff.mp hd
    obtain ⟨j, hj, hst, hr, hdl⟩ := reserved_job h hk (TreeMap.first_eq_some_iff.mp hs).1
    exact ⟨hdl ▸ hrest.past hj hst hr, fun heq => ⟨rfl, i, j, hj, hst, hr, hdl.trans heq⟩⟩
  | true =>
    have hwait : e.isWaiting c = true := isWaiting_iff.mpr ⟨k, hk, hw⟩
    have hlt : now < d := by
      rcases tickat_waiting hw hd with hwd | ⟨d', i, hs, rfl⟩
      · exact hrest.patience hwait k d hk hwd
      · obtain ⟨j, hj, hst, hr, hdl⟩ := reserved_job h hk (TreeMap.first_eq_some_iff.mp hs).1
        exact Nat.lt_of_not_le fun hle => hrest.soon hwait ⟨i, j, hj, hst, hr, hdl ▸ hle⟩
    exact ⟨Nat.le_of_lt hlt, fun heq => absurd heq (Nat.ne_of_gt hlt)⟩

theorem Quiescent.ticked (h : Quiescent now e) : Ticked now e where
  delayed := h.delayed
  paused := h.pauses
  reserved {i j} hj hst := by
    obtain ⟨c, hc⟩ := Option.isSome_iff_exists.mp (((h.core.jobs i j hj).holder nofun).mpr hst)
    exact (h.rested c).past hj hst hc
  waiting {c k} hk hw := by
    have hwait : e.isWaiting c = true := isWaiting_iff.mpr ⟨k, hk, hw⟩
    exact ⟨fun d hd => (h.rested c).patience hwait k d hk hd, (h.rested c).soon hwait⟩
  calm {t ts} ht hp := by
    have hbusy := h.core.calm rfl t
    rw [Slab.view_of_get ht] at hbusy
    simp only [TubeState.busy, TubeState.wantsDispatch, hp] at hbusy
    cases hr : ts.ready.isEmpty with
    | true => exact .inl rfl
    | false =>
      refine .inr (List.isEmpty_iff.mp ?_)
      simpa [hr] using hbusy
  next {d} hd := by
    obtain ⟨s, hs, t, ht⟩ := mem_of_nextDeadline hd
    simp only [schedules, List.mem_cons, List.not_mem_nil, or_false] at hs
    rcases hs with rfl | rfl | rfl
    · obtain ⟨ts, i, hts, hf⟩ := (mem_delayHeads h.core).mp ht
      obtain ⟨j, hj, hst, -, hdl⟩ := delayed_job h.core hts (TreeMap.first_eq_some_iff.mp hf).1
      have hlt : now < d := hdl ▸ h.delayed hj hst
      exact ⟨Nat.le_of_lt hlt, fun heq => absurd heq (Nat.ne_of_gt hlt)⟩
    · obtain ⟨ts, hts, hp, hu⟩ := (mem_pauses h.core).mp ht
      have hlt : now < d := hu ▸ h.pauses hts hp
      exact ⟨Nat.le_of_lt hlt, fun heq => absurd heq (Nat.ne_of_gt hlt)⟩
    · obtain ⟨k, hk, htick⟩ := (mem_connTicks h.core).mp ht
      obtain ⟨hle, hnow⟩ := (h.rested t).tick h.core hk htick
      refine ⟨hle, fun heq => ?_⟩
      obtain ⟨hw, i, j, hj⟩ := hnow heq
      exact ⟨t, k, i, j, hk, hw, hj⟩

/-- From a valid engine, `tick` ends, does everything that is due, and leaves nothing for a
second one. -/
theorem tick_complete (h : e.validate = .ok ()) (hn : now ≤ u64Max) :
    TickEnds e now ∧ Ticked now (e.tick now) ∧ (e.tick now).tick now = e.tick now := by
  have hcore : Core {} e := (validate_ok_iff.mp h).1.core
  have hq := tick_quiescent hcore hn
  exact ⟨tick_ends hcore hn, hq.ticked, tick_again hq⟩

/-- Connection 1 holds a job for a second more, connection 2 waits for a second at most,
and a job is delayed by a second. -/
def dueInASecond : Engine :=
  let e := ((Engine.new 0 ⟨65535, 0, true⟩ quietSys).connect 1).connect 2
  let e := (e.handle 0 1 (.put 7 0 1 [])).handle 0 1 .reserve
  (e.handle 0 1 (.put 7 1 60 [])).handle 0 2 (.reserveWithTimeout 1)

/-- A second later the delayed job goes to connection 2; the job of connection 1 is due,
but not over. -/
theorem dueInASecond_ticked :
    (TickEnds dueInASecond nanosPerSec ∧ Ticked nanosPerSec (dueInASecond.tick nanosPerSec) ∧
      (dueInASecond.tick nanosPerSec).tick nanosPerSec = dueInASecond.tick nanosPerSec) ∧
    (dueInASecond.tick nanosPerSec).out = dueInASecond.out ++ [(2, .reserved 2 [])] ∧
    (dueInASecond.tick nanosPerSec).nextDeadline = some nanosPerSec :=
  ⟨tick_complete (by decide +kernel) (by decide), by decide +kernel,
    by decide +kernel⟩

end Engine

end Beanstalkd
