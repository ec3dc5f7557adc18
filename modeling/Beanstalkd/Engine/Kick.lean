import Beanstalkd.Engine.Restore

/-!
# Kick

`kick n` takes the first `n` jobs of one list of the used tube, the buried jobs if
there are any and the delayed ones otherwise, and dispatches after each. A dispatch
never touches a list of jobs put aside, so the list is drained from its front and
nothing else happens to it.

`Kicked moved` is what kicking the jobs `moved` one after the other does. It is
proved for one job and composed along the loop.
-/

open Std

namespace Beanstalkd

open Slab (setAt)

/-- A job as a kick makes it ready. -/
def JobRec.kicked (j : JobRec) : JobRec :=
  { j with kickCt := inc32 j.kickCt, state := .ready, reserver := none }

namespace Engine

variable {e e' e₁ : Engine} {c : ConnId} {k : ConnState} {tube t : TubeId} {id : JobId} {j : JobRec}
  {now : Nanos} {s : Slack} {moved moved' : List JobId} {answer : Outbox}

/-! ## The lists -/

/-- The buried jobs of a tube, in the order they were buried. -/
def buriedIn (e : Engine) (t : TubeId) : List JobId :=
  match Slab.view TubeState.aside e.tubes t with
  | some (_, buried) => TreeMap.values buried
  | none => []

/-- The delayed jobs of a tube, by deadline and then by id. -/
def delayedIn (e : Engine) (t : TubeId) : List JobId :=
  match Slab.view TubeState.aside e.tubes t with
  | some (delayed, _) => delayed.toList.map Prod.snd
  | none => []

/-- What a kick of the tube takes, in this order. -/
def kickOrder (e : Engine) (t : TubeId) : List JobId :=
  if e.buriedIn t = [] then e.delayedIn t else e.buriedIn t

theorem lists_none (h : Slab.get e.tubes tube = none) :
    e.buriedIn tube = [] ∧ e.delayedIn tube = [] := by
  rw [buriedIn, delayedIn, Slab.view, h]
  exact ⟨rfl, rfl⟩

theorem lists_some {delayed : ExtTreeSet (Nanos × JobId)} {buried : ExtTreeMap Nat JobId}
    (h : Slab.view TubeState.aside e.tubes tube = some (delayed, buried)) :
    e.buriedIn tube = TreeMap.values buried ∧ e.delayedIn tube = delayed.toList.map Prod.snd := by
  rw [buriedIn, delayedIn, h]
  exact ⟨rfl, rfl⟩

theorem mem_buriedIn (h : Core s e) (hs : s.limbo = none) :
    id ∈ e.buriedIn tube ↔ ∃ j, e.jobs[id]? = some j ∧ j.state = .buried ∧ j.tube = tube := by
  constructor
  · intro hmem
    cases hts : Slab.get e.tubes tube with
    | none =>
      rw [(lists_none hts).1] at hmem
      cases hmem
    | some ts =>
      rw [(lists_some (Slab.view_of_get hts)).1] at hmem
      obtain ⟨seq, hseq⟩ := TreeMap.mem_values.mp hmem
      obtain ⟨j, hj, hst, ht, -⟩ := buried_job h hts hseq
      exact ⟨j, hj, hst, ht⟩
  · rintro ⟨j, hj, hst, rfl⟩
    obtain ⟨q, hq, hmem⟩ := filed_of_job h (by rw [hs]; nofun) hj
      (mem_locs_buried.mpr ⟨hst, rfl, rfl⟩)
    obtain ⟨ts, hts, rfl⟩ := Slab.view_eq_some_iff.mp hq
    rw [(lists_some (Slab.view_of_get hts)).1]
    exact TreeMap.mem_values.mpr ⟨j.listSeq, hmem⟩

theorem mem_delayedIn (h : Core s e) (hs : s.limbo = none) :
    id ∈ e.delayedIn tube ↔ ∃ j, e.jobs[id]? = some j ∧ j.state = .delayed ∧ j.tube = tube := by
  constructor
  · intro hmem
    cases hts : Slab.get e.tubes tube with
    | none =>
      rw [(lists_none hts).2] at hmem
      cases hmem
    | some ts =>
      rw [(lists_some (Slab.view_of_get hts)).2] at hmem
      obtain ⟨⟨d, i⟩, hd, rfl⟩ := List.mem_map.mp hmem
      obtain ⟨j, hj, hst, ht, -⟩ := delayed_job h hts (ExtTreeSet.mem_toList.mp hd)
      exact ⟨j, hj, hst, ht⟩
  · rintro ⟨j, hj, hst, rfl⟩
    obtain ⟨q, hq, hmem⟩ := filed_of_job h (by rw [hs]; nofun) hj
      (mem_locs_delayed.mpr ⟨hst, rfl, rfl⟩)
    obtain ⟨ts, hts, rfl⟩ := Slab.view_eq_some_iff.mp hq
    rw [(lists_some (Slab.view_of_get hts)).2]
    exact List.mem_map.mpr ⟨(j.deadlineAt, id), ExtTreeSet.mem_toList.mpr hmem, rfl⟩

theorem buriedIn_sorted (h : Core s e) (t : TubeId) : (e.buriedIn t).Pairwise fun i i' =>
    ∃ j j', e.jobs[i]? = some j ∧ e.jobs[i']? = some j' ∧ j.listSeq < j'.listSeq := by
  cases hts : Slab.get e.tubes t with
  | none =>
    rw [(lists_none hts).1]
    exact .nil
  | some ts =>
    rw [(lists_some (Slab.view_of_get hts)).1, TreeMap.values, List.pairwise_map]
    refine ExtTreeMap.ordered_keys_toList.imp_of_mem fun {x y} hx hy hlt => ?_
    obtain ⟨j, hj, -, -, hseq⟩ :=
      buried_job h hts (ExtTreeMap.mem_toList_iff_getElem?_eq_some.mp hx)
    obtain ⟨j', hj', -, -, hseq'⟩ :=
      buried_job h hts (ExtTreeMap.mem_toList_iff_getElem?_eq_some.mp hy)
    refine ⟨j, j', hj, hj', ?_⟩
    rw [hseq, hseq']
    exact Nat.compare_eq_lt.mp hlt

theorem delayedIn_sorted (h : Core s e) (t : TubeId) : (e.delayedIn t).Pairwise fun i i' =>
    ∃ j j', e.jobs[i]? = some j ∧ e.jobs[i']? = some j' ∧
      (j.deadlineAt < j'.deadlineAt ∨ j.deadlineAt = j'.deadlineAt ∧ i < i') := by
  cases hts : Slab.get e.tubes t with
  | none =>
    rw [(lists_none hts).2]
    exact .nil
  | some ts =>
    rw [(lists_some (Slab.view_of_get hts)).2, List.pairwise_map]
    refine ExtTreeSet.ordered_toList.imp_of_mem fun {x y} hx hy hlt => ?_
    obtain ⟨j, hj, -, -, hd⟩ := delayed_job h hts (ExtTreeSet.mem_toList.mp hx)
    obtain ⟨j', hj', -, -, hd'⟩ := delayed_job h hts (ExtTreeSet.mem_toList.mp hy)
    refine ⟨j, j', hj, hj', ?_⟩
    rw [hd, hd']
    rw [show compare x y = (compare x.1 y.1).then (compare x.2 y.2) from rfl,
      Ordering.then_eq_lt] at hlt
    exact hlt.imp Nat.compare_eq_lt.mp fun h => ⟨Nat.compare_eq_eq.mp h.1, Nat.compare_eq_lt.mp h.2⟩

theorem nodup_buriedIn (h : Core s e) (t : TubeId) : (e.buriedIn t).Nodup := by
  refine (buriedIn_sorted h t).imp ?_
  rintro i i' ⟨j, j', hj, hj', hlt⟩ rfl
  rw [hj, Option.some.injEq] at hj'
  subst hj'
  exact Nat.lt_irrefl _ hlt

theorem nodup_delayedIn (h : Core s e) (t : TubeId) : (e.delayedIn t).Nodup := by
  refine (delayedIn_sorted h t).imp ?_
  rintro i i' ⟨j, j', hj, hj', hlt⟩ rfl
  rw [hj, Option.some.injEq] at hj'
  subst hj'
  rcases hlt with hlt | ⟨-, hlt⟩
  · exact Nat.lt_irrefl _ hlt
  · exact Nat.lt_irrefl _ hlt

/-! ## What a kick does -/

/-- The jobs `moved`, all of them put aside, have been kicked in this order, and
`answer` has been said at the end. -/
structure Kicked (now : Nanos) (moved : List JobId) (answer : Outbox) (e e' : Engine) : Prop where
  same : Same e e'
  buried (t : TubeId) : e'.buriedIn t = (e.buriedIn t).filter (· ∉ moved)
  delayed (t : TubeId) : e'.delayedIn t = (e.delayedIn t).filter (· ∉ moved)
  waited {d : ConnId} : e'.isWaiting d = true → e.isWaiting d = true
  /-- Each of them is ready now, or went to a connection that waited. -/
  job {i : JobId} : i ∈ moved → ∃ j, e.jobs[i]? = some j ∧
    (j.state = .buried ∨ j.state = .delayed) ∧ (e'.jobs[i]? = some j.kicked ∨
      ∃ d seq, e.isWaiting d = true ∧ e'.jobs[i]? = some (j.kicked.taken now d seq))
  /-- Other jobs are as they were, but for ready ones that were handed out. -/
  rest {i : JobId} {j : JobRec} : i ∉ moved → e.jobs[i]? = some j → e'.jobs[i]? = some j ∨
    j.state = .ready ∧ ∃ d seq, e.isWaiting d = true ∧ e'.jobs[i]? = some (j.taken now d seq)
  journal : e'.journal = e.journal ++ if e.cfg.journal then
    moved.filterMap fun i => e.jobs[i]?.map fun j => .update (jobRecord j.kicked) else []
  out : ∃ served, e'.out = e.out ++ served ++ answer ∧
    ∀ x ∈ served, e.isWaiting x.1 = true ∧ ∃ i body, x.2 = .reserved i body

theorem Kicked.refl (now : Nanos) (e : Engine) : Kicked now [] [] e e where
  same := .refl e
  buried t := by simp
  delayed t := by simp
  waited h := h
  job h := nomatch h
  rest _ hj := .inl hj
  journal := by simp
  out := ⟨[], by simp, nofun⟩

/-- A job kicked first is not put aside any more. -/
theorem Kicked.fresh (h : Kicked now moved [] e e₁) (h' : Kicked now moved' answer e₁ e')
    {i : JobId} (hi : i ∈ moved') : i ∉ moved := by
  intro hmem
  obtain ⟨j, -, -, hj₁⟩ := h.job hmem
  obtain ⟨j₁, hj', hst, -⟩ := h'.job hi
  rcases hj₁ with hj₁ | ⟨d, seq, -, hj₁⟩ <;>
  · rw [hj₁, Option.some.injEq] at hj'
    subst hj'
    rcases hst with hst | hst <;> cases hst

/-- A job kicked later was as it is before. -/
theorem Kicked.later (h : Kicked now moved [] e e₁) (h' : Kicked now moved' answer e₁ e')
    {i : JobId} (hi : i ∈ moved') : e₁.jobs[i]? = e.jobs[i]? := by
  obtain ⟨j₁, hj₁, hst, -⟩ := h'.job hi
  have hfix := h.same.job i
  rw [hj₁] at hfix
  obtain ⟨j, hj, -⟩ := Option.map_eq_some_iff.mp hfix.symm
  rcases h.rest (h.fresh h' hi) hj with heq | ⟨-, d, seq, -, heq⟩
  · rw [heq, hj]
  rw [heq, Option.some.injEq] at hj₁
  subst hj₁
  rcases hst with hst | hst <;> cases hst

theorem filter_notMem_append (l a b : List JobId) :
    (l.filter (· ∉ a)).filter (· ∉ b) = l.filter (· ∉ a ++ b) := by
  rw [List.filter_filter]
  congr 1
  funext i
  simp [Bool.and_comm]

theorem Kicked.trans (h : Kicked now moved [] e e₁) (h' : Kicked now moved' answer e₁ e') :
    Kicked now (moved ++ moved') answer e e' where
  same := h.same.trans h'.same
  buried t := by rw [h'.buried, h.buried, filter_notMem_append]
  delayed t := by rw [h'.delayed, h.delayed, filter_notMem_append]
  waited hd := h.waited (h'.waited hd)
  job {i} hi := by
    by_cases hi' : i ∈ moved'
    · obtain ⟨j, hj, hst, hkick⟩ := h'.job hi'
      rw [h.later h' hi'] at hj
      refine ⟨j, hj, hst, hkick.imp id ?_⟩
      rintro ⟨d, seq, hd, heq⟩
      exact ⟨d, seq, h.waited hd, heq⟩
    · obtain ⟨j, hj, hst, hkick⟩ := h.job ((List.mem_append.mp hi).resolve_right hi')
      refine ⟨j, hj, hst, ?_⟩
      rcases hkick with hj₁ | ⟨d, seq, hd, hj₁⟩
      · rcases h'.rest hi' hj₁ with heq | ⟨-, d, seq, hd, heq⟩
        · exact .inl heq
        · exact .inr ⟨d, seq, h.waited hd, heq⟩
      rcases h'.rest hi' hj₁ with heq | ⟨hst', -⟩
      · exact .inr ⟨d, seq, hd, heq⟩
      · cases hst'
  rest {i j} hi hj := by
    rw [List.mem_append, not_or] at hi
    rcases h.rest hi.1 hj with hj₁ | ⟨hst, d, seq, hd, hj₁⟩
    · rcases h'.rest hi.2 hj₁ with heq | ⟨hst, d, seq, hd, heq⟩
      · exact .inl heq
      · exact .inr ⟨hst, d, seq, h.waited hd, heq⟩
    rcases h'.rest hi.2 hj₁ with heq | ⟨hst', -⟩
    · exact .inr ⟨hst, d, seq, hd, heq⟩
    · cases hst'
  journal := by
    have hcfg : e₁.cfg = e.cfg := congrArg Statics.cfg h.same.statics
    have hlater : (moved'.filterMap fun i => e₁.jobs[i]?.map fun j =>
        JournalEntry.update (jobRecord j.kicked)) =
        moved'.filterMap fun i => e.jobs[i]?.map fun j => .update (jobRecord j.kicked) :=
      List.filterMap_congr fun i hi => by rw [h.later h' hi]
    rw [h'.journal, h.journal, hcfg, hlater, List.filterMap_append, List.append_assoc]
    split
    · rfl
    · rfl
  out := by
    obtain ⟨served, hout, hserved⟩ := h.out
    obtain ⟨served', hout', hserved'⟩ := h'.out
    refine ⟨served ++ served', by rw [hout', hout]; simp, fun x hx => ?_⟩
    rcases List.mem_append.mp hx with hx | hx
    · exact hserved x hx
    · exact ⟨h.waited (hserved' x hx).1, (hserved' x hx).2⟩

/-! ## One job -/

/-- The state in which a kick dispatches: the job is ready and journaled. -/
structure Revived (j : JobRec) (id : JobId) (e e' : Engine) : Prop where
  core : Core { owed := true } e'
  same : Same e e'
  aside : Slab.view TubeState.aside e'.tubes = Slab.view TubeState.aside e.tubes
  conns : e'.conns = e.conns
  jobs : e'.jobs = e.jobs.modify id JobRec.kicked
  journal : e'.journal =
    e.journal ++ if e.cfg.journal then [.update (jobRecord j.kicked)] else []
  out : e'.out = e.out

theorem revive_revived (h : Core { limbo := some id } e) (hj : e.jobs[id]? = some j)
    (ht : j.tube = tube) : Revived j id e (e.revive tube id) := by
  unfold revive
  extract_lets e₁ e₂
  have hj₁ : e₁.jobs[id]? = some { j with kickCt := inc32 j.kickCt } :=
    TreeMap.getElem?_modify_of hj
  have h₂ : Core { owed := true } e₂ := insertReady_core (modJob_core h fun _ => rfl) hj₁ ht
  have hs₁ : Same e e₁ := modJob_same e id fun _ => rfl
  have hs₂ : Same e e₂ := hs₁.trans (insertReady_same e₁ tube id)
  have ha₂ : Slab.view TubeState.aside e₂.tubes = Slab.view TubeState.aside e.tubes :=
    insertReady_view (fun _ _ _ _ _ => rfl) e₁ tube id
  have hjobs₂ : e₂.jobs = e.jobs.modify id JobRec.kicked := by
    rw [insertReady_jobs]
    exact TreeMap.modify_modify e.jobs id _ _
  have hj₂ : e₂.jobs[id]? = some j.kicked := by rw [hjobs₂, TreeMap.getElem?_modify_of hj]
  have hcfg₂ : e₂.cfg = e.cfg := congrArg Statics.cfg hs₂.statics
  obtain ⟨_, _, _, _, _, hf₂⟩ := insertReady_frame e₁ tube id
  have hlog₂ : e₂.journal = e.journal ∧ e₂.conns = e.conns ∧ e₂.out = e.out := by
    rw [show e₂ = _ from hf₂]
    exact ⟨rfl, rfl, rfl⟩
  obtain ⟨_, hf₃⟩ := journalWith_frame e₂ id fun j => .update (jobRecord j)
  have hlog₃ : (e₂.journalUpdate id).journal =
      e.journal ++ if e.cfg.journal then [.update (jobRecord j.kicked)] else [] := by
    unfold journalUpdate journalWith
    rw [hcfg₂]
    split
    · rw [hj₂, ← hlog₂.1]
    · rw [hlog₂.1, List.append_nil]
  have hrest : Slab.view TubeState.aside (e₂.journalUpdate id).tubes =
        Slab.view TubeState.aside e₂.tubes ∧ (e₂.journalUpdate id).conns = e₂.conns ∧
      (e₂.journalUpdate id).jobs = e₂.jobs ∧ (e₂.journalUpdate id).out = e₂.out := by
    rw [journalUpdate, hf₃]
    exact ⟨rfl, rfl, rfl, rfl⟩
  obtain ⟨ha₃, hc₃, hj₃, ho₃⟩ := hrest
  exact {
    core := journalWith_core h₂
    same := hs₂.trans (journalWith_same e₂ id _)
    aside := ha₃.trans ha₂
    conns := hc₃.trans hlog₂.2.1
    jobs := hj₃.trans hjobs₂
    journal := hlog₃
    out := ho₃.trans hlog₂.2.2 }

/-- Job `id` is off its list, and that is all that happened. -/
structure TakenOut (id : JobId) (e e' : Engine) : Prop where
  core : Core { limbo := some id } e'
  same : Same e e'
  buried (t : TubeId) : e'.buriedIn t = (e.buriedIn t).filter (· ∉ [id])
  delayed (t : TubeId) : e'.delayedIn t = (e.delayedIn t).filter (· ∉ [id])
  jobs : e'.jobs = e.jobs
  conns : e'.conns = e.conns
  journal : e'.journal = e.journal
  out : e'.out = e.out

theorem lists_congr (h : Slab.view TubeState.aside e'.tubes t = Slab.view TubeState.aside e.tubes t)
    : e'.buriedIn t = e.buriedIn t ∧ e'.delayedIn t = e.delayedIn t := by
  unfold buriedIn delayedIn
  rw [h]
  exact ⟨rfl, rfl⟩

/-- The containers of one tube changed. -/
theorem lists_at {ts : TubeState} {q : ExtTreeSet (Nanos × JobId) × ExtTreeMap Nat JobId}
    (e' : Engine) (hts : Slab.get e.tubes tube = some ts)
    (hview : Slab.view TubeState.aside e'.tubes =
      setAt (Slab.view TubeState.aside e.tubes) tube (some q)) :
    (e.buriedIn tube = TreeMap.values ts.buried ∧
      e.delayedIn tube = ts.delayed.toList.map Prod.snd) ∧
    (e'.buriedIn tube = TreeMap.values q.2 ∧ e'.delayedIn tube = q.1.toList.map Prod.snd) ∧
    ∀ t, t ≠ tube → e'.buriedIn t = e.buriedIn t ∧ e'.delayedIn t = e.delayedIn t :=
  ⟨lists_some (Slab.view_of_get hts), lists_some (by rw [hview, Slab.setAt_self]),
    fun t hne => lists_congr (by rw [hview, Slab.setAt_ne (Ne.symm hne)])⟩

/-- Off its list, made ready, dispatched: the job is kicked. -/
theorem TakenOut.kicked (h : TakenOut id e e₁) (hj : e.jobs[id]? = some j)
    (hst : j.state = .buried ∨ j.state = .delayed) (now : Nanos) :
    Kicked now [id] [] e (e₁.kickToReady j.tube id now) := by
  have hr : Revived j id e₁ (e₁.revive j.tube id) := revive_revived h.core (h.jobs ▸ hj) rfl
  rw [kickToReady_eq]
  generalize e₁.revive j.tube id = e₂ at hr
  have hd := processQueue_dispatched hr.core now
  have hconns : e₂.conns = e.conns := hr.conns.trans h.conns
  have hwait (d : ConnId) : e₂.isWaiting d = e.isWaiting d := by rw [isWaiting, hconns, isWaiting]
  have hjobs : e₂.jobs = e.jobs.modify id JobRec.kicked := by rw [hr.jobs, h.jobs]
  have hcfg : e₁.cfg = e.cfg := congrArg Statics.cfg h.same.statics
  exact {
    same := (h.same.trans hr.same).trans hd.same
    buried := fun t => (lists_congr (congrFun (hd.aside.trans hr.aside) t)).1.trans (h.buried t)
    delayed := fun t => (lists_congr (congrFun (hd.aside.trans hr.aside) t)).2.trans (h.delayed t)
    waited := fun {d} hw => (hwait d).symm.trans (hd.waited hw)
    job := fun {i} hi => by
      obtain rfl := List.mem_singleton.mp hi
      refine ⟨j, hj, hst, ?_⟩
      have hj₂ : e₂.jobs[i]? = some j.kicked := by rw [hjobs, TreeMap.getElem?_modify_of hj]
      rcases hd.jobs hj₂ with heq | ⟨-, d, seq, hw, heq⟩
      · exact .inl heq
      · exact .inr ⟨d, seq, (hwait d).symm.trans hw, heq⟩
    rest := fun {i j'} hi hj' => by
      have hne : i ≠ id := fun he => hi (List.mem_singleton.mpr he)
      have hj₂ : e₂.jobs[i]? = some j' := by rw [hjobs, TreeMap.getElem?_modify_ne hne, hj']
      rcases hd.jobs hj₂ with heq | ⟨hst', d, seq, hw, heq⟩
      · exact .inl heq
      · exact .inr ⟨hst', d, seq, (hwait d).symm.trans hw, heq⟩
    journal := by
      rw [hd.journal, hr.journal, hcfg, h.journal, List.filterMap_cons, hj]
      rfl
    out := by
      obtain ⟨served, hout, hserved⟩ := hd.out
      refine ⟨served, ?_, fun x hx => ⟨(hwait x.1).symm.trans (hserved x hx).1, (hserved x hx).2⟩⟩
      rw [hout, hr.out, h.out, List.append_nil] }

theorem filter_absent {l : List JobId} (h : id ∉ l) : l.filter (· ∉ [id]) = l :=
  List.filter_eq_self.mpr fun _ hi => decide_eq_true fun he => h (List.mem_singleton.mp he ▸ hi)

theorem filter_head_notMem {l : List JobId} (h : (id :: l).Nodup) :
    (id :: l).filter (· ∉ [id]) = l := by
  rw [List.filter_cons_of_neg (by simp)]
  exact filter_absent (List.nodup_cons.mp h).1

/-- A list of jobs put aside that lost its head `id`, and the lists it is not on. -/
theorem list_takenOut {l l' : TubeId → List JobId} (hnd : (l tube).Nodup)
    (hhead : l tube = id :: l' tube) (hother : ∀ t, t ≠ tube → id ∉ l t ∧ l' t = l t)
    (t : TubeId) : l' t = (l t).filter (· ∉ [id]) := by
  by_cases ht : t = tube
  · subst ht
    rw [hhead] at hnd ⊢
    exact (filter_head_notMem hnd).symm
  · rw [(hother t ht).2, filter_absent (hother t ht).1]

/-- The lists a job is not on. -/
theorem notMem_buriedIn (h : Core {} e) (hj : e.jobs[id]? = some j)
    (hne : j.state ≠ .buried ∨ j.tube ≠ t) : id ∉ e.buriedIn t := by
  rw [mem_buriedIn h rfl]
  rintro ⟨j', hj', hst, ht⟩
  cases hj.symm.trans hj'
  exact hne.elim (· hst) (· ht)

theorem notMem_delayedIn (h : Core {} e) (hj : e.jobs[id]? = some j)
    (hne : j.state ≠ .delayed ∨ j.tube ≠ t) : id ∉ e.delayedIn t := by
  rw [mem_delayedIn h rfl]
  rintro ⟨j', hj', hst, ht⟩
  cases hj.symm.trans hj'
  exact hne.elim (· hst) (· ht)

theorem unbury_takenOut {ts : TubeState} {seq : Nat} (h : Core {} e)
    (hts : Slab.get e.tubes tube = some ts) (hf : TreeMap.firstEntry ts.buried = some (seq, id))
    (hj : e.jobs[id]? = some j) (hst : j.state = .buried) (ht : j.tube = tube)
    (hseq : j.listSeq = seq) :
    e.buriedIn tube = id :: (e.unbury tube seq).buriedIn tube ∧
      TakenOut id e (e.unbury tube seq) := by
  obtain ⟨hold, hnew, hother⟩ := lists_at (e.unbury tube seq) hts
    (q := (ts.delayed, ts.buried.erase seq)) (Slab.view_modify_at TubeState.aside _ hts)
  have hhead : e.buriedIn tube = id :: (e.unbury tube seq).buriedIn tube := by
    rw [hold.1, hnew.1, TreeMap.values, TreeMap.toList_firstEntry hf]
    rfl
  refine ⟨hhead, {
    core := unbury_core h hj hst ht hseq
    same := unbury_same e tube seq
    buried := list_takenOut (nodup_buriedIn h tube) hhead fun t hne =>
      ⟨notMem_buriedIn h hj (.inr fun he => hne (he.symm.trans ht)), (hother t hne).1⟩
    delayed := fun t => ?_
    jobs := rfl
    conns := rfl
    journal := rfl
    out := rfl }⟩
  rw [filter_absent (notMem_delayedIn h hj (.inl (by rw [hst]; decide)))]
  by_cases hne : t = tube
  · rw [hne, hnew.2, hold.2]
  · exact (hother t hne).2

theorem removeDelayed_takenOut {ts : TubeState} {d : Nanos} (h : Core {} e)
    (hts : Slab.get e.tubes tube = some ts) (hf : TreeMap.first ts.delayed = some (d, id))
    (hj : e.jobs[id]? = some j) (hst : j.state = .delayed) (ht : j.tube = tube)
    (hd : j.deadlineAt = d) :
    e.delayedIn tube = id :: (e.removeDelayed tube id).delayedIn tube ∧
      TakenOut id e (e.removeDelayed tube id) := by
  obtain ⟨hold, hnew, hother⟩ := lists_at (e.removeDelayed tube id) hts
    (q := (ts.delayed.erase (d, id), ts.buried)) (by
      unfold removeDelayed
      rw [refreshDelayHead_view fun _ _ => rfl, hj]
      subst hd
      exact Slab.view_modify_at TubeState.aside _ hts)
  have hhead : e.delayedIn tube = id :: (e.removeDelayed tube id).delayedIn tube := by
    rw [hold.2, hnew.2, TreeMap.toList_first hf]
    rfl
  obtain ⟨_, _, _, hframe⟩ := removeDelayed_frame e tube id
  refine ⟨hhead, {
    core := removeDelayed_core h hj hst ht
    same := removeDelayed_same e tube id
    buried := fun t => ?_
    delayed := list_takenOut (nodup_delayedIn h tube) hhead fun t hne =>
      ⟨notMem_delayedIn h hj (.inr fun he => hne (he.symm.trans ht)), (hother t hne).2⟩
    jobs := by rw [hframe]
    conns := by rw [hframe]
    journal := by rw [hframe]
    out := by rw [hframe] }⟩
  rw [filter_absent (notMem_buriedIn h hj (.inl (by rw [hst]; decide)))]
  by_cases hne : t = tube
  · rw [hne, hnew.1, hold.1]
  · exact (hother t hne).1

/-! ## The loop -/

/-- One round of the loop kicks the head of the list `list`, if there is one. -/
def Drains (now : Nanos) (list : Engine → List JobId) (step : Engine → Option Engine) : Prop :=
  ∀ e, Core {} e → (list e = [] ∧ step e = none) ∨ ∃ i rest e', list e = i :: rest ∧
    step e = some e' ∧ list e' = rest ∧ Core {} e' ∧ Kicked now [i] [] e e'

theorem kickBuried_drains (now : Nanos) (tube : TubeId) :
    Drains now (fun e => e.buriedIn tube) (kickBuried now tube) := by
  intro e h
  cases hts : Slab.get e.tubes tube with
  | none =>
    refine .inl ⟨(lists_none hts).1, ?_⟩
    simp only [kickBuried, popBuriedFront, Engine.tube, hts, Option.bind_none]
  | some ts =>
    cases hf : TreeMap.firstEntry ts.buried with
    | none =>
      refine .inl ⟨?_, by simp only [kickBuried, popBuriedFront, Engine.tube, hts, Option.bind_some,
        hf]⟩
      simp only [(lists_some (Slab.view_of_get hts)).1, TreeMap.values]
      rw [List.map_eq_nil_iff, ← List.head?_eq_none_iff]
      exact hf
    | some p =>
      obtain ⟨seq, id⟩ := p
      obtain ⟨j, hj, hst, rfl, hseq⟩ := buried_job h hts (TreeMap.firstEntry_eq_some_iff.mp hf).1
      obtain ⟨hhead, hout⟩ := unbury_takenOut h hts hf hj hst rfl hseq
      have hk := hout.kicked hj (.inl hst) now
      have hstep : kickBuried now j.tube e =
          some ((e.unbury j.tube seq).kickToReady j.tube id now) := by
        simp only [kickBuried, popBuriedFront, Engine.tube, hts, Option.bind_some, hf]
      refine .inr ⟨id, _, _, hhead, hstep, ?_, kickBuried_core h hstep, hk⟩
      exact (hk.buried j.tube).trans (hout.buried j.tube).symm

theorem kickDelayed_drains (now : Nanos) (tube : TubeId) :
    Drains now (fun e => e.delayedIn tube) (kickDelayed now tube) := by
  intro e h
  cases hts : Slab.get e.tubes tube with
  | none =>
    refine .inl ⟨(lists_none hts).2, ?_⟩
    simp only [kickDelayed, Engine.tube, hts, Option.bind_none]
  | some ts =>
    cases hf : TreeMap.first ts.delayed with
    | none =>
      refine .inl ⟨?_, by simp only [kickDelayed, Engine.tube, hts, Option.bind_some, hf]⟩
      simp only [(lists_some (Slab.view_of_get hts)).2]
      rw [List.map_eq_nil_iff, ← List.head?_eq_none_iff]
      exact hf
    | some p =>
      obtain ⟨d, id⟩ := p
      obtain ⟨j, hj, hst, rfl, hd⟩ := delayed_job h hts (TreeMap.first_eq_some_iff.mp hf).1
      obtain ⟨hhead, hout⟩ := removeDelayed_takenOut h hts hf hj hst rfl hd
      have hk := hout.kicked hj (.inr hst) now
      have hstep : kickDelayed now j.tube e =
          some ((e.removeDelayed j.tube id).kickToReady j.tube id now) := by
        simp only [kickDelayed, Engine.tube, hts, Option.bind_some, hf]
      refine .inr ⟨id, _, _, hhead, hstep, ?_, kickDelayed_core h hstep, hk⟩
      exact (hk.delayed j.tube).trans (hout.delayed j.tube).symm

theorem kickLoop_kicked {list : Engine → List JobId} {step : Engine → Option Engine}
    (hd : Drains now list step) : ∀ (n : Nat) (e : Engine) (count : Nat), Core {} e →
      Kicked now ((list e).take n) [] e (kickLoop step n e count).1 ∧
        (kickLoop step n e count).2 = count + min n (list e).length := by
  intro n
  induction n with
  | zero => exact fun e count _ => ⟨.refl now e, by simp [kickLoop]⟩
  | succ n ih =>
    intro e count h
    rcases hd e h with ⟨hl, hs⟩ | ⟨i, rest, e', hl, hs, hl', h', hk⟩
    · simp only [kickLoop, hs, hl]
      exact ⟨.refl now e, by simp⟩
    obtain ⟨hk', hcount⟩ := ih e' (count + 1) h'
    simp only [kickLoop, hs, hl, List.take_succ_cons]
    rw [hl'] at hk' hcount
    refine ⟨hk.trans hk', ?_⟩
    rw [hcount, List.length_cons]
    omega

/-! ## The command -/

theorem Kicked.answered (h : Kicked now moved [] e e₁) (c : ConnId)
    (r : Response) : Kicked now moved (e.said c r) e (e₁.reply c r) := by
  have hout := reply_out e₁ c r
  have hsame := reply_same e₁ c r
  obtain ⟨_, hf⟩ := reply_frame e₁ c r
  rw [hf] at hout hsame ⊢
  obtain ⟨served, hserved, hwaited⟩ := h.out
  exact { h with
    same := h.same.trans hsame
    out := ⟨served, by rw [hout, hserved, List.append_nil, said_same h.same], hwaited⟩ }

/-- Which of the two lists a kick takes. -/
theorem hasBuried_eq (e : Engine) (t : TubeId) :
    ((e.tube t).any fun t => !t.buried.isEmpty) = !(e.buriedIn t).isEmpty := by
  unfold buriedIn Engine.tube Slab.view
  cases Slab.get e.tubes t with
  | none => rfl
  | some ts =>
    show (!ts.buried.isEmpty) = !(ts.buried.toList.map Prod.snd).isEmpty
    rw [List.isEmpty_map, ExtTreeMap.isEmpty_toList]

/-- `kick n` kicks the first `n` jobs of the list, and says how many there were. -/
theorem kick_moves (h : e.validate = .ok ()) (hc : e.conns.contains c = true) (now : Nanos)
    (n : Nat) :
    Kicked now ((e.kickOrder (e.useTubeOf c)).take n)
      (e.said c (.kicked (min n (e.kickOrder (e.useTubeOf c)).length))) e
      (e.handle now c (.kick n)) := by
  have hcore : Core {} e := (validate_ok_iff.mp h).1.core
  unfold handle
  rw [if_pos hc]
  unfold cmdKick
  extract_lets e₁ tube hasBuried step
  have hcount : Kicked now [] [] e e₁ := { Kicked.refl now e with same := countOp_same e _ }
  have hdrains : Drains now
      (fun e => if hasBuried then e.buriedIn tube else e.delayedIn tube) step := by
    cases hb : hasBuried with
    | true => simpa [step, hb] using kickBuried_drains now tube
    | false => simpa [step, hb] using kickDelayed_drains now tube
  have horder : e.kickOrder tube = if hasBuried then e₁.buriedIn tube else e₁.delayedIn tube := by
    rw [kickOrder, show hasBuried = !(e.buriedIn tube).isEmpty from hasBuried_eq e tube]
    cases hb : e.buriedIn tube with
    | nil => rfl
    | cons i l => exact hb.symm
  obtain ⟨hkick, hn⟩ := kickLoop_kicked hdrains n e₁ 0 (countOp_core hcore)
  have hk := (hcount.trans hkick).answered c (.kicked (kickLoop step n e₁ 0).2)
  show Kicked now _ _ e
    ((kickLoop step n e₁ 0).1.reply c (.kicked (kickLoop step n e₁ 0).2))
  rw [hn, Nat.zero_add, ← horder] at hk ⊢
  exact hk

/-- Connection 1 put two jobs and buried them, and connection 2 waits. -/
def twoBuried : Engine :=
  let e := ((Engine.new 0 ⟨65535, 0, true⟩ quietSys).connect 1).connect 2
  let e := (e.handle 0 1 (.put 7 0 60 [])).handle 0 1 (.put 7 0 60 [])
  let e := (e.handle 0 1 .reserve).handle 0 1 .reserve
  let e := (e.handle 0 1 (.bury 2 7)).handle 0 1 (.bury 1 7)
  e.handle 0 2 .reserve

/-- Both jobs are kicked; the first goes to connection 2. -/
theorem twoBuried_kicked :
    Kicked 0 [2, 1] [(1, .kicked 2)] twoBuried (twoBuried.handle 0 1 (.kick 5)) ∧
      (twoBuried.handle 0 1 (.kick 5)).out =
        twoBuried.out ++ [(2, .reserved 2 []), (1, .kicked 2)] := by
  have h := kick_moves (e := twoBuried) (c := 1) (by decide +kernel) (by decide +kernel) 0 5
  have horder : twoBuried.kickOrder (twoBuried.useTubeOf 1) = [2, 1] := by decide +kernel
  have hsaid : twoBuried.said 1 (.kicked (min 5 [2, 1].length)) = [(1, .kicked 2)] := by
    decide +kernel
  rw [horder, hsaid] at h
  exact ⟨h, by decide +kernel⟩

end Engine

end Beanstalkd
