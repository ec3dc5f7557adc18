import Beanstalkd.Engine.ValidateTables

/-!
# What `validate` accepts: the queues

The second part: the sets and lists of each tube, the counters, and the totals.
The source checks the entries against the jobs, and the jobs against the entries
only as far as it can look them up directly (ready and delayed jobs); for
buried and reserved jobs it compares the number of entries with the number of
jobs. Since no job has two entries, that makes the entries exactly the jobs,
which is the content of `Placed`.
-/

open Std

namespace Beanstalkd

open Check (ensure each)

namespace Engine

variable {e : Engine} {tid : TubeId} {t : TubeState} {p : JobRec → Bool}

/-! ## One tube -/

/-- What `validate` asks of one tube by itself. -/
structure TubeFacts (e : Engine) (tid : TubeId) (t : TubeState) : Prop where
  ready {p : Nat} {i : JobId} : (p, i) ∈ t.ready →
    ∃ j, e.jobs[i]? = some j ∧ j.state = .ready ∧ j.tube = tid ∧ j.pri = p
  delayed {d : Nanos} {i : JobId} : (d, i) ∈ t.delayed →
    ∃ j, e.jobs[i]? = some j ∧ j.state = .delayed ∧ j.tube = tid ∧ j.deadlineAt = d
  buried {s : Nat} {i : JobId} : t.buried[s]? = some i →
    ∃ j, e.jobs[i]? = some j ∧ j.state = .buried ∧ j.tube = tid ∧ j.listSeq = s ∧ s < e.nextListSeq
  waiters : ∀ c ∈ t.waitingConns.items, e.waitPair c tid = true
  waitersNodup : t.waitingConns.items.Nodup
  waitersAll : t.waitingConns.items.length = e.recountWaiters tid
  urgentCt : t.stat.urgentCt = tubeUrgent t
  buriedCt : t.stat.buriedCt = t.buried.size
  reservedCt : t.stat.reservedCt = e.recountReservedIn tid
  waitingCt : t.stat.waitingCt = e.recountWaiters tid
  usingCt : t.usingCt = e.recountUsing tid
  watchingCt : t.watchingCt = e.recountWatching tid
  jobRefCt : t.jobRefCt = e.recountJobRefs tid
  referenced : tid = defaultTubeId ∨
    0 < e.recountUsing tid + e.recountWatching tid + e.recountJobRefs tid
  head : t.delayHead = (TreeMap.first t.delayed).map fun (d, _) => d
  flag : t.dispatchable = t.wantsDispatch
  calm : t.wantsDispatch = false ∨ 0 < t.pause

/-- The buried jobs of a tube. -/
def buriedKeys (x : TubeId × TubeState) : List JobId := TreeMap.values x.2.buried

theorem each_checkReady_ok :
    (each t.ready.toList fun _ (pri, id) => e.checkReady tid pri id) = .ok () ↔
      ∀ (p : Nat) (i : JobId), (p, i) ∈ t.ready →
        ∃ j, e.jobs[i]? = some j ∧ j.state = .ready ∧ j.tube = tid ∧ j.pri = p := by
  rw [Check.each_ok_of_const]
  · exact ⟨fun h p i hp => h (p, i) (ExtTreeSet.mem_toList.mpr hp),
      fun h x hx => h x.1 x.2 (ExtTreeSet.mem_toList.mp hx)⟩
  · rintro s ⟨p, i⟩
    simp [checkReady, Option.any_eq_true, and_assoc]

theorem each_checkDelayed_ok :
    (each t.delayed.toList fun _ (d, id) => e.checkDelayed tid d id) = .ok () ↔
      ∀ (d : Nanos) (i : JobId), (d, i) ∈ t.delayed →
        ∃ j, e.jobs[i]? = some j ∧ j.state = .delayed ∧ j.tube = tid ∧ j.deadlineAt = d := by
  rw [Check.each_ok_of_const]
  · exact ⟨fun h d i hd => h (d, i) (ExtTreeSet.mem_toList.mpr hd),
      fun h x hx => h x.1 x.2 (ExtTreeSet.mem_toList.mp hx)⟩
  · rintro s ⟨d, i⟩
    simp [checkDelayed, Option.any_eq_true, and_assoc]

theorem each_checkBuried_ok {before : List JobId} :
    (each t.buried.toList fun seen (seq, id) => e.checkBuried tid before seen seq id) = .ok () ↔
      (∀ (s : Nat) (i : JobId), t.buried[s]? = some i → ∃ j, e.jobs[i]? = some j ∧
        j.state = .buried ∧ j.tube = tid ∧ j.listSeq = s ∧ s < e.nextListSeq) ∧
      ∀ i ∈ TreeMap.values t.buried, i ∉ before := by
  rw [Check.each_ok_of_fresh (P := fun x : Nat × JobId => (∃ j, e.jobs[x.2]? = some j ∧
    j.state = .buried ∧ j.tube = tid ∧ j.listSeq = x.1 ∧ x.1 < e.nextListSeq) ∧ x.2 ∉ before)
    Prod.snd]
  · constructor
    · rintro ⟨h, -⟩
      refine ⟨fun s i hs => (h (s, i) (Cover.mem_toList.mpr hs)).1, fun i hi => ?_⟩
      obtain ⟨s, hs⟩ := TreeMap.mem_values.mp hi
      exact (h (s, i) (Cover.mem_toList.mpr hs)).2
    · rintro ⟨h, hbefore⟩
      refine ⟨fun x hx => ⟨h x.1 x.2 (Cover.mem_toList.mp hx),
        hbefore x.2 (TreeMap.mem_values.mpr ⟨x.1, Cover.mem_toList.mp hx⟩)⟩, ?_⟩
      refine TreeMap.nodup_values fun s s' i hs hs' => ?_
      obtain ⟨j, hj, -, -, rfl, -⟩ := h s i hs
      obtain ⟨j', hj', -, -, rfl, -⟩ := h s' i hs'
      rw [hj] at hj'
      cases hj'
      rfl
  · rintro seen ⟨s, i⟩
    simp only [checkBuried, Check.bind_ok, Check.ensure_ok, Option.any_eq_true, Bool.and_eq_true,
      beq_iff_eq, List.mem_append, not_or]
    constructor
    · rintro ⟨⟨j, hj, hst, ht⟩, ⟨hb, hs⟩, ⟨j', hj', hseq⟩, hlt⟩
      rw [hj] at hj'
      cases hj'
      exact ⟨⟨⟨j, hj, hst, ht, hseq, hlt⟩, hb⟩, hs⟩
    · rintro ⟨⟨⟨j, hj, hst, ht, hseq, hlt⟩, hb⟩, hs⟩
      exact ⟨⟨j, hj, hst, ht⟩, ⟨hb, hs⟩, ⟨j, hj, hseq⟩, hlt⟩

theorem each_checkWaiter_ok {l : List ConnId} :
    each l (e.checkWaiter tid) = .ok () ↔ (∀ c ∈ l, e.waitPair c tid = true) ∧ l.Nodup := by
  rw [Check.each_ok_of_fresh id, List.map_id]
  intro s c
  simp only [checkWaiter, Check.bind_ok, Check.ensure_ok, List.map_id, id]

theorem checkTube_ok {before : List (TubeId × TubeState)} :
    e.checkTube before tid t = .ok () ↔
      TubeFacts e tid t ∧ ∀ i ∈ buriedKeys (tid, t), i ∉ before.flatMap buriedKeys := by
  unfold checkTube checkTubeCounts checkTubeIndexes
  simp only [Check.bind_ok, Check.ensure_ok, each_checkReady_ok, each_checkDelayed_ok,
    each_checkBuried_ok, each_checkWaiter_ok]
  constructor
  · rintro ⟨h₁, h₂, ⟨h₃, hfresh⟩, ⟨h₄, h₅⟩, ⟨h₆, h₇, h₈, h₉, h₁₀, h₁₁, h₁₂, h₁₃, h₁₄⟩, h₁₅, h₁₆,
      h₁₇⟩
    exact ⟨⟨h₁ _ _, h₂ _ _, h₃ _ _, h₄, h₅, h₆, h₇, h₈, h₉, h₁₀, h₁₁, h₁₂, h₁₃, h₁₄, h₁₅, h₁₆, h₁₇⟩,
      hfresh⟩
  · rintro ⟨h, hfresh⟩
    exact ⟨fun _ _ => h.ready, fun _ _ => h.delayed, ⟨fun _ _ => h.buried, hfresh⟩,
      ⟨h.waiters, h.waitersNodup⟩, ⟨h.waitersAll, h.urgentCt, h.buriedCt, h.reservedCt, h.waitingCt,
      h.usingCt, h.watchingCt, h.jobRefCt, h.referenced⟩, h.head, h.flag, h.calm⟩

/-- A buried job is in one tube, so the test across tubes adds nothing. -/
theorem each_checkTube_ok :
    (each (Slab.entries e.tubes) fun before (tid, t) => e.checkTube before tid t) = .ok () ↔
      ∀ (tid : TubeId) (t : TubeState), Slab.get e.tubes tid = some t → TubeFacts e tid t := by
  rw [Check.each_ok_of_disjoint
    buriedKeys fun _ _ => checkTube_ok]
  constructor
  · rintro ⟨h, -⟩ tid t ht
    exact h (tid, t) (Cover.mem_entries.mpr ht)
  intro h
  refine ⟨fun x hx => h x.1 x.2 (Cover.mem_entries.mp hx), ?_⟩
  have hk := Cover.nodup_keys_entries e.tubes
  rw [List.Nodup, List.pairwise_map] at hk
  refine hk.imp_of_mem fun {x y} hx hy hne i hi hi' => hne ?_
  obtain ⟨s, hs⟩ := TreeMap.mem_values.mp hi
  obtain ⟨s', hs'⟩ := TreeMap.mem_values.mp hi'
  obtain ⟨j, hj, -, ht, -⟩ := (h x.1 x.2 (Cover.mem_entries.mp hx)).buried hs
  obtain ⟨j', hj', -, ht', -⟩ := (h y.1 y.2 (Cover.mem_entries.mp hy)).buried hs'
  rw [hj] at hj'
  cases hj'
  exact ht.symm.trans ht'

/-! ## Entries against jobs -/

/-- The entries of one tube are the jobs of a kind in it: as many. -/
theorem length_eq_count {l : List JobId} (hnd : l.Nodup)
    (hl : ∀ i, i ∈ l ↔ ∃ j, e.jobs[i]? = some j ∧ p j = true ∧ j.tube = tid) :
    l.length = TreeMap.count (fun _ j => j.tube == tid && p j) e.jobs := by
  refine (Cover.count_eq_length_iff hnd fun i hi => ?_).mpr fun i j hj hp => ?_
  · obtain ⟨j, hj, hp, ht⟩ := (hl i).mp hi
    exact ⟨j, hj, by simp [hp, ht]⟩
  · rw [Bool.and_eq_true, beq_iff_eq] at hp
    exact (hl i).mpr ⟨j, hj, hp.2, hp.1⟩

/-- Entries of all tubes that are jobs of a kind: as many as there are just if
no job of the kind is missing. -/
theorem tubeSum_eq_count_iff {f : TubeState → List JobId}
    (hnd : ∀ (tid : TubeId) (t : TubeState), Slab.get e.tubes tid = some t → (f t).Nodup)
    (hf : ∀ (tid : TubeId) (t : TubeState), Slab.get e.tubes tid = some t → ∀ i ∈ f t,
      ∃ j, e.jobs[i]? = some j ∧ p j = true ∧ j.tube = tid) :
    e.tubeSum (fun t => (f t).length) = TreeMap.count (fun _ j => p j) e.jobs ↔
      ∀ (i : JobId) (j : JobRec), e.jobs[i]? = some j → p j = true →
        ∃ t, Slab.get e.tubes j.tube = some t ∧ i ∈ f t := by
  have hnodup : ((Slab.entries e.tubes).flatMap fun x => f x.2).Nodup :=
    Cover.nodup_flatMap Prod.fst (fun i => e.jobs[i]?.map JobRec.tube)
      (Cover.nodup_keys_entries _) (fun x hx => hnd x.1 x.2 (Cover.mem_entries.mp hx))
      (fun x hx i hi => by
        obtain ⟨j, hj, -, ht⟩ := hf x.1 x.2 (Cover.mem_entries.mp hx) i hi
        rw [hj, Option.map_some, ht])
  have hcount := Cover.count_eq_length_iff hnodup (by
    intro i hi
    obtain ⟨x, hx, hi⟩ := List.mem_flatMap.mp hi
    obtain ⟨j, hj, hp, -⟩ := hf x.1 x.2 (Cover.mem_entries.mp hx) i hi
    exact ⟨j, hj, hp⟩)
  rw [List.length_flatMap] at hcount
  rw [tubeSum, hcount]
  refine forall_congr' fun i => forall_congr' fun j => forall_congr' fun hj =>
    forall_congr' fun _ => ?_
  rw [List.mem_flatMap]
  constructor
  · rintro ⟨x, hx, hi⟩
    have hx' := Cover.mem_entries.mp hx
    obtain ⟨j', hj', -, ht⟩ := hf x.1 x.2 hx' i hi
    rw [hj] at hj'
    cases hj'
    exact ⟨x.2, ht ▸ hx', hi⟩
  · rintro ⟨t, ht, hi⟩
    exact ⟨(j.tube, t), Cover.mem_entries.mpr ht, hi⟩

/-- The same for the reservations of the connections. -/
theorem reservedEntries_eq_iff
    (hf : ∀ (c : ConnId) (k : ConnState), e.conns[c]? = some k → ConnFacts e c k) :
    e.reservedEntries = e.recountState .reserved ↔
      ∀ (i : JobId) (j : JobRec), e.jobs[i]? = some j → j.state = .reserved →
        ∃ c k, j.reserver = some c ∧ e.conns[c]? = some k ∧ k.reserved[j.listSeq]? = some i := by
  have hheld {c : ConnId} {k : ConnState} (hc : e.conns[c]? = some k) {i : JobId}
      (hi : i ∈ TreeMap.values k.reserved) : ∃ j, e.jobs[i]? = some j ∧ j.state = .reserved ∧
        j.reserver = some c ∧ k.reserved[j.listSeq]? = some i := by
    obtain ⟨s, hs⟩ := TreeMap.mem_values.mp hi
    obtain ⟨j, hj, hst, hr, rfl, -⟩ := (hf c k hc).held hs
    exact ⟨j, hj, hst, hr, hs⟩
  have hnodup : (e.conns.toList.flatMap fun x => TreeMap.values x.2.reserved).Nodup := by
    refine Cover.nodup_flatMap Prod.fst (fun i => e.jobs[i]?.bind JobRec.reserver) 
      (Cover.nodup_keys_toList _) ?_ ?_
    · intro x hx
      refine TreeMap.nodup_values fun s s' i hs hs' => ?_
      obtain ⟨j, hj, -, -, rfl, -⟩ := (hf x.1 x.2 (Cover.mem_toList.mp hx)).held hs
      obtain ⟨j', hj', -, -, rfl, -⟩ := (hf x.1 x.2 (Cover.mem_toList.mp hx)).held hs'
      rw [hj] at hj'
      cases hj'
      rfl
    · intro x hx i hi
      obtain ⟨j, hj, -, hr, -⟩ := hheld (Cover.mem_toList.mp hx) hi
      rw [hj, Option.bind_some, hr]
  have hcount := Cover.count_eq_length_iff (p := fun _ j => j.state == .reserved) (m := e.jobs)
    hnodup (by
      intro i hi
      obtain ⟨x, hx, hi⟩ := List.mem_flatMap.mp hi
      obtain ⟨j, hj, hst, -⟩ := hheld (Cover.mem_toList.mp hx) hi
      exact ⟨j, hj, by simp [hst]⟩)
  rw [List.length_flatMap] at hcount
  have hlen (k : ConnState) : (TreeMap.values k.reserved).length = k.reserved.size := by
    rw [TreeMap.values, List.length_map, ExtTreeMap.length_toList]
  simp only [hlen] at hcount
  rw [reservedEntries, recountState, hcount]
  refine forall_congr' fun i => forall_congr' fun j => forall_congr' fun hj => ?_
  rw [beq_iff_eq]
  refine forall_congr' fun _ => ?_
  rw [List.mem_flatMap]
  constructor
  · rintro ⟨x, hx, hi⟩
    obtain ⟨j', hj', -, hr, hs⟩ := hheld (Cover.mem_toList.mp hx) hi
    rw [hj] at hj'
    cases hj'
    exact ⟨x.1, x.2, hr, Cover.mem_toList.mp hx, hs⟩
  · rintro ⟨c, k, -, hc, hs⟩
    exact ⟨(c, k), Cover.mem_toList.mpr hc, TreeMap.mem_values.mpr ⟨_, hs⟩⟩

end Engine

end Beanstalkd
