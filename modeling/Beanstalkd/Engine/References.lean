import Beanstalkd.Engine.Directory

/-!
# Reference counts

A tube counts the connections that use it, those that watch it and the jobs in
it, and is destroyed with its last reference. `RefsOk` is kept by every change
of who refers to what, provided the tube concerned adjusts its count by the
same amount (`RefsOk.update`); a tube that may have lost its last reference is
an orphan until `gc_tube_if_orphan` has looked at it.

What refers to what is given by three maps, which need not be what the
connections say at that moment: `use`, `ignore` and `disconnect` adjust a count
and collect the tube before or after they change the connection.
-/

open Std

namespace Beanstalkd

open Slab (setAt)

section Refs

variable {o o' w : List TubeId} {refs : TubeId → Option RefCts} {U U' : ExtTreeMap ConnId TubeId}
  {W W' : ExtTreeMap ConnId (List TubeId)} {H H' : ExtTreeMap JobId TubeId} {c : ConnId}
  {i k : TubeId} {r r' : RefCts}

/-- All references counted. -/
def RefCts.total (r : RefCts) : Nat := r.usingCt + r.watchingCt + r.jobRefCt

/-- One tube's count changes, and so does what refers to it. -/
theorem RefsOk.update (h : RefsOk o refs U W H) (hr : r' = refsOf U' W' H' i)
    (hoff : ∀ k, k ≠ i → refsOf U' W' H' k = refsOf U W H k)
    (hU : ∀ (c : ConnId) k, U'[c]? = some k → k = i ∨ ∃ c : ConnId, U[c]? = some k)
    (hi : i = defaultTubeId ∨ i ∈ o' ∨ 0 < r'.total) (ho : ∀ k ∈ o, k ≠ i → k ∈ o') :
    RefsOk o' (setAt refs i (some r')) U' W' H' where
  counts := by
    intro k rk hk
    obtain ⟨rfl, ⟨⟩⟩ | ⟨hik, hk⟩ := Slab.of_setAt hk
    · exact hr
    · rw [hoff k (Ne.symm hik)]
      exact h.counts hk
  use_live := by
    intro c k hk
    by_cases hik : i = k
    · subst hik
      exact ⟨_, Slab.setAt_self ..⟩
    rw [Slab.setAt_ne hik]
    rcases hU c k hk with he | ⟨c', hc'⟩
    · exact absurd he.symm hik
    · exact h.use_live hc'
  referenced := by
    intro k rk hk
    obtain ⟨rfl, ⟨⟩⟩ | ⟨hik, hk⟩ := Slab.of_setAt hk
    · exact hi
    rcases h.referenced hk with hd | hm | hp
    · exact .inl hd
    · exact .inr (.inl (ho k hm (Ne.symm hik)))
    · exact .inr (.inr hp)

/-- A tube that is referenced is no orphan. -/
theorem RefsOk.settle (h : RefsOk (i :: o) refs U W H) (hi : 0 < (refsOf U W H i).total) :
    RefsOk o refs U W H where
  counts := h.counts
  use_live := h.use_live
  referenced := by
    intro k rk hk
    rcases h.referenced hk with hd | hm | hp
    · exact .inl hd
    · rcases List.mem_cons.mp hm with rfl | hm
      · rw [← h.counts hk] at hi
        exact .inr (.inr hi)
      · exact .inr (.inl hm)
    · exact .inr (.inr hp)

/-- Looking again changes nothing for the others. -/
theorem RefsOk.mono (h : RefsOk o refs U W H) (ho : ∀ k ∈ o, k ∈ o') : RefsOk o' refs U W H :=
  ⟨h.counts, h.use_live, fun hk => (h.referenced hk).imp_right (Or.imp_left (ho _))⟩

/-- A new tube is an orphan. -/
theorem RefsOk.make (h : RefsOk o refs U W H) (hz : refsOf U W H i = ⟨0, 0, 0⟩) :
    RefsOk (i :: o) (setAt refs i (some ⟨0, 0, 0⟩)) U W H :=
  h.update hz.symm (fun _ _ => rfl)
    (fun _ _ hc => .inr ⟨_, hc⟩) (.inr (.inl List.mem_cons_self))
    fun _ hk _ => List.mem_cons_of_mem _ hk

/-- A tube without references can go. -/
theorem RefsOk.drop (h : RefsOk (i :: o) refs U W H) (hi : refs i = some r) (hz : r.total = 0) :
    RefsOk o (setAt refs i none) U W H where
  counts := by
    intro k rk hk
    obtain ⟨rfl, ⟨⟩⟩ | ⟨hik, hk⟩ := Slab.of_setAt hk
    exact h.counts hk
  use_live := by
    intro c k hk
    by_cases hik : i = k
    · subst hik
      have hc : 0 < (refsOf U W H i).usingCt :=
        TreeMap.count_pos_iff.mpr ⟨c, i, hk, beq_self_eq_true i⟩
      rw [← h.counts hi] at hc
      unfold RefCts.total at hz
      omega
    · rw [Slab.setAt_ne hik]
      exact h.use_live hk
  referenced := by
    intro k rk hk
    obtain ⟨rfl, ⟨⟩⟩ | ⟨hik, hk⟩ := Slab.of_setAt hk
    rcases h.referenced hk with hd | hm | hp
    · exact .inl hd
    · exact .inr (.inl ((List.mem_cons.mp hm).resolve_left (Ne.symm hik)))
    · exact .inr (.inr hp)

/-! ## One reference more or less -/

theorem RefsOk.unuse (h : RefsOk o refs U W H) (hi : refs i = some r) (hc : U[c]? = some i) :
    RefsOk (i :: o) (setAt refs i (some { r with usingCt := r.usingCt - 1 })) (U.erase c) W H := by
  have hcount (k : TubeId) := TreeMap.count_erase (p := fun _ t => t == k) hc
  refine h.update ?_ (fun k hk => ?_) (fun c' k hk => .inr ⟨c', ?_⟩)
    (.inr (.inl List.mem_cons_self)) fun _ hk _ => List.mem_cons_of_mem _ hk
  · have := hcount i
    rw [h.counts hi]
    simp only [refsOf, RefCts.mk.injEq, and_true]
    simp at this
    omega
  · have := hcount k
    have hne : (i == k) = false := by simpa using Ne.symm hk
    rw [hne] at this
    simp only [refsOf, RefCts.mk.injEq, and_true]
    exact this
  · exact (TreeMap.erase_eq_some_iff.mp hk).2

theorem RefsOk.use (h : RefsOk o refs U W H) (hi : refs i = some r) (hc : U[c]? = none)
    (ho : ∀ k ∈ o, k ≠ i → k ∈ o') :
    RefsOk o' (setAt refs i (some { r with usingCt := r.usingCt + 1 })) (U.insert c i) W H := by
  have hcount (k : TubeId) := TreeMap.count_insert (p := fun _ t => t == k) hc i
  refine h.update ?_ (fun k hk => ?_) (fun c' k hk => ?_) (.inr (.inr ?_)) ho
  · rw [h.counts hi]
    simp only [refsOf, hcount, beq_self_eq_true, Bool.toNat_true]
  · have hne : (i == k) = false := by simpa using Ne.symm hk
    simp only [refsOf, hcount, hne, Bool.toNat_false, Nat.add_zero]
  · rcases (TreeMap.insert_eq_some_iff hc).mp hk with ⟨-, rfl⟩ | hk
    · exact .inl rfl
    · exact .inr ⟨c', hk⟩
  · simp only [RefCts.total]
    omega

theorem RefsOk.home (h : RefsOk o refs U W H) {id : JobId} (hi : refs i = some r)
    (hc : H[id]? = none) (ho : ∀ k ∈ o, k ≠ i → k ∈ o') :
    RefsOk o' (setAt refs i (some { r with jobRefCt := r.jobRefCt + 1 })) U W (H.insert id i) := by
  have hcount (k : TubeId) := TreeMap.count_insert (p := fun _ t => t == k) hc i
  refine h.update ?_ (fun k hk => ?_) (fun c' k hk => .inr ⟨c', hk⟩) (.inr (.inr ?_)) ho
  · rw [h.counts hi]
    simp only [refsOf, hcount, beq_self_eq_true, Bool.toNat_true]
  · have hne : (i == k) = false := by simpa using Ne.symm hk
    simp only [refsOf, hcount, hne, Bool.toNat_false, Nat.add_zero]
  · simp only [RefCts.total]
    omega

theorem RefsOk.unhome (h : RefsOk o refs U W H) {id : JobId} (hi : refs i = some r)
    (hc : H[id]? = some i) :
    RefsOk (i :: o) (setAt refs i (some { r with jobRefCt := r.jobRefCt - 1 })) U W
      (H.erase id) := by
  have hcount (k : TubeId) := TreeMap.count_erase (p := fun _ t => t == k) hc
  refine h.update ?_ (fun k hk => ?_) (fun c' k hk => .inr ⟨c', hk⟩)
    (.inr (.inl List.mem_cons_self)) fun _ hk _ => List.mem_cons_of_mem _ hk
  · have := hcount i
    rw [h.counts hi]
    simp only [refsOf, RefCts.mk.injEq, true_and]
    simp at this
    omega
  · have := hcount k
    have hne : (i == k) = false := by simpa using Ne.symm hk
    rw [hne] at this
    simp only [refsOf, RefCts.mk.injEq, true_and]
    exact this

/-- How the number of watchers of `k` changes with one watch list. -/
theorem watching_insert (hc : W[c]? = some w) (w' : List TubeId) (k : TubeId) :
    (refsOf U (W.insert c w') H k).watchingCt + (w.contains k).toNat =
      (refsOf U W H k).watchingCt + (w'.contains k).toNat := by
  have hcount := TreeMap.count_off (p := fun _ (w : List TubeId) => w.contains k)
    (q := fun _ (w : List TubeId) => w.contains k) (m := W) (n := W.insert c w') c (by
      intro c' hne
      rw [ExtTreeMap.getElem?_insert]
      simp [Ne.symm hne])
  rw [hc, ExtTreeMap.getElem?_insert_self, TreeMap.hit_some, TreeMap.hit_some] at hcount
  exact hcount

theorem RefsOk.watch (h : RefsOk o refs U W H) (hi : refs i = some r) (hc : W[c]? = some w)
    (hw : i ∉ w) (ho : ∀ k ∈ o, k ≠ i → k ∈ o') :
    RefsOk o' (setAt refs i (some { r with watchingCt := r.watchingCt + 1 })) U
      (W.insert c (w ++ [i])) H := by
  have hcount (k : TubeId) := watching_insert (U := U) (H := H) hc (w ++ [i]) k
  refine h.update ?_ (fun k hk => ?_) (fun c' k hk => .inr ⟨c', hk⟩) (.inr (.inr ?_)) ho
  · have hi₁ : w.contains i = false := by simpa using hw
    have hi₂ : (w ++ [i]).contains i = true := by simp
    have := hcount i
    rw [hi₁, hi₂] at this
    rw [h.counts hi]
    simp only [refsOf, RefCts.mk.injEq, true_and, and_true, Bool.toNat_true, Bool.toNat_false]
      at this ⊢
    omega
  · have hk' : (w ++ [i]).contains k = w.contains k := by
      rw [Bool.eq_iff_iff]
      simp [hk]
    have := hcount k
    rw [hk'] at this
    simp only [refsOf, RefCts.mk.injEq, true_and, and_true] at this ⊢
    omega
  · simp only [RefCts.total]
    omega

theorem RefsOk.unwatch (h : RefsOk o refs U W H) {w' : List TubeId} (hi : refs i = some r)
    (hc : W[c]? = some w) (hnd : w.Nodup) (hw : w.Perm (i :: w')) :
    RefsOk (i :: o) (setAt refs i (some { r with watchingCt := r.watchingCt - 1 })) U
      (W.insert c w') H := by
  have hcount (k : TubeId) := watching_insert (U := U) (H := H) hc w' k
  refine h.update ?_ (fun k hk => ?_) (fun c' k hk => .inr ⟨c', hk⟩)
    (.inr (.inl List.mem_cons_self)) fun _ hk _ => List.mem_cons_of_mem _ hk
  · have hi₁ : w.contains i = true := by simp [hw.mem_iff]
    have hi₂ : w'.contains i = false := by
      simpa using (List.nodup_cons.mp (hw.nodup_iff.mp hnd)).1
    have := hcount i
    rw [hi₁, hi₂] at this
    rw [h.counts hi]
    simp only [refsOf, RefCts.mk.injEq, true_and, and_true, Bool.toNat_true, Bool.toNat_false]
      at this ⊢
    omega
  · have hk' : w.contains k = w'.contains k := by
      simp [hw.mem_iff, hk]
    have := hcount k
    rw [hk'] at this
    simp only [refsOf, RefCts.mk.injEq, true_and, and_true] at this ⊢
    omega

end Refs

namespace Engine

variable {e : Engine} {id : TubeId} {name : TubeName} {o o' : List TubeId}
  {U : ExtTreeMap ConnId TubeId} {W : ExtTreeMap ConnId (List TubeId)}

/-- The references of an engine, with the uses and watches `U` and `W`. -/
def Refs (o : List TubeId) (U : ExtTreeMap ConnId TubeId) (W : ExtTreeMap ConnId (List TubeId))
    (e : Engine) : Prop :=
  RefsOk o (Slab.view TubeState.refCts e.tubes) U W e.homes

/-! ## Making and destroying tubes -/

theorem homes_of_job {i : JobId} {j : JobRec} (hj : e.jobs[i]? = some j) :
    e.homes[i]? = some j.tube := TreeMap.map_of hj

theorem Made.refs {e' : Engine} (hm : Made e name e' id) (h : Core {} e)
    (hr : Refs o e.uses e.watches e) : Refs (id :: o) e'.uses e'.watches e' := by
  have hdead {i : TubeId} {s : TubeName × Nat} (hi : Slab.view TubeState.sig e.tubes i = some s) :
      i ≠ id := by
    rintro rfl
    rw [hm.view_none] at hi
    cases hi
  -- nothing refers to a slot that was free
  have hz : refsOf e.uses e.watches e.homes id = ⟨0, 0, 0⟩ := by
    simp only [refsOf, RefCts.mk.injEq]
    refine ⟨?_, ?_, ?_⟩ <;> refine Nat.eq_zero_of_not_pos fun hp => ?_
    · obtain ⟨c, i, hc, hi⟩ := TreeMap.count_pos_iff.mp hp
      obtain ⟨r, hr⟩ := hr.use_live hc
      rw [eq_of_beq hi, hm.view_none] at hr
      cases hr
    · obtain ⟨c, w, hc, hw⟩ := TreeMap.count_pos_iff.mp hp
      obtain ⟨s, hs⟩ := h.watched.live hc id (by simpa using hw)
      exact hdead hs rfl
    · obtain ⟨i, t, hi, ht⟩ := TreeMap.count_pos_iff.mp hp
      obtain ⟨j, hj, rfl⟩ := TreeMap.map_eq_some_iff.mp hi
      obtain ⟨s, hs⟩ := h.housed i j hj
      exact hdead hs (eq_of_beq ht)
  have hmake := RefsOk.make hr hz
  obtain ⟨tubes, free, rfl⟩ := hm.frame
  exact hmake.congr (hm.view TubeState.refCts) rfl rfl rfl

/-- `gc_tube_if_orphan` settles whether the tube is an orphan. `W` counts at
least the watches the connections have. -/
theorem gcTubeIfOrphan_ok (h : Core {} e) (hr : Refs (id :: o) U W e)
    (hW : ∀ (c : ConnId) w, e.watches[c]? = some w → id ∈ w → ∃ (c' : ConnId) (w' : List TubeId),
      W[c']? = some w' ∧ id ∈ w') :
    Core {} (e.gcTubeIfOrphan id) ∧ Refs o U W (e.gcTubeIfOrphan id) := by
  rcases gcTubeIfOrphan_spec e id with ⟨heq, hlive⟩ | ⟨ts, hd⟩
  · rw [heq]
    refine ⟨h, hr.counts, hr.use_live, fun hi => ?_⟩
    rcases hr.referenced hi with hz | hm | hp
    · exact .inl hz
    · rcases List.mem_cons.mp hm with rfl | hm
      · rcases hlive with hz | hlive
        · exact .inl hz
        · obtain ⟨ts, ht, rfl⟩ := Slab.view_eq_some_iff.mp hi
          exact .inr (.inr (hlive ts ht))
      · exact .inr (.inl hm)
    · exact .inr (.inr hp)
  · have hrefs : Slab.view TubeState.refCts e.tubes id = some ts.refCts := Slab.view_of_get hd.was
    have hcounts := hr.counts hrefs
    have hz : ts.refCts.total = 0 := hd.unused
    have hz' := hz
    rw [hcounts] at hz'
    simp only [RefCts.total, refsOf] at hz'
    have hun : Unreferenced e id := by
      refine ⟨fun hj he => ?_, fun hw hmem => ?_⟩
      · have : 0 < TreeMap.count (fun _ t => t == id) e.homes :=
          TreeMap.count_pos_iff.mpr ⟨_, _, homes_of_job hj, by simp [he]⟩
        omega
      obtain ⟨c', w', hw', hmem'⟩ := hW _ _ hw hmem
      have : 0 < TreeMap.count (fun _ w => w.contains id) W :=
        TreeMap.count_pos_iff.mpr ⟨c', w', hw', by simpa using hmem'⟩
      omega
    refine ⟨hd.core h hun, ?_⟩
    have hdrop := RefsOk.drop hr hrefs hz
    have hview := hd.view (v := TubeState.refCts) fun _ _ => rfl
    obtain ⟨tubes, disp, hf⟩ := hd.frame
    rw [hf] at hview ⊢
    exact hdrop.congr hview rfl rfl rfl

end Engine

end Beanstalkd
