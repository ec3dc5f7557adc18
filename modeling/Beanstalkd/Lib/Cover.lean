import Mathlib.Algebra.Ring.Nat
import Mathlib.Data.List.Perm.Subperm
import Beanstalkd.Lib.Slab
import Beanstalkd.Lib.TreeMap

/-!
# Counting by listing

A list without repetitions whose elements all belong to a finite collection has
at most as many elements as the collection, and as many only if it lists all of
them. That is how a validator that compares two sizes knows that an index is
complete. `count_eq_length_iff` says it for the entries of a map that satisfy a
predicate, and `nodup_flatMap` shows that lists taken from several places have
no repetition when each element knows the place it comes from.
-/

open Std

namespace Cover

variable {α β γ : Type} {l : List (Option α)}

/-- Equal lengths mean that nothing is missing. -/
theorem length_eq_iff {l m : List α} (hl : l.Nodup) (hm : m.Nodup) (hsub : ∀ x ∈ l, x ∈ m) :
    l.length = m.length ↔ ∀ x ∈ m, x ∈ l := by
  constructor
  · intro hlen x hx
    have hperm := (List.subperm_of_subset hl hsub).perm_of_length_le (Nat.le_of_eq hlen.symm)
    exact hperm.mem_iff.mpr hx
  intro h
  have hperm := (List.subperm_of_subset hl hsub).antisymm (List.subperm_of_subset hm h)
  exact hperm.length_eq

/-- Lists from places with different names, of elements that know their place. -/
theorem nodup_flatMap {l : List α} {f : α → List β} (name : α → γ) (home : β → Option γ)
    (hnames : (l.map name).Nodup) (hf : ∀ a ∈ l, (f a).Nodup)
    (hhome : ∀ a ∈ l, ∀ b ∈ f a, home b = some (name a)) : (l.flatMap f).Nodup := by
  rw [List.Nodup, List.pairwise_flatMap]
  refine ⟨hf, ?_⟩
  rw [List.Nodup, List.pairwise_map] at hnames
  refine hnames.imp_of_mem fun {a a'} ha ha' hne b hb b' hb' heq => ?_
  have h := hhome a ha b hb
  rw [heq, hhome a' ha' b' hb'] at h
  exact hne (Option.some.inj h).symm

/-- A sum of 0 and 1. -/
theorem sum_eq_countP {l : List α} {f : α → Nat} {p : α → Bool}
    (h : ∀ a ∈ l, f a = (p a).toNat) : (l.map f).sum = l.countP p := by
  induction l with
  | nil => rfl
  | cons a l ih =>
    rw [List.map_cons, List.sum_cons, List.countP_cons, h a List.mem_cons_self,
      ih fun b hb => h b (List.mem_cons_of_mem _ hb)]
    cases p a <;> simp [Nat.add_comm]

/-! ## Entries of a map -/

section Map

variable [Ord α] [TransOrd α] [LawfulEqOrd α] {p : α → β → Bool} {m : ExtTreeMap α β}

/-- The keys of the entries satisfying `p`. -/
def keysWith (p : α → β → Bool) (m : ExtTreeMap α β) : List α := (m.filter p).keys

theorem mem_keysWith {k : α} : k ∈ keysWith p m ↔ ∃ v, m[k]? = some v ∧ p k v = true := by
  rw [keysWith, ExtTreeMap.mem_keys, ← ExtTreeMap.isSome_getElem?_iff_mem,
    ExtTreeMap.getElem?_filter']
  cases m[k]? with
  | none => simp
  | some v => cases h : p k v <;> simp [h]

omit [LawfulEqOrd α] in
theorem nodup_keysWith : (keysWith p m).Nodup := ExtTreeMap.nodup_keys

omit [LawfulEqOrd α] in
theorem length_keysWith : (keysWith p m).length = TreeMap.count p m := ExtTreeMap.length_keys

/-- Distinct keys with `p` are as many as there are just if they are all of them. -/
theorem count_eq_length_iff {l : List α} (hl : l.Nodup)
    (h : ∀ k ∈ l, ∃ v, m[k]? = some v ∧ p k v = true) :
    l.length = TreeMap.count p m ↔ ∀ k v, m[k]? = some v → p k v = true → k ∈ l := by
  rw [← length_keysWith, length_eq_iff hl nodup_keysWith fun k hk => mem_keysWith.mpr (h k hk)]
  constructor
  · intro hall k v hk hp
    exact hall k (mem_keysWith.mpr ⟨v, hk, hp⟩)
  intro hall k hk
  obtain ⟨v, hv, hp⟩ := mem_keysWith.mp hk
  exact hall k v hv hp

theorem mem_toList {k : α} {v : β} : (k, v) ∈ m.toList ↔ m[k]? = some v :=
  ExtTreeMap.mem_toList_iff_getElem?_eq_some

omit [LawfulEqOrd α] in
theorem nodup_keys_toList (m : ExtTreeMap α β) : (m.toList.map Prod.fst).Nodup := by
  rw [ExtTreeMap.map_fst_toList_eq_keys]
  exact ExtTreeMap.nodup_keys

/-- Counting the entries one by one. -/
theorem countP_toList : m.toList.countP (fun x => p x.1 x.2) = TreeMap.count p m := by
  rw [List.countP_eq_length_filter, ← List.length_map Prod.fst]
  refine (count_eq_length_iff ?_ ?_).mpr ?_
  · exact (nodup_keys_toList m).sublist (List.filter_sublist.map _)
  · intro k hk
    obtain ⟨⟨k', v⟩, hkv, rfl⟩ := List.mem_map.mp hk
    obtain ⟨hmem, hp⟩ := List.mem_filter.mp hkv
    exact ⟨v, mem_toList.mp hmem, hp⟩
  · intro k v hk hp
    exact List.mem_map.mpr ⟨(k, v), List.mem_filter.mpr ⟨mem_toList.mpr hk, hp⟩, rfl⟩

theorem nodup_toList_set (s : ExtTreeSet α) : s.toList.Nodup := by
  refine ExtTreeSet.distinct_toList.imp fun {a b} hne heq => hne ?_
  rw [heq]
  exact ReflCmp.compare_self

end Map

/-! ## Live slots of a slab -/

theorem mem_entries {i : Nat} {a : α} : (i, a) ∈ Slab.entries l ↔ Slab.get l i = some a := by
  unfold Slab.entries
  rw [List.mem_filterMap, Slab.get_eq_some_iff]
  constructor
  · rintro ⟨⟨o, k⟩, hk, ho⟩
    obtain ⟨b, rfl, hb⟩ := Option.map_eq_some_iff.mp ho
    cases hb
    rw [List.mem_zipIdx_iff_getElem?] at hk
    exact hk
  · intro h
    exact ⟨(some a, i), List.mem_zipIdx_iff_getElem?.mpr h, rfl⟩

/-- A set collected from the live slots. -/
theorem mem_ofList_entries {β : Type} [Ord β] [TransOrd β] [LawfulEqOrd β] [BEq β] [LawfulBEq β]
    {f : Nat × α → Option β} {x : β} : x ∈ ExtTreeSet.ofList ((Slab.entries l).filterMap f) ↔
      ∃ i a, Slab.get l i = some a ∧ f (i, a) = some x := by
  rw [ExtTreeSet.mem_ofList, List.contains_iff_mem, List.mem_filterMap]
  simp only [Prod.exists, mem_entries]

theorem nodup_keys_entries (l : List (Option α)) : ((Slab.entries l).map Prod.fst).Nodup := by
  have hidx : (l.zipIdx.map Prod.snd).Nodup := by
    rw [List.zipIdx_map_snd]
    exact List.nodup_range'
  rw [List.Nodup, List.pairwise_map] at hidx
  rw [Slab.entries, List.Nodup, List.pairwise_map, List.pairwise_filterMap]
  refine hidx.imp fun {x y} hne a ha b hb hab => ?_
  obtain ⟨v, -, rfl⟩ := Option.map_eq_some_iff.mp ha
  obtain ⟨w, -, rfl⟩ := Option.map_eq_some_iff.mp hb
  exact hne hab

/-- A list of free slots is complete just if it is as long as the live ones leave room. -/
theorem length_free_iff {free : List Nat} (hnd : free.Nodup)
    (hfree : ∀ i ∈ free, i < l.length ∧ Slab.get l i = none) :
    free.length = l.length - (Slab.entries l).length ↔
      ∀ i, i < l.length → Slab.get l i = none → i ∈ free := by
  have hmem {i : Nat} : i ∈ (Slab.entries l).map Prod.fst ↔ ∃ a, Slab.get l i = some a := by
    simp only [List.mem_map, Prod.exists, exists_and_right, exists_eq_right, mem_entries]
  have hall : ((Slab.entries l).map Prod.fst ++ free).Nodup := by
    rw [List.nodup_append]
    refine ⟨nodup_keys_entries l, hnd, ?_⟩
    rintro i hi k hk rfl
    obtain ⟨a, ha⟩ := hmem.mp hi
    rw [(hfree i hk).2] at ha
    cases ha
  have hsub : ∀ i ∈ (Slab.entries l).map Prod.fst ++ free, i ∈ List.range l.length := by
    intro i hi
    rw [List.mem_range]
    rcases List.mem_append.mp hi with hi | hi
    · obtain ⟨a, ha⟩ := hmem.mp hi
      exact Slab.lt_length_of_get ha
    · exact (hfree i hi).1
  have hlen := length_eq_iff hall List.nodup_range hsub
  have hle := (List.subperm_of_subset hall hsub).length_le
  rw [List.length_append, List.length_map, List.length_range] at hlen hle
  constructor
  · intro h i hi hn
    have hi' := hlen.mp (by omega) i (List.mem_range.mpr hi)
    refine (List.mem_append.mp hi').resolve_left fun hlive => ?_
    obtain ⟨a, ha⟩ := hmem.mp hlive
    rw [hn] at ha
    cases ha
  · intro h
    have hlen' := hlen.mpr (by
      intro i hi
      rw [List.mem_range] at hi
      cases hg : Slab.get l i with
      | none => exact List.mem_append_right _ (h i hi hg)
      | some a => exact List.mem_append_left _ (hmem.mpr ⟨a, hg⟩))
    omega

end Cover
