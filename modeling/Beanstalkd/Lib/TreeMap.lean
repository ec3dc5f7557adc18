import Std.Data.ExtTreeMap
import Std.Data.ExtTreeSet

/-!
# Ordered maps: counting, and updates at one key

`Std.ExtTreeMap` is extensional, so two maps with the same lookups are equal
and a stored index can be compared with its recomputation by `=`. This file
adds what every invariant about a counter needs:

- `count p m`, the number of entries satisfying `p`, and `count_off`: when the
  entries of two maps satisfy two predicates alike away from one key, the
  counts differ only by that key's own contribution (`hit`). Every update below
  touches one key, so every counter lemma is an instance of it.
- `map_modify`: a view of the entries that an update leaves alone is unchanged
  by it, which is how "everything else is unchanged" is said of a map.
- `first` and `firstEntry`, the least element of a set and the entry of least
  key of a map, read off the sorted list of elements, and what makes an element
  the first one.

Nothing here names a particular program.
-/

open Std

namespace TreeMap

/-- Pairs are ordered lexicographically. -/
instance instOrdPair {α β : Type} [Ord α] [Ord β] : Ord (α × β) := lexOrd

variable {α β γ : Type}

/-- One entry's contribution to a count. -/
def hit (p : β → Bool) (o : Option β) : Nat := (o.any p).toNat

@[simp] theorem hit_none (p : β → Bool) : hit p none = 0 := rfl

@[simp] theorem hit_some (p : β → Bool) (b : β) : hit p (some b) = (p b).toNat := rfl

variable [Ord α]

/-- A view of a view. -/
theorem map_of_map {δ : Type} {m m' : ExtTreeMap α β} {f : β → γ}
    (h : (m'.map fun _ v => f v) = m.map fun _ v => f v) (g : γ → δ) :
    (m'.map fun _ v => g (f v)) = m.map fun _ v => g (f v) := by
  have hg := congrArg (ExtTreeMap.map fun _ => g) h
  rwa [ExtTreeMap.map_map, ExtTreeMap.map_map] at hg

variable [TransOrd α]

/-- The number of entries of `m` satisfying `p`. -/
def count (p : α → β → Bool) (m : ExtTreeMap α β) : Nat := (m.filter p).size

/-- The indicator map of a predicate; its size is the count. -/
private def indicator (p : α → β → Bool) (m : ExtTreeMap α β) : ExtTreeMap α Unit :=
  (m.filter p).map (fun _ _ => ())

private theorem size_indicator (p : α → β → Bool) (m : ExtTreeMap α β) :
    (indicator p m).size = count p m := by
  exact ExtTreeMap.size_map

variable {m : ExtTreeMap α β} {n : ExtTreeMap α γ} {p : α → β → Bool} {q : α → γ → Bool} {k k' : α}
  {v : β} {s : ExtTreeSet α}

theorem count_le_size : count p m ≤ m.size := ExtTreeMap.size_filter_le_size

theorem contains_iff : m.contains k = true ↔ ∃ v, m[k]? = some v := by
  rw [ExtTreeMap.contains_eq_isSome_getElem?, Option.isSome_iff_exists]

theorem contains_of (h : m[k]? = some v) : m.contains k = true := contains_iff.mpr ⟨v, h⟩

theorem not_contains_of (h : m[k]? = none) : ¬m.contains k = true := by
  rw [ExtTreeMap.contains_eq_isSome_getElem?, h]
  exact Bool.false_ne_true

theorem getElem?_modify_of {f : β → β} (h : m[k]? = some v) :
    (m.modify k f)[k]? = some (f v) := by
  rw [ExtTreeMap.getElem?_modify_self, h]
  rfl

theorem isEmpty_eq_false_iff : s.isEmpty = false ↔ ∃ x, x ∈ s := by
  rw [← Bool.not_eq_true, ExtTreeSet.isEmpty_iff, ExtTreeSet.eq_empty_iff_forall_not_mem]
  exact Classical.not_forall_not

variable [LawfulEqOrd α]

/-- Two maps that agree away from `k` differ in size by their entries at `k`. -/
theorem size_off {n : ExtTreeMap α β} (k : α) (h : ∀ k', k' ≠ k → n[k']? = m[k']?) :
    n.size + m[k]?.isSome.toNat = m.size + n[k]?.isSome.toNat := by
  have he : n.erase k = m.erase k := by
    ext k' : 1
    rw [ExtTreeMap.getElem?_erase, ExtTreeMap.getElem?_erase]
    split
    · rfl
    · next hne => exact h k' fun hk => hne (by simp [hk])
  have hs := congrArg ExtTreeMap.size he
  rw [ExtTreeMap.size_erase, ExtTreeMap.size_erase] at hs
  have hpos : ∀ n : ExtTreeMap α β, n.contains k = true → 1 ≤ n.size := by
    intro n hn
    rcases Nat.eq_zero_or_pos n.size with h0 | h0
    · rw [← ExtTreeMap.eq_empty_iff_size_eq_zero] at h0
      rw [h0, ExtTreeMap.contains_empty] at hn
      exact absurd hn (by decide)
    · exact h0
  rw [ExtTreeMap.isSome_getElem?_eq_contains, ExtTreeMap.isSome_getElem?_eq_contains]
  have h1 := hpos m
  have h2 := hpos n
  cases c1 : m.contains k <;> cases c2 : n.contains k <;>
    simp only [c1, c2, Bool.false_eq_true, if_true, if_false,
      true_implies, Bool.toNat_true, Bool.toNat_false] at hs h1 h2 ⊢ <;> omega

private theorem getElem?_indicator (p : α → β → Bool) (m : ExtTreeMap α β) (k : α) :
    (indicator p m)[k]? = if m[k]?.any (p k) then some () else none := by
  unfold indicator
  rw [ExtTreeMap.getElem?_map, ExtTreeMap.getElem?_filter']
  cases m[k]? with
  | none => rfl
  | some v => by_cases hp : p k v <;> simp [Option.filter, hp]

/-- Counts of two maps whose entries satisfy the predicates alike away from
`k` differ only by the entries at `k`. -/
theorem count_off (k : α) (h : ∀ k', k' ≠ k → n[k']?.any (q k') = m[k']?.any (p k')) :
    count q n + hit (p k) m[k]? = count p m + hit (q k) n[k]? := by
  have hs := size_off (m := indicator p m) (n := indicator q n) k (by
    intro k' hk
    rw [getElem?_indicator, getElem?_indicator, h k' hk])
  rw [getElem?_indicator, getElem?_indicator, size_indicator, size_indicator] at hs
  have hb : ∀ b : Bool, (if b then some () else none).isSome = b := by decide
  rw [hb, hb] at hs
  exact hs

/-- A count depends only on which keys satisfy the predicate. -/
theorem count_congr (h : ∀ k, n[k]?.any (q k) = m[k]?.any (p k)) : count q n = count p m := by
  have he : indicator q n = indicator p m := by
    ext k : 1
    rw [getElem?_indicator, getElem?_indicator, h k]
  rw [← size_indicator, ← size_indicator, he]

theorem count_empty (p : α → β → Bool) : count p (∅ : ExtTreeMap α β) = 0 := by
  unfold count
  rw [← ExtTreeMap.eq_empty_iff_size_eq_zero]
  ext k : 1
  simp

theorem count_pos_iff : 0 < count p m ↔ ∃ k v, m[k]? = some v ∧ p k v = true := by
  constructor
  · intro h
    rcases Classical.em (∃ k v, m[k]? = some v ∧ p k v = true) with hc | hc
    · exact hc
    have h0 : count p m = count p (∅ : ExtTreeMap α β) := by
      apply count_congr
      intro k
      cases hk : m[k]? with
      | none => simp
      | some v =>
        rw [Option.any_some, ExtTreeMap.getElem?_empty, Option.any_none]
        cases hp : p k v with
        | false => rfl
        | true => exact absurd ⟨k, v, hk, hp⟩ hc
    rw [h0, count_empty] at h
    omega
  · rintro ⟨k, v, hk, hp⟩
    have h := count_off (p := p) (q := p) (m := m.erase k) (n := m) k (by
      intro k' hne
      rw [ExtTreeMap.getElem?_erase]
      simp [Ne.symm hne])
    rw [hk, ExtTreeMap.getElem?_erase_self, hit_some, hit_none, hp, Bool.toNat_true] at h
    omega

/-- A predicate every entry satisfies counts every entry. -/
theorem count_eq_size (h : ∀ k v, m[k]? = some v → p k v = true) : count p m = m.size := by
  unfold count
  congr 1
  ext k : 1
  rw [ExtTreeMap.getElem?_filter']
  cases hk : m[k]? with
  | none => rfl
  | some v => simp [Option.filter, h k v hk]

theorem getElem?_modify_ne {f : β → β} (h : k' ≠ k) : (m.modify k f)[k']? = m[k']? := by
  rw [ExtTreeMap.getElem?_modify, if_neg fun he => h (LawfulEqOrd.eq_of_compare he).symm]

theorem modify_modify (m : ExtTreeMap α β) (k : α) (f g : β → β) :
    (m.modify k f).modify k g = m.modify k (g ∘ f) := by
  ext k' : 1
  simp only [ExtTreeMap.getElem?_modify]
  split
  · rw [ReflOrd.compare_self, if_pos rfl, Option.map_map]
  · rfl

section Modify

variable {f : β → β} {g : β → γ}

/-- A view of the entry that `f` does not change is unchanged by `modify`. -/
theorem modify_map_of (k' : α) (h : ∀ v, m[k]? = some v → g (f v) = g v) :
    (m.modify k f)[k']?.map g = m[k']?.map g := by
  rw [ExtTreeMap.getElem?_modify]
  split
  · next hk =>
    rw [← LawfulEqOrd.eq_of_compare hk]
    cases hv : m[k]? with
    | none => rfl
    | some v => simp [h v hv]
  · rfl

theorem map_modify_of (h : ∀ v, m[k]? = some v → g (f v) = g v) :
    (m.modify k f).map (fun _ v => g v) = m.map (fun _ v => g v) := by
  ext k' : 1
  rw [ExtTreeMap.getElem?_map, ExtTreeMap.getElem?_map]
  exact modify_map_of k' h

theorem modify_of_none (h : m[k]? = none) : m.modify k f = m := by
  ext k' : 1
  simpa using modify_map_of (g := fun v => v) k' (by simp [h])

theorem modify_map (m : ExtTreeMap α β) (k k' : α) (h : ∀ v, g (f v) = g v) :
    (m.modify k f)[k']?.map g = m[k']?.map g := modify_map_of k' fun v _ => h v

theorem map_modify (h : ∀ v, g (f v) = g v) :
    (m.modify k f).map (fun _ v => g v) = m.map (fun _ v => g v) := map_modify_of fun v _ => h v

end Modify

/-- The entries of a view. -/
theorem map_eq_some_iff {g : β → γ} {w : γ} :
    (m.map fun _ v => g v)[k]? = some w ↔ ∃ v, m[k]? = some v ∧ g v = w := by
  rw [ExtTreeMap.getElem?_map, Option.map_eq_some_iff]

theorem map_of {g : β → γ} (h : m[k]? = some v) : (m.map fun _ v => g v)[k]? = some (g v) :=
  map_eq_some_iff.mpr ⟨v, h, rfl⟩

/-- An update at `k`, seen through a view that notices it. -/
theorem map_modify_at (h : m[k]? = some v) (f : β → β) (g : β → γ) :
    (m.modify k f).map (fun _ v => g v) = (m.map fun _ v => g v).insert k (g (f v)) := by
  ext k' : 1
  rw [ExtTreeMap.getElem?_map, ExtTreeMap.getElem?_insert, ExtTreeMap.getElem?_map,
    ExtTreeMap.getElem?_modify]
  split
  · rw [h]
    rfl
  · rfl

/-! ## One new entry, one entry less -/

theorem map_insert (m : ExtTreeMap α β) (k : α) (v : β) (g : β → γ) :
    (m.insert k v).map (fun _ v => g v) = (m.map fun _ v => g v).insert k (g v) := by
  ext k' : 1
  rw [ExtTreeMap.getElem?_map, ExtTreeMap.getElem?_insert, ExtTreeMap.getElem?_insert,
    ExtTreeMap.getElem?_map]
  split <;> rfl

theorem map_erase (m : ExtTreeMap α β) (k : α) (g : β → γ) :
    (m.erase k).map (fun _ v => g v) = (m.map fun _ v => g v).erase k := by
  ext k' : 1
  rw [ExtTreeMap.getElem?_map, ExtTreeMap.getElem?_erase, ExtTreeMap.getElem?_erase,
    ExtTreeMap.getElem?_map]
  split <;> rfl

theorem insert_eq_some_iff (h : m[k]? = none) {x : β} :
    (m.insert k v)[k']? = some x ↔ (k' = k ∧ x = v) ∨ m[k']? = some x := by
  rw [ExtTreeMap.getElem?_insert]
  by_cases hk : k = k'
  · subst hk
    simp [h, eq_comm]
  · simp [hk, Ne.symm hk]

theorem erase_eq_some_iff {x : β} :
    (m.erase k)[k']? = some x ↔ k' ≠ k ∧ m[k']? = some x := by
  rw [ExtTreeMap.getElem?_erase]
  by_cases hk : k = k'
  · subst hk
    simp
  · simp [hk, Ne.symm hk]

theorem erase_insert (m : ExtTreeMap α β) (k : α) (v : β) :
    (m.erase k).insert k v = m.insert k v := by
  ext k' : 1
  rw [ExtTreeMap.getElem?_insert, ExtTreeMap.getElem?_insert]
  split
  · rfl
  · next hne => rw [ExtTreeMap.getElem?_erase, if_neg hne]

theorem modify_eq {m : ExtTreeMap α β} {k : α} {f : β → β} (h : ∀ v, m[k]? = some v → f v = v) :
    m.modify k f = m := by
  ext k' : 1
  by_cases hk : k' = k
  · subst hk
    rw [ExtTreeMap.getElem?_modify_self]
    exact (Option.map_congr h).trans Option.map_id_apply
  · exact getElem?_modify_ne hk

theorem insert_insert (m : ExtTreeMap α β) (k : α) (v w : β) :
    (m.insert k v).insert k w = m.insert k w := by
  ext k' : 1
  simp only [ExtTreeMap.getElem?_insert]
  split <;> rfl

theorem count_insert (h : m[k]? = none) (v : β) :
    count p (m.insert k v) = count p m + (p k v).toNat := by
  have hc := count_off (p := p) (q := p) (m := m) (n := m.insert k v) k (by
    intro k' hne
    rw [ExtTreeMap.getElem?_insert]
    simp [Ne.symm hne])
  rw [h, ExtTreeMap.getElem?_insert_self, hit_none, hit_some] at hc
  omega

theorem count_erase (h : m[k]? = some v) :
    count p (m.erase k) + (p k v).toNat = count p m := by
  have hc := count_off (p := p) (q := p) (m := m) (n := m.erase k) k (by
    intro k' hne
    rw [ExtTreeMap.getElem?_erase]
    simp [Ne.symm hne])
  rw [h, ExtTreeMap.getElem?_erase_self, hit_none, hit_some] at hc
  omega

/-- A count grows with the keys that satisfy the predicate. -/
theorem count_le
    (h : ∀ k v, n[k]? = some v → q k v = true → ∃ v', m[k]? = some v' ∧ p k v' = true) :
    count q n ≤ count p m := by
  have he : count q n = count (fun k v => p k v && n[k]?.any (q k)) m := by
    refine count_congr fun k => ?_
    cases hn : n[k]? with
    | none => cases m[k]? <;> simp
    | some v =>
      cases hq : q k v with
      | false => cases m[k]? <;> simp [hq]
      | true =>
        obtain ⟨v', hm, hp⟩ := h k v hn hq
        simp [hm, hp, hq]
  have hfilter : m.filter (fun k v => p k v && n[k]?.any (q k)) =
      (m.filter p).filter fun k _ => n[k]?.any (q k) := by
    ext k : 1
    rw [ExtTreeMap.getElem?_filter', ExtTreeMap.getElem?_filter', ExtTreeMap.getElem?_filter',
      Option.filter_filter]
  rw [he, count, hfilter]
  exact ExtTreeMap.size_filter_le_size

/-- A count drops when no key joins and one leaves. -/
theorem count_lt (hk : m[k]? = some v) (hp : p k v = true)
    (hgone : ∀ v', n[k]? = some v' → q k v' = false)
    (h : ∀ k v, n[k]? = some v → q k v = true → ∃ v', m[k]? = some v' ∧ p k v' = true) :
    count q n < count p m := by
  have herase : count p (m.erase k) + 1 = count p m := by
    rw [← count_erase hk, hp, Bool.toNat_true]
  have hle : count q n ≤ count p (m.erase k) := by
    refine count_le fun k' v' hn hq => ?_
    obtain ⟨w, hw, hpw⟩ := h k' v' hn hq
    refine ⟨w, erase_eq_some_iff.mpr ⟨?_, hw⟩, hpw⟩
    intro he
    subst he
    rw [hgone v' hn] at hq
    cases hq
  omega

/-! ## Least elements -/

/-- `BTreeSet::first`. -/
def first (s : ExtTreeSet α) : Option α := s.toList.head?

/-- `BTreeMap::first_key_value`. -/
def firstEntry (m : ExtTreeMap α β) : Option (α × β) := m.toList.head?

/-- `BTreeMap::values`: in the order of the keys. -/
def values (m : ExtTreeMap α β) : List β := m.toList.map Prod.snd

theorem mem_values : v ∈ values m ↔ ∃ k : α, m[k]? = some v := by
  constructor
  · intro h
    obtain ⟨⟨k, v'⟩, hkv, rfl⟩ := List.mem_map.mp h
    exact ⟨k, ExtTreeMap.mem_toList_iff_getElem?_eq_some.mp hkv⟩
  · rintro ⟨k, hk⟩
    exact List.mem_map.mpr ⟨(k, v), ExtTreeMap.mem_toList_iff_getElem?_eq_some.mpr hk, rfl⟩

/-- A value under at most one key is listed at most once. -/
theorem nodup_values
    (h : ∀ (k k' : α) (v : β), m[k]? = some v → m[k']? = some v → k = k') : (values m).Nodup := by
  have hd := ExtTreeMap.distinct_keys_toList (t := m)
  unfold values
  rw [List.Nodup, List.pairwise_map]
  refine hd.imp_of_mem fun {a b} ha hb hne hv => ?_
  have hk := h a.1 b.1 a.2 (ExtTreeMap.mem_toList_iff_getElem?_eq_some.mp ha)
    (hv ▸ ExtTreeMap.mem_toList_iff_getElem?_eq_some.mp hb)
  exact hne (hk ▸ ReflCmp.compare_self)

/-- The head of a list that ascends by `key` is its least element. -/
theorem head?_eq_some_iff {δ : Type} (key : δ → α) {x : δ} {l : List δ}
    (h : l.Pairwise fun x y => compare (key x) (key y) = .lt) :
    l.head? = some x ↔ x ∈ l ∧ ∀ y ∈ l, (compare (key x) (key y)).isLE := by
  cases l with
  | nil => simp
  | cons a l =>
    rw [List.pairwise_cons] at h
    rw [List.head?_cons, Option.some.injEq]
    constructor
    · rintro rfl
      refine ⟨List.mem_cons_self, fun y hy => ?_⟩
      rcases List.mem_cons.mp hy with rfl | hy
      · rw [ReflOrd.compare_self]; rfl
      · exact Ordering.isLE_of_eq_lt (h.1 y hy)
    · rintro ⟨hx, hle⟩
      rcases List.mem_cons.mp hx with rfl | hx
      · rfl
      have hlt := h.1 x hx
      have heq := OrientedCmp.isLE_antisymm (Ordering.isLE_of_eq_lt hlt)
        (hle a List.mem_cons_self)
      rw [hlt] at heq
      cases heq

theorem first_eq_some_iff {x : α} : first s = some x ↔ x ∈ s ∧ ∀ y ∈ s, (compare x y).isLE := by
  rw [first, head?_eq_some_iff (fun x => x) (ExtTreeSet.ordered_toList)]
  simp only [ExtTreeSet.mem_toList]

theorem first_eq_none_iff : first s = none ↔ ∀ x, x ∉ s := by
  unfold first
  rw [List.head?_eq_none_iff]
  constructor
  · intro h x hx
    rw [← ExtTreeSet.mem_toList, h] at hx
    cases hx
  intro h
  refine List.eq_nil_iff_forall_not_mem.mpr fun x hx => ?_
  rw [ExtTreeSet.mem_toList] at hx
  exact h x hx

theorem firstEntry_eq_some_iff : firstEntry m = some (k, v) ↔
    m[k]? = some v ∧ ∀ k' v', m[k']? = some v' → (compare k k').isLE := by
  rw [firstEntry, head?_eq_some_iff Prod.fst ExtTreeMap.ordered_keys_toList]
  simp only [Prod.forall, ExtTreeMap.mem_toList_iff_getElem?_eq_some]

/-- The last entry of the list is the one with the greatest key. -/
theorem getLast?_toList (h : m[k]? = some v)
    (hmax : ∀ (k' : α) (v' : β), m[k']? = some v' → (compare k' k).isLE) :
    m.toList.getLast? = some (k, v) := by
  have hmem := ExtTreeMap.mem_toList_iff_getElem?_eq_some.mpr h
  cases hlast : m.toList.getLast? with
  | none =>
    rw [List.getLast?_eq_none_iff.mp hlast] at hmem
    cases hmem
  | some e =>
    obtain ⟨front, hl⟩ := List.getLast?_eq_some_iff.mp hlast
    have hord := ExtTreeMap.ordered_keys_toList (t := m)
    have he : m[e.1]? = some e.2 :=
      ExtTreeMap.mem_toList_iff_getElem?_eq_some.mp
        (hl ▸ List.mem_append_right _ List.mem_cons_self)
    rw [hl] at hmem hord
    rcases List.mem_append.mp hmem with hfront | hend
    · have hlt := (List.pairwise_append.mp hord).2.2 _ hfront e List.mem_cons_self
      have heq := OrientedCmp.isLE_antisymm (hmax e.1 e.2 he) (Ordering.isLE_of_eq_lt hlt)
      rw [LawfulEqOrd.eq_of_compare heq, ReflOrd.compare_self] at hlt
      cases hlt
    · rw [List.mem_singleton.mp hend]

theorem getElem?_insert_ne (h : k ≠ k') (v : β) : (m.insert k v)[k']? = m[k']? := by
  rw [ExtTreeMap.getElem?_insert, if_neg fun he => h (LawfulEqOrd.eq_of_compare he)]

theorem getElem?_erase_ne (h : k ≠ k') : (m.erase k)[k']? = m[k']? := by
  rw [ExtTreeMap.getElem?_erase, if_neg fun he => h (LawfulEqOrd.eq_of_compare he)]

/-- A map is what its entries make. -/
theorem ofList_toList [BEq α] [LawfulBEq α] [LawfulBEqOrd α] (m : ExtTreeMap α β) :
    ExtTreeMap.ofList m.toList = m := by
  ext k : 1
  cases hk : m[k]? with
  | some v =>
    exact ExtTreeMap.getElem?_ofList_of_mem ReflCmp.compare_self m.distinct_keys_toList
      (ExtTreeMap.mem_toList_iff_getElem?_eq_some.2 hk)
  | none =>
    apply ExtTreeMap.getElem?_ofList_of_contains_eq_false
    rw [← Bool.not_eq_true, List.contains_iff_mem]
    intro hmem
    obtain ⟨⟨k', v⟩, hkv, rfl⟩ := List.mem_map.1 hmem
    rw [ExtTreeMap.mem_toList_iff_getElem?_eq_some.1 hkv] at hk
    cases hk

/-! ## Taking out the first -/

section Order

variable [DecidableEq α]

theorem erase_eq_filter (m : ExtTreeMap α β) (k : α) :
    m.erase k = m.filter fun k' _ => decide (k' ≠ k) := by
  ext k' : 1
  rw [ExtTreeMap.getElem?_erase, ExtTreeMap.getElem?_filter]
  simp only [ExtTreeMap.getKey_eq]
  by_cases h : k = k'
  · subst h
    simp
  · rw [if_neg fun he => h (LawfulEqOrd.eq_of_compare he)]
    cases m[k']? <;> simp [Ne.symm h, Option.filter]

theorem erase_eq_filter_set (s : ExtTreeSet α) (x : α) :
    s.erase x = s.filter fun y => decide (y ≠ x) := by
  apply ExtTreeSet.ext_mem
  intro y
  rw [ExtTreeSet.mem_erase, ExtTreeSet.mem_filter]
  simp only [ExtTreeSet.get_eq, decide_eq_true_eq, exists_prop, ne_eq,
    LawfulEqOrd.compare_eq_iff_eq]
  exact ⟨fun h => ⟨h.2, fun he => h.1 he.symm⟩, fun h => ⟨fun he => h.2 he.symm, h.1⟩⟩

omit [TransOrd α] in
/-- In a list that ascends by `key`, the key of the head stands nowhere else. -/
theorem filter_head {δ : Type} (key : δ → α) {a : δ} {l : List δ}
    (h : (a :: l).Pairwise fun x y => compare (key x) (key y) = .lt) :
    ((a :: l).filter fun x => decide (key x ≠ key a)) = l := by
  rw [List.pairwise_cons] at h
  rw [List.filter_cons_of_neg (by simp)]
  refine List.filter_eq_self.mpr fun x hx => decide_eq_true fun he => ?_
  have hlt := h.1 x hx
  rw [he, ReflOrd.compare_self] at hlt
  cases hlt

/-- The first entry, and then the others in the same order. -/
theorem toList_firstEntry (h : firstEntry m = some (k, v)) :
    m.toList = (k, v) :: (m.erase k).toList := by
  have hord := ExtTreeMap.ordered_keys_toList (t := m)
  rw [erase_eq_filter, ExtTreeMap.toList_filter]
  unfold firstEntry at h
  cases hl : m.toList with
  | nil => rw [hl] at h; cases h
  | cons a l =>
    rw [hl] at h hord
    cases h
    exact congrArg _ (filter_head Prod.fst hord).symm

theorem toList_first {x : α} (h : first s = some x) : s.toList = x :: (s.erase x).toList := by
  have hord := ExtTreeSet.ordered_toList (t := s)
  rw [erase_eq_filter_set, ExtTreeSet.toList_filter]
  unfold first at h
  cases hl : s.toList with
  | nil => rw [hl] at h; cases h
  | cons a l =>
    rw [hl] at h hord
    cases h
    exact congrArg _ (filter_head id hord).symm

end Order

end TreeMap
