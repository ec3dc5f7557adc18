import Beanstalkd.Lib.TreeMap

/-!
# Keyed indexes

An ordered index of things that each record at most one key: the set of pairs
`(key, thing)`, so that the first element is the thing that is due next. The
recorded keys and the set are kept in step by `rekey`, which takes out the old
pair and puts in the new one; `Of.rekey` says that this is enough.

`Current` is an index whose keys are derived from the things themselves and
recorded, so that a change makes one of them stale until it is refreshed.
`Marked` is the same for things that are either in the index or not.
-/

open Std

namespace Index

variable {κ ι : Type} [Ord κ] [Ord ι] [TransOrd κ] [TransOrd ι]

/-- Move `i`'s entry from its old key to its new one. -/
def rekey (s : ExtTreeSet (κ × ι)) (i : ι) (old new : Option κ) : ExtTreeSet (κ × ι) :=
  let s := match old with
    | some k => s.erase (k, i)
    | none => s
  match new with
  | some k => s.insert (k, i)
  | none => s

/-- `s` is the index of the recorded keys. -/
def Of (key : ι → Option κ) (s : ExtTreeSet (κ × ι)) : Prop :=
  ∀ k i, (k, i) ∈ s ↔ key i = some k

variable [LawfulEqOrd κ] [LawfulEqOrd ι] {s : ExtTreeSet (κ × ι)}

theorem mem_rekey {i : ι} {old new : Option κ} {k : κ} {j : ι} :
    (k, j) ∈ rekey s i old new ↔
      (j = i ∧ new = some k) ∨ ((k, j) ∈ s ∧ ¬(j = i ∧ old = some k)) := by
  unfold rekey
  cases old with
  | none => cases new with
    | none => simp
    | some n => grind
  | some o => cases new with
    | none => grind
    | some n => grind

/-- Rekeying `i` keeps the index in step with the recorded keys. -/
theorem Of.rekey {key key' : ι → Option κ} {i : ι} {old new : Option κ} (h : Of key s)
    (hold : key i = old) (hnew : key' i = new) (hoff : ∀ j, j ≠ i → key' j = key j) :
    Of key' (rekey s i old new) := by
  intro k j
  rw [mem_rekey, h k j]
  by_cases hj : j = i
  · subst hj
    simp [hold, hnew]
  · simp [hj, hoff j hj]

/-! ## Indexes of a derived key

`f i` is the key `i` should have and the one recorded for it. The two may differ
at one thing, `stale`, between a change and the refresh that follows it. -/

/-- Only `i` changes: the others are as current as before. -/
theorem fresh_off {κ ι : Type} {stale stale' : Option ι} {f f' : ι → Option (κ × κ)} {i : ι}
    (h : ∀ j p, f j = some p → stale ≠ some j → p.1 = p.2) (hst : ∀ j, stale = some j → j = i)
    (hoff : ∀ j, j ≠ i → f' j = f j) (hi : stale' = some i ∨ ∀ p, f' i = some p → p.1 = p.2) :
    ∀ j p, f' j = some p → stale' ≠ some j → p.1 = p.2 := by
  intro j p hj hne
  by_cases hji : j = i
  · subst hji
    exact hi.resolve_left hne p hj
  · rw [hoff j hji] at hj
    exact h j p hj fun he => hji (hst j he)

/-- `s` indexes the recorded keys, which are current except at `stale`. -/
structure Current (stale : Option ι) (f : ι → Option (Option κ × Option κ))
    (s : ExtTreeSet (κ × ι)) : Prop where
  index : Of (fun i => (f i).bind Prod.snd) s
  fresh : ∀ i p, f i = some p → stale ≠ some i → p.1 = p.2

namespace Current

variable {f f' : ι → Option (Option κ × Option κ)} {s : ExtTreeSet (κ × ι)} {i : ι}

omit [LawfulEqOrd κ] [LawfulEqOrd ι]

theorem congr {stale : Option ι} (h : Current stale f s) (hf : f' = f) : Current stale f' s := by
  subst hf; exact h

/-- A change of what `i` should have makes it stale. -/
theorem touch (h : Current none f s) (hi : (f' i).map Prod.snd = (f i).map Prod.snd)
    (hoff : ∀ j, j ≠ i → f' j = f j) : Current (some i) f' s where
  index := by
    intro k j
    rw [h.index k j]
    by_cases hj : j = i
    · cases hf : f j <;> cases hf' : f' j <;> simp_all
    · simp only [hoff j hj]
  fresh := fresh_off h.fresh (by simp) hoff (.inl rfl)

/-- Nothing to record: the key was current after all. -/
theorem of_eq (h : Current (some i) f s) (hi : ∀ p, f i = some p → p.1 = p.2) :
    Current none f s :=
  ⟨h.index, fresh_off h.fresh (by simp) (fun _ _ => rfl) (.inr hi)⟩

/-- A new thing without a key. -/
theorem add (h : Current none f s) (hi : f i = none) (hi' : f' i = some (none, none))
    (hoff : ∀ j, j ≠ i → f' j = f j) : Current none f' s where
  index := by
    intro k j
    rw [h.index k j]
    by_cases hj : j = i
    · subst hj; simp [hi, hi']
    · simp only [hoff j hj]
  fresh := fresh_off h.fresh (by simp) hoff (.inr (by simp [hi']))

variable [LawfulEqOrd κ] [LawfulEqOrd ι]

/-- Recording the key `i` should have. -/
theorem refresh {old new : Option κ} (h : Current (some i) f s) (hi : f i = some (new, old))
    (hi' : f' i = some (new, new)) (hoff : ∀ j, j ≠ i → f' j = f j) :
    Current none f' (rekey s i old new) where
  index := h.index.rekey (by rw [hi]; rfl) (by rw [hi']; rfl) fun j hj => by
    simp only [hoff j hj]
  fresh := fresh_off h.fresh (by simp) hoff (.inr (by simp [hi']))

/-- A thing is gone, and its entry with it. -/
theorem drop {p : Option κ × Option κ} (h : Current none f s) (hi : f i = some p)
    (hi' : f' i = none) (hoff : ∀ j, j ≠ i → f' j = f j) :
    Current none f' (rekey s i p.2 none) where
  index := h.index.rekey (by rw [hi]; rfl) (by rw [hi']; rfl) fun j hj => by
    simp only [hoff j hj]
  fresh := fresh_off h.fresh (by simp) hoff (.inr (by simp [hi']))

/-- An index is current just if the recorded keys are, and it is the one that they give. -/
theorem none_iff {r : ExtTreeSet (κ × ι)}
    (hr : ∀ k i, (k, i) ∈ r ↔ ∃ p, f i = some p ∧ p.1 = some k) :
    Current none f s ↔ (∀ i p, f i = some p → p.2 = p.1) ∧ s = r := by
  have hkey (hf : ∀ i p, f i = some p → p.2 = p.1) (k : κ) (i : ι) :
      (f i).bind Prod.snd = some k ↔ (k, i) ∈ r := by
    rw [hr, Option.bind_eq_some_iff]
    exact exists_congr fun p => and_congr_right fun hp => by rw [hf i p hp]
  constructor
  · intro h
    have hf : ∀ i p, f i = some p → p.2 = p.1 := fun i p hp => (h.fresh i p hp nofun).symm
    exact ⟨hf, ExtTreeSet.ext_mem fun ⟨k, i⟩ => (h.index k i).trans (hkey hf k i)⟩
  · rintro ⟨hf, rfl⟩
    exact ⟨fun k i => (hkey hf k i).symm, fun i p hp _ => (hf i p hp).symm⟩

end Current

end Index

namespace Index

variable {ι : Type} [Ord ι] [TransOrd ι]

/-- `s` holds the things whose recorded flag is set, and the recorded flags are
current except at `stale`. -/
structure Marked (stale : Option ι) (f : ι → Option (Bool × Bool)) (s : ExtTreeSet ι) : Prop where
  index : ∀ i, i ∈ s ↔ (f i).any Prod.snd = true
  fresh : ∀ i p, f i = some p → stale ≠ some i → p.1 = p.2

/-- Put `i` in or out. -/
def mark (s : ExtTreeSet ι) (i : ι) (b : Bool) : ExtTreeSet ι :=
  if b then s.insert i else s.erase i

namespace Marked

variable {f f' : ι → Option (Bool × Bool)} {s t : ExtTreeSet ι} {i : ι} {stale : Option ι}

theorem congr (h : Marked stale f s) (hf : f' = f) : Marked stale f' s := by
  subst hf; exact h

theorem touch (h : Marked none f s) (hi : (f' i).map Prod.snd = (f i).map Prod.snd)
    (hoff : ∀ j, j ≠ i → f' j = f j) : Marked (some i) f' s where
  index := by
    intro j
    rw [h.index j]
    by_cases hj : j = i
    · cases hf : f j <;> cases hf' : f' j <;> simp_all
    · rw [hoff j hj]
  fresh := fresh_off h.fresh (by simp) hoff (.inl rfl)

theorem of_eq (h : Marked (some i) f s) (hi : ∀ p, f i = some p → p.1 = p.2) : Marked none f s :=
  ⟨h.index, fresh_off h.fresh (by simp) (fun _ _ => rfl) (.inr hi)⟩

/-- A new thing, not in the index. -/
theorem add (h : Marked none f s) (hi : f i = none) (hi' : f' i = some (false, false))
    (hoff : ∀ j, j ≠ i → f' j = f j) : Marked none f' s where
  index := by
    intro j
    rw [h.index j]
    by_cases hj : j = i
    · subst hj; simp [hi, hi']
    · rw [hoff j hj]
  fresh := fresh_off h.fresh (by simp) hoff (.inr (by simp [hi']))

/-- A thing is gone, and out of the index. -/
theorem drop (h : Marked none f s) (ht : ∀ j, j ∈ t ↔ j ≠ i ∧ j ∈ s) (hi' : f' i = none)
    (hoff : ∀ j, j ≠ i → f' j = f j) : Marked none f' t where
  index := by
    intro j
    rw [ht j, h.index j]
    by_cases hj : j = i
    · subst hj; simp [hi']
    · simp [hoff j hj, hj]
  fresh := fresh_off h.fresh (by simp) hoff (.inr (by simp [hi']))

theorem none_iff [LawfulEqOrd ι] {r : ExtTreeSet ι}
    (hr : ∀ i, i ∈ r ↔ ∃ p, f i = some p ∧ p.1 = true) :
    Marked none f s ↔ (∀ i p, f i = some p → p.2 = p.1) ∧ s = r := by
  have hkey (hf : ∀ i p, f i = some p → p.2 = p.1) (i : ι) :
      (f i).any Prod.snd = true ↔ i ∈ r := by
    rw [hr, Option.any_eq_true]
    exact exists_congr fun p => and_congr_right fun hp => by rw [hf i p hp]
  constructor
  · intro h
    have hf : ∀ i p, f i = some p → p.2 = p.1 := fun i p hp => (h.fresh i p hp nofun).symm
    exact ⟨hf, ExtTreeSet.ext_mem fun i => (h.index i).trans (hkey hf i)⟩
  · rintro ⟨hf, rfl⟩
    exact ⟨fun i => (hkey hf i).symm, fun i p hp _ => (hf i p hp).symm⟩

theorem refresh [LawfulEqOrd ι] {b : Bool} (h : Marked stale f s)
    (hst : ∀ j, stale = some j → j = i) (hi' : f' i = some (b, b)) (hoff : ∀ j, j ≠ i → f' j = f j)
    : Marked none f' (mark s i b) where
  index := by
    intro j
    unfold mark
    by_cases hj : j = i
    · subst hj
      cases b <;> simp [hi']
    · have : ¬i = j := fun he => hj he.symm
      cases b <;> simp [hoff j hj, h.index j, this]
  fresh := fresh_off h.fresh hst hoff (.inr (by simp [hi']))

end Marked

end Index
