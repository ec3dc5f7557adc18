import Std.Data.ExtTreeMap

/-!
# First-best selection

A loop that walks a list and replaces its candidate only by a strictly smaller
one keeps the first minimum: `first key l`. Two such loops over different lists
agree when the winner is characterised, so the characterisation is what the
file provides: `first_eq` (what makes an element the winner, ties included) and
its converse `first_split`.
-/

open Std

namespace Best

variable {α κ : Type} [Ord κ] {key : α → κ}

/-- Keep the candidate unless `x` is strictly better. -/
def keep (key : α → κ) (best : Option α) (x : α) : Option α :=
  match best with
  | none => some x
  | some b => if compare (key x) (key b) = .lt then some x else some b

/-- The first element with the least key. -/
def first (key : α → κ) (l : List α) : Option α := l.foldl (keep key) none

/-- Elements no better than the candidate do not replace it. -/
theorem foldl_keep_of_le [TransOrd κ] {x : α} :
    ∀ {l : List α}, (∀ y ∈ l, (compare (key x) (key y)).isLE) →
      l.foldl (keep key) (some x) = some x := by
  intro l
  induction l with
  | nil => intro _; rfl
  | cons y l ih =>
    intro h
    have hy : ¬compare (key y) (key x) = .lt :=
      OrientedCmp.not_lt_of_isLE (h y List.mem_cons_self)
    rw [List.foldl_cons, keep, if_neg hy]
    exact ih fun z hz => h z (List.mem_cons_of_mem _ hz)

theorem foldl_keep_mem (key : α → κ) :
    ∀ (l : List α) (b : α), ∃ m, l.foldl (keep key) (some b) = some m ∧ (m = b ∨ m ∈ l) := by
  intro l
  induction l with
  | nil => intro b; exact ⟨b, rfl, .inl rfl⟩
  | cons y l ih =>
    intro b
    rw [List.foldl_cons, keep]
    split
    · obtain ⟨m, hm, h⟩ := ih y
      refine ⟨m, hm, .inr ?_⟩
      rcases h with rfl | h
      · exact List.mem_cons_self
      · exact List.mem_cons_of_mem _ h
    · obtain ⟨m, hm, h⟩ := ih b
      exact ⟨m, hm, h.imp id (List.mem_cons_of_mem _)⟩

/-- An element strictly better than all before it and no worse than all after
it is the one found. -/
theorem first_eq [TransOrd κ] {a b : List α} {x : α} (ha : ∀ y ∈ a, compare (key x) (key y) = .lt)
    (hb : ∀ y ∈ b, (compare (key x) (key y)).isLE) : first key (a ++ x :: b) = some x := by
  rw [first, List.foldl_append, List.foldl_cons]
  have hx : keep key (a.foldl (keep key) none) x = some x := by
    cases a with
    | nil => rfl
    | cons y a =>
      obtain ⟨m, hm, h⟩ := foldl_keep_mem key a y
      rw [List.foldl_cons, show keep key none y = some y from rfl, hm, keep, if_pos]
      exact ha m (by rcases h with rfl | h <;> simp [*])
  rw [hx]
  exact foldl_keep_of_le hb

/-- The element found splits the list into strictly worse ones before it and
no better ones after it. -/
theorem first_split [TransOrd κ] (key : α → κ) :
    ∀ (l : List α), l ≠ [] → ∃ x a b, l = a ++ x :: b ∧
      (∀ y ∈ a, compare (key x) (key y) = .lt) ∧
      (∀ y ∈ b, (compare (key x) (key y)).isLE) := by
  intro l
  induction l with
  | nil => intro h; exact absurd rfl h
  | cons y l ih =>
    intro _
    by_cases hl : l = []
    · subst hl
      exact ⟨y, [], [], rfl, by simp, by simp⟩
    obtain ⟨x, a, b, rfl, ha, hb⟩ := ih hl
    -- either `y` ties or beats the winner of the tail, or the tail's winner stays
    by_cases hy : compare (key x) (key y) = .lt
    · exact ⟨x, y :: a, b, rfl, by simpa using ⟨hy, ha⟩, hb⟩
    refine ⟨y, [], a ++ x :: b, rfl, by simp, ?_⟩
    have hyx : (compare (key y) (key x)).isLE := by
      rw [OrientedOrd.eq_swap]
      revert hy
      cases compare (key x) (key y) <;> simp [Ordering.swap]
    intro z hz
    rcases List.mem_append.mp hz with hz | hz
    · exact TransOrd.isLE_trans hyx (Ordering.isLE_of_eq_lt (ha z hz))
    rcases List.mem_cons.mp hz with rfl | hz
    · exact hyx
    · exact TransOrd.isLE_trans hyx (hb z hz)

/-- The winner is in the list and nothing in the list beats it. -/
theorem first_some [TransOrd κ] {l : List α} {x : α} (h : first key l = some x) :
    x ∈ l ∧ ∀ y ∈ l, (compare (key x) (key y)).isLE := by
  have hl : l ≠ [] := by rintro rfl; cases h
  obtain ⟨x', a, b, rfl, ha, hb⟩ := first_split key l hl
  rw [first_eq ha hb] at h
  cases h
  refine ⟨by simp, fun y hy => ?_⟩
  rcases List.mem_append.mp hy with hy | hy
  · exact Ordering.isLE_of_eq_lt (ha y hy)
  rcases List.mem_cons.mp hy with rfl | hy
  · rw [ReflOrd.compare_self]; rfl
  · exact hb y hy

theorem first_eq_none_iff [TransOrd κ] {l : List α} : first key l = none ↔ l = [] := by
  constructor
  · intro h
    rcases Classical.em (l = []) with hl | hl
    · exact hl
    obtain ⟨x, a, b, rfl, ha, hb⟩ := first_split key l hl
    rw [first_eq ha hb] at h
    cases h
  · rintro rfl
    rfl

end Best
