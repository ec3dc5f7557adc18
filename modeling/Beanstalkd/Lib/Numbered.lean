import Mathlib.Algebra.Ring.Nat
import Mathlib.Data.List.DropRight

/-!
# Lists whose elements carry consecutive numbers

`From idx n es` says that the elements of `es` are numbered `n`, `n + 1`, and so
on. Selecting by number is then selecting by position, however the selection is
written: `filter`, `takeWhile`, `dropWhile` or `rdropWhile`.

`fit` is the other way to cut such a list: the longest prefix whose sizes stay
within a limit, but at least one element.
-/

namespace Numbered

variable {α : Type} {idx : α → Nat} {n m : Nat} {es xs ys : List α} {e : α}

/-- The elements are numbered from `n` on. -/
def From (idx : α → Nat) : Nat → List α → Prop
  | _, [] => True
  | n, e :: es => idx e = n ∧ From idx (n + 1) es

instance decidableFrom : ∀ (n : Nat) (es : List α), Decidable (From idx n es)
  | _, [] => isTrue trivial
  | n, e :: es =>
    have := decidableFrom (n + 1) es
    inferInstanceAs (Decidable (idx e = n ∧ From idx (n + 1) es))

@[simp] theorem from_nil : From idx n [] := trivial

@[simp] theorem from_cons : From idx n (e :: es) ↔ idx e = n ∧ From idx (n + 1) es := Iff.rfl

theorem from_append : From idx n (xs ++ ys) ↔ From idx n xs ∧ From idx (n + xs.length) ys := by
  induction xs generalizing n with
  | nil => simp
  | cons x xs ih =>
    have hn : n + 1 + xs.length = n + (x :: xs).length := by simp only [List.length_cons]; omega
    rw [List.cons_append, from_cons, from_cons, ih, hn, and_assoc]

section

variable (h : From idx n es)
include h

theorem From.getElem? {k : Nat} (he : es[k]? = some e) : idx e = n + k := by
  induction es generalizing n k with
  | nil => simp at he
  | cons x xs ih =>
    obtain ⟨hx, hxs⟩ := h
    cases k with
    | zero => cases he; exact hx
    | succ k =>
      have := ih hxs (by simpa using he)
      omega

theorem From.mem (he : e ∈ es) : n ≤ idx e ∧ idx e < n + es.length := by
  obtain ⟨k, hk⟩ := List.mem_iff_getElem?.1 he
  have hi := h.getElem? hk
  obtain ⟨hlt, _⟩ := List.getElem?_eq_some_iff.1 hk
  omega

theorem From.take (k : Nat) : From idx n (es.take k) := by
  rw [← List.take_append_drop k es, from_append] at h
  exact h.1

theorem From.getLast? (he : es.getLast? = some e) : idx e + 1 = n + es.length := by
  rw [List.getLast?_eq_getElem?] at he
  have hi := h.getElem? he
  have hne : es.length ≠ 0 := by
    intro h0
    rw [List.length_eq_zero_iff.1 h0] at he
    simp at he
  omega

/-! ## Selecting by number -/

theorem takeWhile_lt (m : Nat) : es.takeWhile (fun e => idx e < m) = es.take (m - n) := by
  induction es generalizing n with
  | nil => simp
  | cons e es ih =>
    obtain ⟨he, hes⟩ := h
    by_cases hm : idx e < m
    · rw [List.takeWhile_cons, if_pos (by simpa using hm), ih hes,
        show m - n = (m - (n + 1)) + 1 by omega, List.take_succ_cons]
    · rw [List.takeWhile_cons, if_neg (by simpa using hm), Nat.sub_eq_zero_of_le (by omega),
        List.take_zero]

theorem dropWhile_lt (m : Nat) : es.dropWhile (fun e => idx e < m) = es.drop (m - n) := by
  have hsplit := List.takeWhile_append_dropWhile (p := fun e => decide (idx e < m)) (l := es)
  rw [takeWhile_lt h] at hsplit
  exact List.append_cancel_left (hsplit.trans (List.take_append_drop (m - n) es).symm)

theorem dropWhile_le (u : Nat) : es.dropWhile (fun e => idx e ≤ u) = es.drop (u + 1 - n) := by
  rw [← dropWhile_lt h]
  simp only [Nat.lt_succ_iff]

theorem filter_lt (m : Nat) : es.filter (fun e => idx e < m) = es.take (m - n) := by
  induction es generalizing n with
  | nil => simp
  | cons e es ih =>
    obtain ⟨he, hes⟩ := h
    by_cases hm : idx e < m
    · rw [List.filter_cons_of_pos (by simpa using hm), ih hes,
        show m - n = (m - (n + 1)) + 1 by omega, List.take_succ_cons]
    · rw [List.filter_cons_of_neg (by simpa using hm), ih hes, Nat.sub_eq_zero_of_le (by omega),
        Nat.sub_eq_zero_of_le (by omega), List.take_zero, List.take_zero]

theorem filter_ge (m : Nat) : es.filter (fun e => m ≤ idx e) = es.drop (m - n) := by
  induction es generalizing n with
  | nil => simp
  | cons e es ih =>
    obtain ⟨he, hes⟩ := h
    by_cases hm : m ≤ idx e
    · rw [List.filter_cons_of_pos (by simpa using hm), ih hes, Nat.sub_eq_zero_of_le (by omega),
        Nat.sub_eq_zero_of_le (by omega), List.drop_zero, List.drop_zero]
    · rw [List.filter_cons_of_neg (by simpa using hm), ih hes,
        show m - n = (m - (n + 1)) + 1 by omega, List.drop_succ_cons]

theorem filter_between (lo hi : Nat) :
    es.filter (fun e => lo ≤ idx e && idx e < hi) = (es.drop (lo - n)).take (hi - max lo n) := by
  rw [← List.filter_filter, filter_lt h, filter_ge (h.take _), List.drop_take,
    show hi - n - (lo - n) = hi - max lo n by omega]

theorem rdropWhile_ge (m : Nat) : es.rdropWhile (fun e => m ≤ idx e) = es.take (m - n) := by
  induction es using List.reverseRecOn with
  | nil => simp
  | append_singleton es e ih =>
    obtain ⟨hes, he, -⟩ := from_append.1 h
    rw [List.rdropWhile_concat]
    by_cases hm : m ≤ idx e
    · rw [if_pos (by simpa using hm), ih hes, List.take_append_of_le_length (by omega)]
    rw [if_neg (by simpa using hm), List.take_of_length_le]
    simp only [List.length_append, List.length_cons, List.length_nil]
    omega

end

/-! ## The longest prefix within a limit -/

variable {size : α → Nat} {max b : Nat}

def total (size : α → Nat) (es : List α) : Nat := (es.map size).sum

@[simp] theorem total_nil : total size [] = 0 := rfl

@[simp] theorem total_cons (e : α) : total size (e :: es) = size e + total size es := by
  simp [total]

@[simp] theorem total_append : total size (xs ++ ys) = total size xs + total size ys := by
  simp [total]

theorem total_filter_le (p : α → Bool) : total size (es.filter p) ≤ total size es := by
  induction es with
  | nil => exact Nat.le_refl _
  | cons e es ih =>
    rw [List.filter_cons]
    split <;> simp only [total_cons] <;> omega

/-- Elements while they fit, with `b` used up already. The first one is taken
whatever its size, unless something has been taken before (`some`). -/
def fit (size : α → Nat) (max : Nat) : Nat → Bool → List α → List α
  | _, _, [] => []
  | b, taken, e :: es =>
    if taken ∧ b + size e > max then [] else e :: fit size max (b + size e) true es

theorem fit_cons (taken : Bool) (e : α) : fit size max b taken (e :: es) =
    if taken ∧ b + size e > max then [] else e :: fit size max (b + size e) true es := rfl

theorem fit_isPrefix (taken : Bool) : fit size max b taken es <+: es := by
  induction es generalizing b taken with
  | nil => exact List.prefix_rfl
  | cons e es ih =>
    rw [fit_cons]
    split
    · exact List.nil_prefix
    · exact List.cons_prefix_cons.2 ⟨rfl, ih true⟩

/-- All of `xs` fits: go on with `ys`. -/
theorem fit_append (taken : Bool) (h : fit size max b taken xs = xs) :
    fit size max b taken (xs ++ ys) =
      xs ++ fit size max (b + total size xs) (taken || !xs.isEmpty) ys := by
  induction xs generalizing b taken with
  | nil => simp
  | cons x xs ih =>
    rw [fit_cons] at h
    split at h
    · cases h
    next hx =>
      have hxs : fit size max (b + size x) true xs = xs := (List.cons.inj h).2
      rw [List.cons_append, fit_cons, if_neg hx, ih true hxs]
      simp [Nat.add_assoc]

/-- Not all of `xs` fits: that is the end. -/
theorem fit_append_stop (taken : Bool) (h : fit size max b taken xs ≠ xs) :
    fit size max b taken (xs ++ ys) = fit size max b taken xs := by
  induction xs generalizing b taken with
  | nil => exact absurd rfl h
  | cons x xs ih =>
    rw [List.cons_append, fit_cons, fit_cons]
    split
    · rfl
    next hx =>
      rw [fit_cons, if_neg hx] at h
      rw [ih true (fun he => h (by rw [he]))]

/-- Nothing more is taken once the limit is reached. -/
theorem fit_full (hpos : ∀ e, 0 < size e) (h : max ≤ b) : fit size max b true es = [] := by
  cases es with
  | nil => rfl
  | cons e es =>
    rw [fit_cons, if_pos ⟨rfl, by have := hpos e; omega⟩]

theorem fit_all (taken : Bool) (h : b + total size es ≤ max) : fit size max b taken es = es := by
  induction es generalizing b taken with
  | nil => rfl
  | cons e es ih =>
    rw [total_cons] at h
    rw [fit_cons, if_neg (by omega), ih true (by omega)]

theorem fit_ne_nil (h : es ≠ []) : fit size max b false es ≠ [] := by
  cases es with
  | nil => exact absurd rfl h
  | cons e es => simp [fit_cons]

theorem fit_total_taken (h : b ≤ max) : b + total size (fit size max b true es) ≤ max := by
  induction es generalizing b with
  | nil => simpa [fit] using h
  | cons e es ih =>
    rw [fit_cons]
    split
    · simpa using h
    next he =>
      have := @ih (b + size e) (by simp only [true_and] at he; omega)
      rw [total_cons]
      omega

/-- What follows the taken elements is over the limit. -/
theorem fit_stop (h : es = fit size max b true es ++ e :: xs) :
    max < b + total size (fit size max b true es) + size e := by
  induction es generalizing b with
  | nil => simp at h
  | cons x es ih =>
    rw [fit_cons] at h ⊢
    split at h
    next hx =>
      obtain ⟨rfl, -⟩ := List.cons.inj h
      rw [if_pos hx, total_nil]
      exact hx.2
    next hx =>
      have hes := ih (List.cons.inj h).2
      rw [if_neg hx, total_cons]
      omega

/-- What is taken stays within the limit, or is a single element. -/
theorem fit_total : total size (fit size max 0 false es) ≤ max ∨
    (fit size max 0 false es).length = 1 := by
  cases es with
  | nil => left; simp [fit]
  | cons e es =>
    have hf : fit size max 0 false (e :: es) = e :: fit size max (0 + size e) true es := by
      simp [fit_cons]
    by_cases he : size e ≤ max
    · left
      have hle : 0 + size e + total size (fit size max (0 + size e) true es) ≤ max :=
        fit_total_taken (by omega)
      rw [hf, total_cons]
      omega
    · right
      cases es with
      | nil => simp [fit]
      | cons e' es =>
        have hstop : fit size max (0 + size e) true (e' :: es) = [] := by
          rw [fit_cons, if_pos ⟨rfl, by omega⟩]
        rw [hf, hstop]
        rfl

end Numbered
