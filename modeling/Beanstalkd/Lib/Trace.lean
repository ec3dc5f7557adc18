/-!
# Traces

A trace is the list of what was observed, in order. A statement about the past of each
observation (`Always P`: `P` relates what came before to what came then) is carried along
by looking at the new observation only. That some observations came one after another is
`List.Sublist`, which later observations do not change.
-/

namespace Trace

variable {α : Type} {P : List α → α → Prop} {t : List α} {a : α}

/-- Every observation stands in the relation to those before it. -/
def Always (P : List α → α → Prop) (t : List α) : Prop :=
  ∀ before a after, t = before ++ a :: after → P before a

theorem Always.nil : Always P [] := by
  intro before a after h
  exact absurd h.symm (List.append_ne_nil_of_right_ne_nil _ (List.cons_ne_nil _ _))

theorem Always.snoc (h : Always P t) (ha : P t a) : Always P (t ++ [a]) := by
  intro before b after heq
  rcases List.append_eq_append_iff.mp heq with ⟨l, hbefore, hl⟩ | ⟨l, ht, hl⟩
  · -- the new observation
    obtain ⟨rfl, hcons⟩ : l = [] ∧ a = b := by
      cases l with
      | nil => exact ⟨rfl, (List.cons.inj hl).1⟩
      | cons x l => simp at hl
    rw [hbefore, List.append_nil, ← hcons]
    exact ha
  · cases l with
    | nil =>
      rw [List.append_nil] at ht
      rw [← ht, (List.cons.inj hl).1]
      exact ha
    | cons x l =>
      obtain ⟨rfl, -⟩ := List.cons.inj hl
      exact h before b l ht

/-- What was observed stays observed. -/
theorem sublist_snoc {l : List α} (h : l.Sublist t) : l.Sublist (t ++ [a]) :=
  h.trans (List.sublist_append_left ..)

/-- The new observation comes last. -/
theorem snoc_sublist_snoc {l : List α} (h : l.Sublist t) : (l ++ [a]).Sublist (t ++ [a]) :=
  h.append (List.Sublist.refl [a])

end Trace
