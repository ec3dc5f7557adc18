/-!
# Labelled runs

A labelled transition system is a relation `step s ε t`: from `s`, event `ε` leads to
`t`. `Run step s es t` is a finite run with the list of its events. Runs compose
(`append`) and come apart (`split_append`), and what every event of a run preserves
holds at its end (`inv`).
-/

variable {σ ε : Type}

/-- `es` are the events of a run from the first state to the second. -/
inductive Run (step : σ → ε → σ → Prop) : σ → List ε → σ → Prop where
  | nil (s : σ) : Run step s [] s
  | cons {s t u : σ} {a : ε} {es : List ε} : step s a t → Run step t es u → Run step s (a :: es) u

namespace Run

variable {step : σ → ε → σ → Prop} {s t u : σ} {es fs : List ε} {a : ε}

theorem single (h : step s a t) : Run step s [a] t := .cons h (.nil t)

theorem append (h : Run step s es t) (h' : Run step t fs u) : Run step s (es ++ fs) u := by
  induction h with
  | nil => exact h'
  | cons hs _ ih => exact .cons hs (ih h')

/-- Nothing happened, so nothing changed. -/
theorem nil_eq (h : Run step s [] t) : t = s := by
  cases h
  rfl

theorem snoc (h : Run step s es t) (h' : step t a u) : Run step s (es ++ [a]) u :=
  h.append (single h')

theorem split_append (h : Run step s (es ++ fs) u) : ∃ t, Run step s es t ∧ Run step t fs u := by
  induction es generalizing s with
  | nil => exact ⟨s, .nil s, h⟩
  | cons a es ih =>
    cases h with
    | cons hs h =>
      obtain ⟨t, h₁, h₂⟩ := ih h
      exact ⟨t, .cons hs h₁, h₂⟩

/-- What the events of the run preserve holds at its end. -/
theorem inv {P : σ → Prop} (h : Run step s es t)
    (hstep : ∀ s t a, a ∈ es → step s a t → P s → P t) (hs : P s) : P t := by
  induction h with
  | nil => exact hs
  | cons hst _ ih =>
    exact ih (fun s t b hb => hstep s t b (List.mem_cons_of_mem _ hb))
      (hstep _ _ _ List.mem_cons_self hst hs)

end Run
