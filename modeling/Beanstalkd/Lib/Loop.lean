/-!
# Loops with fuel, and runs of a step function

A `while` loop is modelled as `loop fuel step s`: `step` is the loop body, and
it answers `none` where the loop stops. The two rules are the usual ones:

- `loop_inv`: what the body preserves, the loop preserves;
- `loop_stop`: if a measure drops at every round and starts below the fuel,
  the loop ends because the body said stop, not because the fuel ran out.

`loop_rec` is the induction behind both. `foldl_inv` is the same rule for a
fold over a list, the shape of a run of inputs.

`states` lists the states in which a round is made; what a log gains in each of
them, it gains over the loop (`loop_log`).
-/

namespace Loop

variable {σ α : Type} {s : σ} {P : σ → Prop}

/-- Repeat `step` until it answers `none`, at most `fuel` times. -/
def loop : Nat → (σ → Option σ) → σ → σ
  | 0, _, s => s
  | n + 1, step, s =>
    match step s with
    | none => s
    | some s' => loop n step s'

theorem loop_none {n : Nat} {step : σ → Option σ} (h : step s = none) : loop n step s = s := by
  cases n with
  | zero => rfl
  | succ n => simp only [loop, h]

theorem loop_some {n : Nat} {step : σ → Option σ} {s' : σ} (h : step s = some s') :
    loop (n + 1) step s = loop n step s' := by
  simp only [loop, h]

/-- Relational rule: `R` holds of the start and the end of the loop when it is
reflexive and the body can be put in front of it. -/
theorem loop_rec {R : σ → σ → Prop} {step : σ → Option σ} (hrefl : ∀ s, P s → R s s)
    (hstep : ∀ s s', P s → step s = some s' → P s' ∧ ∀ t, R s' t → R s t) :
    ∀ (n : Nat) {s : σ}, P s → P (loop n step s) ∧ R s (loop n step s) := by
  intro n
  induction n with
  | zero => intro s hs; exact ⟨hs, hrefl s hs⟩
  | succ n ih =>
    intro s hs
    cases h : step s with
    | none => rw [loop_none h]; exact ⟨hs, hrefl s hs⟩
    | some s' =>
      rw [loop_some h]
      obtain ⟨hs', hR⟩ := hstep s s' hs h
      obtain ⟨h1, h2⟩ := ih hs'
      exact ⟨h1, hR _ h2⟩

theorem loop_inv {step : σ → Option σ} (hstep : ∀ s s', P s → step s = some s' → P s') (n : Nat)
    (hs : P s) : P (loop n step s) :=
  (loop_rec (fun _ _ => trivial)
    (fun s s' h hs' => ⟨hstep s s' h hs', fun _ _ => trivial⟩) n hs).1

/-- With fuel above the measure the loop runs to its own end. -/
theorem loop_stop {step : σ → Option σ} (μ : σ → Nat)
    (hstep : ∀ s s', P s → step s = some s' → P s' ∧ μ s' < μ s) :
    ∀ (n : Nat) {s : σ}, P s → μ s < n → step (loop n step s) = none := by
  intro n
  induction n with
  | zero => intro s _ h; omega
  | succ n ih =>
    intro s hs hn
    cases h : step s with
    | none => rw [loop_none h]; exact h
    | some s' =>
      rw [loop_some h]
      obtain ⟨hs', hμ⟩ := hstep s s' hs h
      exact ih hs' (by omega)

/-- The states in which a round is made. -/
def states : Nat → (σ → Option σ) → σ → List σ
  | 0, _, _ => []
  | n + 1, step, s =>
    match step s with
    | none => []
    | some s' => s :: states n step s'

theorem states_none {n : Nat} {step : σ → Option σ} (h : step s = none) : states n step s = [] := by
  cases n with
  | zero => rfl
  | succ n => simp only [states, h]

theorem states_some {n : Nat} {step : σ → Option σ} {s' : σ} (h : step s = some s') :
    states (n + 1) step s = s :: states n step s' := by
  simp only [states, h]

theorem mem_states {step : σ → Option σ} (hstep : ∀ s s', P s → step s = some s' → P s') :
    ∀ (n : Nat) {s : σ}, P s → ∀ x ∈ states n step s, P x ∧ ∃ y, step x = some y := by
  intro n
  induction n with
  | zero => intro s _ x hx; cases hx
  | succ n ih =>
    intro s hs x hx
    cases h : step s with
    | none => rw [states_none h] at hx; cases hx
    | some s' =>
      rw [states_some h] at hx
      rcases List.mem_cons.mp hx with rfl | hx
      · exact ⟨hs, s', h⟩
      · exact ih (hstep s s' hs h) x hx

/-- A log that every round appends to. -/
theorem loop_log {step : σ → Option σ} (log : σ → List α) {adds : σ → List α}
    (hstep : ∀ s s', P s → step s = some s' → P s' ∧ log s' = log s ++ adds s) :
    ∀ (n : Nat) {s : σ}, P s →
      log (loop n step s) = log s ++ (states n step s).flatMap adds := by
  intro n
  induction n with
  | zero => intro s _; exact (List.append_nil _).symm
  | succ n ih =>
    intro s hs
    cases h : step s with
    | none => rw [loop_none h, states_none h, List.flatMap_nil, List.append_nil]
    | some s' =>
      obtain ⟨hs', hlog⟩ := hstep s s' hs h
      rw [loop_some h, states_some h, ih hs', hlog, List.flatMap_cons, List.append_assoc]

/-- What every step of a fold preserves, the fold preserves. -/
theorem foldl_inv {f : σ → α → σ} :
    ∀ (l : List α) {s : σ}, (∀ s, ∀ a ∈ l, P s → P (f s a)) → P s → P (l.foldl f s) := by
  intro l
  induction l with
  | nil => intro s _ hs; exact hs
  | cons a l ih =>
    intro s h hs
    exact ih (fun s b hb => h s b (List.mem_cons_of_mem _ hb)) (h s a List.mem_cons_self hs)

end Loop
