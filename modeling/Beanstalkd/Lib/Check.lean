/-!
# Validators

A validator walks over a value and stops with a message at the first thing that
is wrong. `ensure` is one test; `each` is a loop over a list in which a test may
also look at the elements before the current one, as a loop that fills a set of
elements seen does.

The three `_ok` rules read a validator as the proposition it decides, so that
`simp` turns "the validator accepts" into a conjunction.
-/

namespace Check

variable {α ε : Type} {f : List α → α → Except ε Unit} {l : List α} {P : α → Prop}

/-- Fail with `msg` unless `p` holds. -/
def ensure (p : Prop) [Decidable p] (msg : ε) : Except ε Unit :=
  if p then .ok () else .error msg

/-- `f` for every element of `l`, given the elements before it. -/
def eachAfter (f : List α → α → Except ε Unit) : List α → List α → Except ε Unit
  | _, [] => .ok ()
  | seen, a :: l => do
    f seen a
    eachAfter f (seen ++ [a]) l

def each (l : List α) (f : List α → α → Except ε Unit) : Except ε Unit := eachAfter f [] l

@[simp] theorem ensure_ok {p : Prop} [Decidable p] {msg : ε} : ensure p msg = .ok () ↔ p := by
  unfold ensure
  split <;> simp [*]

@[simp] theorem bind_ok {β : Type} {a : Except ε Unit} {b : Unit → Except ε β} {v : β} :
    (a >>= b) = .ok v ↔ a = .ok () ∧ b () = .ok v := by
  cases a with
  | error e => simp [bind, Except.bind]
  | ok u => simp [bind, Except.bind]

theorem eachAfter_ok (l : List α) (seen : List α) :
    eachAfter f seen l = .ok () ↔
      ∀ s a t, l = s ++ a :: t → f (seen ++ s) a = .ok () := by
  induction l generalizing seen with
  | nil => simp [eachAfter]
  | cons a l ih =>
    rw [eachAfter, bind_ok, ih]
    constructor
    · rintro ⟨ha, hl⟩ s b t heq
      cases s with
      | nil =>
        cases heq
        rw [List.append_nil]
        exact ha
      | cons x s =>
        cases heq
        have := hl s b t rfl
        rwa [List.append_assoc] at this
    · intro h
      refine ⟨?_, fun s b t heq => ?_⟩
      · have := h [] a l rfl
        rwa [List.append_nil] at this
      · have := h (a :: s) b t (by rw [heq]; rfl)
        rwa [List.append_assoc]

theorem each_ok : each l f = .ok () ↔ ∀ s a t, l = s ++ a :: t → f s a = .ok () := by
  rw [each, eachAfter_ok]
  simp only [List.nil_append]

/-- A test that does not look back. -/
theorem each_ok_of_const (h : ∀ s a, f s a = .ok () ↔ P a) : each l f = .ok () ↔ ∀ a ∈ l, P a := by
  rw [each_ok]
  constructor
  · intro hl a ha
    obtain ⟨s, t, rfl⟩ := List.append_of_mem ha
    exact (h s a).mp (hl s a t rfl)
  · rintro hl s a t rfl
    exact (h s a).mpr (hl a (List.mem_append_right _ List.mem_cons_self))

/-- A test of the element alone, and that its keys are not among those seen. -/
theorem each_ok_of_disjoint {β : Type} (keys : α → List β)
    (h : ∀ s a, f s a = .ok () ↔ P a ∧ ∀ b ∈ keys a, b ∉ s.flatMap keys) :
    each l f = .ok () ↔ (∀ a ∈ l, P a) ∧ l.Pairwise fun a a' => ∀ b ∈ keys a, b ∉ keys a' := by
  rw [each_ok]
  constructor
  · intro hl
    refine ⟨fun a ha => ?_, ?_⟩
    · obtain ⟨s, t, rfl⟩ := List.append_of_mem ha
      exact ((h s a).mp (hl s a t rfl)).1
    rw [List.pairwise_iff_forall_sublist]
    intro a a' hsub b hb hb'
    obtain ⟨s, t, rfl, ha, hat⟩ := List.cons_sublist_iff.mp hsub
    obtain ⟨u, v, rfl⟩ := List.append_of_mem (hat.subset (List.mem_singleton_self a'))
    have hfresh := ((h (s ++ u) a').mp (hl (s ++ u) a' v (by simp))).2
    exact hfresh b hb' (List.mem_flatMap.mpr ⟨a, List.mem_append_left _ ha, hb⟩)
  · rintro ⟨hP, hpw⟩ s a t rfl
    refine (h s a).mpr ⟨hP a (by simp), fun b hb hmem => ?_⟩
    obtain ⟨a', ha', hb'⟩ := List.mem_flatMap.mp hmem
    rw [List.pairwise_append] at hpw
    exact hpw.2.2 a' ha' a List.mem_cons_self b hb' hb

/-- A test of the element alone, and that its key was not seen before. -/
theorem each_ok_of_fresh {β : Type} (key : α → β)
    (h : ∀ s a, f s a = .ok () ↔ P a ∧ key a ∉ s.map key) :
    each l f = .ok () ↔ (∀ a ∈ l, P a) ∧ (l.map key).Nodup := by
  rw [each_ok_of_disjoint (P := P) fun a => [key a], List.Nodup, List.pairwise_map]
  · simp only [List.mem_singleton, forall_eq]
  intro s a
  rw [h s a]
  simp [List.mem_flatMap, eq_comm]

end Check
