/-!
# Slabs and swap-removal

Two shapes of vector that hand out positions as names.

A *slab* is a vector of optional slots: a slot keeps its index while its value
lives, and the index may be reused afterwards. `get` reads a slot (an index out
of range reads as free), `modify` updates a live one in place. `view` is the
slab seen through a projection of its values; an update that the projection
does not notice leaves the view alone, which is how most functions leave most
invariants alone.

`swapRemove` is `Vec::swap_remove`: the last element takes the removed one's
place. Order is not kept, so what survives is the multiset (`swapRemove_perm`)
and the exact position of every element (`getElem?_swapRemove`).
-/

namespace Slab

variable {α β : Type}

/-- The value in slot `i`, if the slot is live. -/
def get (l : List (Option α)) (i : Nat) : Option α := l[i]?.join

/-- The live slots, in order. -/
def entries (l : List (Option α)) : List (Nat × α) :=
  l.zipIdx.filterMap fun (o, i) => o.map fun a => (i, a)

/-- Update slot `i` if it is live. -/
def modify (l : List (Option α)) (i : Nat) (f : α → α) : List (Option α) :=
  List.modify l i (Option.map f)

variable {l : List (Option α)} {i k : Nat} {a : α} {v : α → β}

theorem get_modify (l : List (Option α)) (i k : Nat) (f : α → α) :
    get (modify l i f) k = if i = k then (get l k).map f else get l k := by
  unfold get modify
  rw [List.getElem?_modify]
  split
  · next h => rcases l[k]? with _ | _ | _ <;> simp
  · next h => rcases l[k]? with _ | _ | _ <;> simp

@[simp] theorem get_modify_self (l : List (Option α)) (i : Nat) (f : α → α) :
    get (modify l i f) i = (get l i).map f := by
  rw [get_modify, if_pos rfl]

theorem get_modify_ne {f : α → α} (h : i ≠ k) :
    get (modify l i f) k = get l k := by
  rw [get_modify, if_neg h]

@[simp] theorem length_modify (l : List (Option α)) (i : Nat) (f : α → α) :
    (modify l i f).length = l.length := List.length_modify ..

theorem get_eq_some_iff : get l i = some a ↔ l[i]? = some (some a) := by
  unfold get
  rcases l[i]? with _ | _ | b <;> simp

theorem lt_length_of_get (h : get l i = some a) : i < l.length := by
  rw [get_eq_some_iff] at h
  exact (List.getElem?_eq_some_iff.mp h).1

theorem get_set (hi : i < l.length) (o : Option α) (k : Nat) :
    get (l.set i o) k = if i = k then o else get l k := by
  unfold get
  rw [List.getElem?_set]
  split
  · simp
  · rfl

theorem get_push (l : List (Option α)) (o : Option α) (k : Nat) :
    get (l ++ [o]) k = if l.length = k then o else get l k := by
  unfold get
  rw [List.getElem?_append]
  by_cases h : k < l.length
  · rw [if_pos h, if_neg (by omega)]
  by_cases hk : l.length = k
  · subst hk; simp
  · rw [if_neg h, if_neg hk, List.getElem?_eq_none (by simp; omega),
      List.getElem?_eq_none (by omega)]

/-- The slab seen through a projection of its values. -/
def view (v : α → β) (l : List (Option α)) (i : Nat) : Option β := (get l i).map v

theorem view_eq_some_iff {b : β} :
    view v l i = some b ↔ ∃ a, get l i = some a ∧ v a = b := by
  unfold view
  rw [Option.map_eq_some_iff]

/-- What a view shows is there. -/
theorem exists_of_view {b : β} (h : view v l i = some b) : ∃ a, get l i = some a :=
  (view_eq_some_iff.mp h).imp fun _ h => h.1

theorem forall_view {P : Nat → β → Prop} :
    (∀ i b, view v l i = some b → P i b) ↔ ∀ i a, get l i = some a → P i (v a) := by
  simp only [view_eq_some_iff]
  exact ⟨fun h i a ha => h i _ ⟨a, ha, rfl⟩, fun h i _ ⟨a, ha, hv⟩ => hv ▸ h i a ha⟩

theorem view_of_get (h : get l i = some a) : view v l i = some (v a) := by
  rw [view, h, Option.map_some]

/-- An update the projection does not notice leaves the view alone. -/
theorem view_modify {f : α → α} (h : ∀ a, v (f a) = v a) : view v (modify l i f) = view v l := by
  funext k
  unfold view
  rw [get_modify]
  split
  · cases get l k with
    | none => rfl
    | some a => simp [h a]
  · rfl

theorem view_modify_ne {f : α → α} (h : k ≠ i) : view v (modify l i f) k = view v l k := by
  rw [view, get_modify_ne (Ne.symm h), view]

/-- A view of a view. -/
theorem view_of_view {γ : Type} {l' : List (Option α)} (h : view v l' = view v l) (g : β → γ) :
    view (fun a => g (v a)) l' = view (fun a => g (v a)) l := by
  funext k
  have hk := congrArg (Option.map g) (congrFun h k)
  rwa [view, view, Option.map_map, Option.map_map] at hk

/-- A view with the value at `i` replaced. -/
def setAt (v : Nat → Option β) (i : Nat) (b : Option β) (k : Nat) : Option β :=
  if i = k then b else v k

@[simp] theorem setAt_self (v : Nat → Option β) (i : Nat) (b : Option β) : setAt v i b i = b :=
  if_pos rfl

theorem setAt_ne {v : Nat → Option β} {b : Option β} (h : i ≠ k) : setAt v i b k = v k := if_neg h

/-- What stands at `k` after the replacement is the new value, or what stood there. -/
theorem of_setAt {v : Nat → Option β} {b : Option β} {c : β} (h : setAt v i b k = some c) :
    (i = k ∧ b = some c) ∨ (i ≠ k ∧ v k = some c) := by
  unfold setAt at h
  split at h
  · next hik => exact .inl ⟨hik, h⟩
  · next hik => exact .inr ⟨hik, h⟩

theorem setAt_setAt (v : Nat → Option β) (i : Nat) (b b' : Option β) :
    setAt (setAt v i b) i b' = setAt v i b' := by
  funext k
  unfold setAt
  split <;> rfl

/-- An update of a live slot, seen through the projection. -/
theorem view_modify_at (v : α → β) (f : α → α) (h : get l i = some a) :
    view v (modify l i f) = setAt (view v l) i (some (v (f a))) := by
  funext k
  unfold view setAt
  rw [get_modify]
  split
  · next hk => rw [← hk, h]; rfl
  · rfl

end Slab

namespace SwapRemove

variable {α β : Type} {l : List α} {i : Nat}

/-- `Vec::swap_remove`: the last element takes the place of the one at `i`. -/
def swapRemove (l : List α) (i : Nat) : List α :=
  match l.getLast? with
  | none => l
  | some z => (l.set i z).dropLast

theorem swapRemove_concat_last (l : List α) (z : α) : swapRemove (l ++ [z]) l.length = l := by
  simp [swapRemove]

theorem swapRemove_concat (z : α) (h : i < l.length) : swapRemove (l ++ [z]) i = l.set i z := by
  simp [swapRemove, h]

/-- What is left, together with what was removed, is what was there. -/
theorem swapRemove_perm {x : α} (h : l[i]? = some x) : l.Perm (x :: swapRemove l i) := by
  rcases List.eq_nil_or_concat l with hl | ⟨l', z, rfl⟩
  · rw [hl] at h; cases h
  rw [List.concat_eq_append] at h ⊢
  by_cases hi : i < l'.length
  · rw [swapRemove_concat z hi]
    rw [List.getElem?_append_left hi] at h
    obtain ⟨hlt, hx⟩ := List.getElem?_eq_some_iff.mp h
    have hsplit : l' = l'.take i ++ x :: l'.drop (i + 1) := by
      rw [← hx, List.getElem_cons_drop, List.take_append_drop]
    have hset : l'.set i z = l'.take i ++ z :: l'.drop (i + 1) :=
      List.set_eq_take_append_cons_drop .. |>.trans (if_pos hi)
    rw [hset]
    have hcons : l' ++ [z] = l'.take i ++ x :: (l'.drop (i + 1) ++ [z]) := by
      rw [← List.cons_append, ← List.append_assoc, ← hsplit]
    rw [hcons]
    exact List.perm_middle.trans (((List.perm_append_singleton z _).append_left _).cons x)
  · have hi' : i = l'.length := by
      have := (List.getElem?_eq_some_iff.mp h).1
      simp at this; omega
    subst hi'
    have hx : z = x := by simpa using h
    rw [swapRemove_concat_last, ← hx]
    exact List.perm_append_singleton z l'

theorem length_swapRemove (l : List α) (i : Nat) :
    (swapRemove l i).length = l.length - 1 := by
  rcases List.eq_nil_or_concat l with hl | ⟨l', z, rfl⟩
  · rw [hl]; rfl
  · simp [swapRemove]

/-- Where every element is after a removal at `i`. -/
theorem getElem?_swapRemove (hi : i < l.length) (k : Nat) :
    (swapRemove l i)[k]? =
      if k < l.length - 1 then (if k = i then l[l.length - 1]? else l[k]?) else none := by
  rcases List.eq_nil_or_concat l with hl | ⟨l', z, rfl⟩
  · rw [hl] at hi; simp at hi
  simp only [List.concat_eq_append, List.length_append, List.length_singleton] at hi ⊢
  simp only [Nat.add_sub_cancel]
  by_cases h : i < l'.length
  · rw [swapRemove_concat z h, List.getElem?_set]
    by_cases hk : i = k
    · subst hk; simp [h]
    rw [if_neg hk]
    by_cases hkl : k < l'.length
    · rw [if_pos hkl, if_neg (Ne.symm hk), List.getElem?_append_left hkl]
    · rw [if_neg hkl, List.getElem?_eq_none (by omega)]
  · have hi' : i = l'.length := by omega
    subst hi'
    rw [swapRemove_concat_last]
    by_cases hkl : k < l'.length
    · rw [if_pos hkl, if_neg (by omega), List.getElem?_append_left hkl]
    · rw [if_neg hkl, List.getElem?_eq_none (by omega)]

end SwapRemove
