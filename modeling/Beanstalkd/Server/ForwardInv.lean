import Beanstalkd.Server.Forward

/-!
# The forward queue keeps its books

`ForwardQueue.Ok`: the cursor stays inside the queue and `bytes` is the sum of
the item sizes. Each operation of the queue has one lemma that says what happens
to the queued inputs (`keys`), which is all that the protocol argument needs.
-/

namespace Beanstalkd.Server

open Raft

namespace ForwardQueue

variable {q q' : ForwardQueue} {conn : ConnId} {seq : Nat} {input : EngineInput}

/-- The queued inputs with their numbers. -/
def keys (q : ForwardQueue) : List (Nat × EngineInput) := q.items.map Item.key

structure Ok (q : ForwardQueue) : Prop where
  cursor : q.cursor ≤ q.items.length
  bytes : q.bytes = (q.items.map Item.size).sum
  conns : ∀ item ∈ q.items, item.input.conn = some item.conn

theorem ok_empty : Ok {} := ⟨le_rfl, rfl, fun _ h => nomatch h⟩

theorem Ok.push (h : q.Ok) (hi : input.conn = some conn) : (q.push conn seq input).Ok where
  cursor := by
    have := h.cursor
    simp only [ForwardQueue.push, List.length_append, List.length_singleton]
    omega
  bytes := by simp [ForwardQueue.push, h.bytes]
  conns := fun item hitem => by
    rcases List.mem_append.mp hitem with hitem | hitem
    · exact h.conns item hitem
    · exact List.mem_singleton.mp hitem ▸ hi

theorem keys_push : (q.push conn seq input).keys = q.keys ++ [(seq, input)] := by
  simp [keys, push, Item.key]

theorem Ok.rewind (h : q.Ok) : q.rewind.Ok := ⟨Nat.zero_le _, h.bytes, h.conns⟩

/-! ## Sending -/

/-- Nothing but the bookkeeping of sends changes. -/
def Sends (q q' : ForwardQueue) : Prop := q'.Ok ∧ q'.keys = q.keys

theorem sendNext_sends {item : Item} (h : q.Ok) (hs : q.sendNext = some (item, q')) :
    Sends q q' ∧ item.key ∈ q.keys := by
  unfold sendNext at hs
  split at hs
  · cases hs
  next old hold =>
  cases hs
  obtain ⟨hlt, hget⟩ := List.getElem?_eq_some_iff.mp hold
  have hmem : old ∈ q.items := hget ▸ List.getElem_mem hlt
  -- the item is put back with the same number, input and size
  have hsame : ∀ {β : Type} (f : Item → β) (new : Item), f new = f old →
      (q.items.set q.cursor new).map f = q.items.map f := fun f new hf => by
    rw [List.map_set, hf, ← hget, ← List.getElem_map (f := f) (h := by simpa using hlt)]
    exact List.set_getElem_self _
  refine ⟨⟨⟨?_, ?_, fun item hitem => ?_⟩, hsame Item.key _ rfl⟩, ?_⟩
  · simpa using Nat.succ_le_of_lt hlt
  · simp only [hsame Item.size]
    exact h.bytes
  · rcases List.mem_or_eq_of_mem_set hitem with hitem | rfl
    · exact h.conns item hitem
    · exact h.conns old hmem
  · exact List.mem_map.mpr ⟨old, hmem, rfl⟩

/-- The state of a sending loop that started from `q`. -/
def Sending (q : ForwardQueue) (s : ForwardQueue × List Item) : Prop :=
  Sends q s.1 ∧ ∀ item ∈ s.2, item.key ∈ q.keys

theorem sendOne_sending {s s' : ForwardQueue × List Item} (h : Sending q s)
    (hs : sendOne s = some s') : Sending q s' := by
  obtain ⟨⟨item, q₁⟩, hnext, rfl⟩ := Option.map_eq_some_iff.mp hs
  obtain ⟨⟨hok, hkeys⟩, hmem⟩ := h
  obtain ⟨⟨hok', hkeys'⟩, hitem⟩ := sendNext_sends hok hnext
  refine ⟨⟨hok', hkeys'.trans hkeys⟩, fun j hj => ?_⟩
  rcases List.mem_append.mp hj with hj | hj
  · exact hmem j hj
  · exact List.mem_singleton.mp hj ▸ hkeys ▸ hitem

theorem sendBatchOne_sending {s s' : (ForwardQueue × List Item) × Nat} (h : Sending q s.1)
    (hs : sendBatchOne s = some s') : Sending q s'.1 := by
  unfold sendBatchOne at hs
  split at hs
  · cases hs
  split at hs
  · cases hs
  · obtain ⟨s₁, hone, rfl⟩ := Option.map_eq_some_iff.mp hs
    exact sendOne_sending h hone

theorem Ok.sending (h : q.Ok) : Sending q (q, []) := ⟨⟨h, rfl⟩, fun _ hmem => nomatch hmem⟩

theorem sendAll_sending (h : q.Ok) : Sending q q.sendAll :=
  Loop.loop_inv (fun _ _ => sendOne_sending) _ h.sending

theorem sendBatch_sending (h : q.Ok) : Sending q q.sendBatch :=
  Loop.loop_inv
    (fun _ _ => sendBatchOne_sending) _ h.sending

/-! ## Leaving the queue -/

/-- `applied` removes the item with that number, if it is queued. -/
theorem applied_cases (q : ForwardQueue) (conn : ConnId) (seq : Nat) :
    (q.applied conn seq).2 = q ∨
      ∃ pre item post, q.items = pre ++ item :: post ∧ item.conn = conn ∧ item.seq = seq ∧
        (q.applied conn seq).2 = { q with
          items := pre ++ post
          bytes := q.bytes - item.size
          cursor := if pre.length < q.cursor then q.cursor - 1 else q.cursor } := by
  unfold applied
  split
  · exact .inl rfl
  next pos hpos =>
  split
  · exact .inl rfl
  next item hitem =>
  obtain ⟨hlt, hget⟩ := List.getElem?_eq_some_iff.mp hitem
  obtain ⟨_, hfound, _⟩ := List.findIdx?_eq_some_iff_getElem.mp hpos
  rw [hget] at hfound
  simp only [Bool.and_eq_true, decide_eq_true_eq] at hfound
  have hsplit : q.items = q.items.take pos ++ item :: q.items.drop (pos + 1) := by
    rw [← hget, List.getElem_cons_drop, List.take_append_drop]
  have hlen : (q.items.take pos).length = pos := by simp [Nat.le_of_lt hlt]
  refine .inr ⟨_, item, _, hsplit, hfound.1, hfound.2, ?_⟩
  rw [hlen, List.eraseIdx_eq_take_drop_succ]

theorem Ok.applied (h : q.Ok) : (q.applied conn seq).2.Ok := by
  obtain heq | ⟨pre, item, post, hitems, -, -, heq⟩ := applied_cases q conn seq
  · rw [heq]
    exact h
  obtain ⟨hcursor, hbytes, hconns⟩ := h
  rw [hitems] at hcursor hbytes hconns
  simp only [List.length_append, List.length_cons, List.map_append, List.map_cons,
    List.sum_append, List.sum_cons] at hcursor hbytes
  rw [heq]
  refine ⟨?_, ?_, fun j hj => hconns j ?_⟩
  · simp only [List.length_append]
    split <;> omega
  · simp only [List.map_append, List.sum_append]
    omega
  rcases List.mem_append.mp hj with hj | hj
  · exact List.mem_append_left _ hj
  · exact List.mem_append_right _ (List.mem_cons_of_mem _ hj)

theorem sum_filter_not (keep : Item → Bool) (items : List Item) :
    (items.map Item.size).sum = ((items.filter keep).map Item.size).sum +
      ((items.filter fun i => !keep i).map Item.size).sum := by
  induction items with
  | nil => rfl
  | cons i items ih =>
    cases hk : keep i <;> simp [hk, ih] <;> omega

theorem Ok.retain (h : q.Ok) (keep : Item → Bool) : (q.retain keep).Ok where
  cursor := Nat.zero_le _
  bytes := by
    have := sum_filter_not keep q.items
    simp only [ForwardQueue.retain, h.bytes]
    omega
  conns := fun item hitem => h.conns item (List.mem_of_mem_filter hitem)

end ForwardQueue

end Beanstalkd.Server
