import Beanstalkd.Engine.Dispatch

/-!
# Making and destroying tubes keeps the invariant

The directory is a bijection seen from three sides: slots, names, and positions
in the tube list. `Dir.make` adds a tube at the end of the list, in a free or a
new slot; `Dir.drop` takes one out by swap-removal, so the tube that was last in
the list moves to its position. "default" is at position 0 and is never
dropped, so it never moves.

For the rest of the invariant a new tube is empty, and a dropped one is
referenced by nothing.
-/

open Std

namespace Beanstalkd

open Slab (setAt)

/-! ## The directory -/

section Directory

variable {slots : Nat} {sig : TubeId → Option (TubeName × Nat)} {d : Directory} {id : TubeId}
  {name : TubeName}

/-- Each position holds one tube. -/
theorem Dir.pos_unique (h : Dir slots sig d) {i : TubeId} {n : TubeName} {p q : Nat}
    (hs : sig i = some (n, p)) (hq : d.tubeOrder.items[q]? = some i) : p = q := by
  obtain ⟨n', hn'⟩ := h.order hq
  rw [hs] at hn'
  exact congrArg Prod.snd (Option.some.inj hn')

theorem Dir.make (h : Dir slots sig d) (hname : d.tubeIds[name]? = none) (hid : sig id = none)
    {m : Nat} {free : List TubeId} (hslots : slots ≤ m) (hm : id < m)
    (hfree : ∀ i, i ∈ free ↔ i < m ∧ i ≠ id ∧ sig i = none) (hnd : free.Nodup) :
    Dir m (setAt sig id (some (name, d.tubeOrder.items.length)))
      { freeTubeIds := free, tubeIds := d.tubeIds.insert name id
        tubeOrder := d.tubeOrder.append id } where
  default := by
    rw [Slab.setAt_ne, h.default]
    rintro rfl
    rw [h.default] at hid
    cases hid
  bound := by
    intro i s hs
    by_cases hi : id = i
    · exact hi ▸ hm
    · rw [Slab.setAt_ne hi] at hs
      exact Nat.lt_of_lt_of_le (h.bound hs) hslots
  named := by
    intro i n p hs
    rw [ExtTreeMap.getElem?_insert]
    obtain ⟨rfl, ⟨⟩⟩ | ⟨hi, hs⟩ := Slab.of_setAt hs
    · simp
    have hn := h.named hs
    rw [if_neg, hn]
    intro he
    rw [LawfulEqOrd.eq_of_compare he, hn] at hname
    cases hname
  listed := by
    intro i n p hs
    obtain ⟨rfl, ⟨⟩⟩ | ⟨hi, hs⟩ := Slab.of_setAt hs
    · exact List.getElem?_concat_length
    have hp := h.listed hs
    have hlt := (List.getElem?_eq_some_iff.mp hp).1
    exact (List.getElem?_append_left hlt).trans hp
  ids := by
    intro i n hi
    rw [ExtTreeMap.getElem?_insert] at hi
    split at hi
    · next he =>
      cases hi
      rw [← LawfulEqOrd.eq_of_compare he]
      exact ⟨_, Slab.setAt_self ..⟩
    · obtain ⟨p, hp⟩ := h.ids hi
      refine ⟨p, ?_⟩
      rw [Slab.setAt_ne, hp]
      rintro rfl
      rw [hid] at hp
      cases hp
  order := by
    intro i p hp
    have hp' : (d.tubeOrder.items ++ [id])[p]? = some i := hp
    rw [List.getElem?_append] at hp'
    split at hp'
    · obtain ⟨n, hn⟩ := h.order hp'
      refine ⟨n, ?_⟩
      rw [Slab.setAt_ne, hn]
      rintro rfl
      rw [hid] at hn
      cases hn
    · next hlt =>
      have hz : p - d.tubeOrder.items.length = 0 := by
        have := (List.getElem?_eq_some_iff.mp hp').1
        simp at this
        omega
      rw [hz] at hp'
      cases hp'
      refine ⟨name, ?_⟩
      rw [Slab.setAt_self, show p = d.tubeOrder.items.length by omega]
  free := by
    intro i
    rw [hfree i]
    by_cases hi : id = i
    · subst hi
      simp
    · rw [Slab.setAt_ne hi]
      simp [Ne.symm hi]
  freeNodup := hnd

/-- The tube list after the removal of position `pos`, and the signatures: the
tube that was last is now at `pos`. -/
def dropSig (sig : TubeId → Option (TubeName × Nat)) (id : TubeId) (pos : Nat)
    (moved : Option TubeId) (k : TubeId) : Option (TubeName × Nat) :=
  if k = id then none else if moved = some k then (sig k).map fun s => (s.1, pos) else sig k

/-- Where a tube stands after the removal of position `pos`. -/
def shift (d : Directory) (pos p : Nat) : Nat :=
  if p = d.tubeOrder.items.length - 1 then pos else p

section Drop

variable {pos p : Nat} {k : TubeId} {n : TubeName}

variable (h : Dir slots sig d) (hid : sig id = some (name, pos))
include h hid

/-- The tube that moves is the one that was last, unless that is the one dropped. -/
theorem Dir.moved_iff (hk : sig k = some (n, p)) (hne : k ≠ id) :
    (d.tubeOrder.removeAt pos).items[pos]? = some k ↔ p = d.tubeOrder.items.length - 1 := by
  have hlt : pos < d.tubeOrder.items.length :=
    (List.getElem?_eq_some_iff.mp (h.listed hid)).1
  have hp := h.listed hk
  have hpp : p ≠ pos := by
    rintro rfl
    rw [h.listed hid] at hp
    exact hne (Option.some.inj hp).symm
  rw [Ms.removeAt, SwapRemove.getElem?_swapRemove hlt, if_pos rfl]
  constructor
  · intro hm
    split at hm
    · exact h.pos_unique hk hm
    · cases hm
  · intro hp'
    rw [if_pos (by omega), ← hp', hp]

/-- The surviving tubes keep their names. -/
theorem Dir.dropSig_some (hk : sig k = some (n, p)) (hne : k ≠ id) :
    dropSig sig id pos (d.tubeOrder.removeAt pos).items[pos]? k = some (n, shift d pos p) := by
  unfold dropSig shift
  rw [if_neg hne]
  by_cases hm : (d.tubeOrder.removeAt pos).items[pos]? = some k
  · rw [if_pos hm, if_pos ((h.moved_iff hid hk hne).mp hm), hk]
    rfl
  · rw [if_neg hm, if_neg fun hp => hm ((h.moved_iff hid hk hne).mpr hp), hk]

/-- Every surviving tube was there before. -/
theorem Dir.of_dropSig {p' : Nat}
    (hs : dropSig sig id pos (d.tubeOrder.removeAt pos).items[pos]? k = some (n, p')) :
    k ≠ id ∧ ∃ p, sig k = some (n, p) ∧ p' = shift d pos p := by
  have hne : k ≠ id := by
    rintro rfl
    simp [dropSig] at hs
  refine ⟨hne, ?_⟩
  cases hk : sig k with
  | none =>
    rw [dropSig, if_neg hne, hk] at hs
    simp at hs
  | some s =>
    rw [h.dropSig_some hid hk hne] at hs
    cases hs
    exact ⟨s.2, rfl, rfl⟩

/-- The tube list after the removal, read at a shifted position. -/
theorem Dir.removed_at (hp : p < d.tubeOrder.items.length) (hne : p ≠ pos) :
    (d.tubeOrder.removeAt pos).items[shift d pos p]? = d.tubeOrder.items[p]? := by
  have hlt : pos < d.tubeOrder.items.length :=
    (List.getElem?_eq_some_iff.mp (h.listed hid)).1
  unfold shift
  rw [Ms.removeAt, SwapRemove.getElem?_swapRemove hlt]
  split
  · next hl => rw [if_pos (by omega), if_pos rfl, hl]
  next hl =>
  have hlt' : p < d.tubeOrder.items.length - 1 := by omega
  rw [if_pos hlt']

theorem Dir.drop (hne : id ≠ defaultTubeId) :
    Dir slots (dropSig sig id pos (d.tubeOrder.removeAt pos).items[pos]?)
      { freeTubeIds := d.freeTubeIds ++ [id], tubeIds := d.tubeIds.erase name
        tubeOrder := d.tubeOrder.removeAt pos } where
  default := by
    have hlt : pos < d.tubeOrder.items.length :=
      (List.getElem?_eq_some_iff.mp (h.listed hid)).1
    have hpos : pos ≠ 0 := by
      rintro rfl
      have hl := h.listed hid
      rw [h.listed h.default] at hl
      exact hne (Option.some.inj hl).symm
    rw [h.dropSig_some hid h.default (Ne.symm hne), shift, if_neg (by omega)]
  bound := by
    intro i s hs
    obtain ⟨-, p, hp, -⟩ := h.of_dropSig hid hs
    exact h.bound hp
  named := by
    intro i n p' hs
    obtain ⟨hi, p, hp, -⟩ := h.of_dropSig hid hs
    refine TreeMap.erase_eq_some_iff.mpr ⟨?_, h.named hp⟩
    rintro rfl
    have hn := h.named hp
    rw [h.named hid] at hn
    exact hi (Option.some.inj hn).symm
  listed := by
    intro i n p' hs
    obtain ⟨hi, p, hp, rfl⟩ := h.of_dropSig hid hs
    have hl := h.listed hp
    rw [h.removed_at hid (List.getElem?_eq_some_iff.mp hl).1, hl]
    rintro rfl
    rw [h.listed hid] at hl
    exact hi (Option.some.inj hl).symm
  ids := by
    intro i n hi
    obtain ⟨hn, hi⟩ := TreeMap.erase_eq_some_iff.mp hi
    obtain ⟨p, hp⟩ := h.ids hi
    refine ⟨_, h.dropSig_some hid hp ?_⟩
    rintro rfl
    rw [hid] at hp
    exact hn (congrArg Prod.fst (Option.some.inj hp)).symm
  order := by
    intro i q hq
    -- every position of the new list is some old position, shifted
    obtain ⟨p, hp, hpp, rfl⟩ : ∃ p, p < d.tubeOrder.items.length ∧ p ≠ pos ∧
        q = shift d pos p := by
      have hql := (List.getElem?_eq_some_iff.mp hq).1
      rw [Ms.removeAt, SwapRemove.length_swapRemove] at hql
      unfold shift
      by_cases hqp : q = pos
      · exact ⟨d.tubeOrder.items.length - 1, by omega, by omega, by rw [if_pos rfl, hqp]⟩
      · exact ⟨q, by omega, hqp, by rw [if_neg (by omega)]⟩
    rw [h.removed_at hid hp hpp] at hq
    obtain ⟨n, hn⟩ := h.order hq
    refine ⟨n, h.dropSig_some hid hn ?_⟩
    rintro rfl
    rw [hid] at hn
    exact hpp (congrArg Prod.snd (Option.some.inj hn)).symm
  free := by
    intro i
    rw [List.mem_append, List.mem_singleton, h.free i]
    constructor
    · rintro (⟨hlt, hn⟩ | rfl)
      · refine ⟨hlt, ?_⟩
        simp [dropSig, hn]
      · exact ⟨h.bound hid, by simp [dropSig]⟩
    · rintro ⟨hlt, hn⟩
      by_cases hi : i = id
      · exact .inr hi
      refine .inl ⟨hlt, ?_⟩
      cases hs : sig i with
      | none => rfl
      | some s =>
        rw [h.dropSig_some hid hs hi] at hn
        cases hn
  freeNodup := by
    rw [List.nodup_append]
    refine ⟨h.freeNodup, by simp, ?_⟩
    rintro a ha b hb rfl
    rw [List.mem_singleton] at hb
    subst hb
    have hn := ((h.free a).mp ha).2
    rw [hid] at hn
    cases hn

end Drop

end Directory

/-! ## The rest of the invariant -/

section Aspects

variable {Q : TubeId → Option Queues} {R : ExtTreeMap ConnId Resv} {P : ExtTreeMap JobId Place}
  {T : Tally} {n : Nat} {id : TubeId} {w : TubeId → Option (List ConnId × Nat)}
  {K : ExtTreeMap ConnId (List TubeId)}

/-- The tube whose container a position is in. -/
def Loc.tube? : Loc → Option TubeId
  | .ready t _ | .delayed t _ | .buried t _ => some t
  | .held .. | .due .. => none

/-- What is filed in a tube is a job of that tube. -/
theorem tube_of_loc {l : Loc} {p : Place} (hl : l ∈ p.locs) {t : TubeId} (ht : l.tube? = some t) :
    p.tube = t := by
  obtain ⟨tube, spot⟩ := p
  cases spot <;> simp [Place.locs] at hl
  case reserved => rcases hl with rfl | rfl <;> cases ht
  all_goals
    subst hl
    exact Option.some.inj ht

/-- An empty tube changes no place. -/
theorem Placed.make {q : Queues} (h : Placed Q R P T n) (hid : Q id = none)
    (hP : ∀ (i : JobId) (p : Place), P[i]? = some p → p.tube ≠ id)
    (hr : q.ready = ∅) (hd : q.delayed = ∅) (hb : q.buried = ∅) (ht : q.tally = ⟨0, 0, 0⟩) :
    Placed (setAt Q id (some q)) R P T n where
  boxed := by
    intro l i
    rw [← h.boxed l i]
    cases l <;> simp only [Filed, setAt] <;> grind
  tally := h.tally
  tubes := by
    intro t q' hq
    obtain ⟨rfl, ⟨⟩⟩ | ⟨hid', hq⟩ := Slab.of_setAt hq
    · have hz (f : Place → Bool) :
          TreeMap.count (fun _ p => p.tube == id && f p) P = 0 := by
        have hc : ¬0 < TreeMap.count (fun _ p => p.tube == id && f p) P := by
          rw [TreeMap.count_pos_iff]
          rintro ⟨i, p, hp, hf⟩
          have := hP i p hp
          simp_all
        omega
      rw [ht, tubeTally, hz, hz, hz]
    · exact h.tubes t q' hq
  seqs := h.seqs

/-- A tube in which no job lives can go. -/
theorem Placed.drop (h : Placed Q R P T n)
    (hP : ∀ (i : JobId) (p : Place), P[i]? = some p → p.tube ≠ id) :
    Placed (setAt Q id none) R P T n where
  boxed := by
    intro l i
    rw [← h.boxed l i]
    have hno : l.tube? = some id → ¬Filed Q R l i := by
      intro ht hf
      obtain ⟨p, hp, hl⟩ := h.boxed.place_of_filed hf
      exact hP i p hp (tube_of_loc hl ht)
    cases l <;> simp only [Filed, setAt, Loc.tube?] at hno ⊢ <;> grind
  tally := h.tally
  tubes := by
    intro t q hq
    obtain ⟨rfl, ⟨⟩⟩ | ⟨hid, hq⟩ := Slab.of_setAt hq
    exact h.tubes t q hq
  seqs := h.seqs

/-- Nobody waits on a tube that was not there. -/
theorem Queued.make (h : Queued none w K) (hK : ∀ c, ¬WaitsOn K c id) :
    Queued none (setAt w id (some ([], 0))) K := by
  intro t l n ht
  obtain ⟨rfl, ⟨⟩⟩ | ⟨hid, ht⟩ := Slab.of_setAt ht
  · exact ⟨List.nodup_nil, fun c => by simp [hK c], rfl⟩
  · exact h t l n ht

theorem Queued.drop {early : Option (TubeId × ConnId)} (h : Queued early w K) :
    Queued early (setAt w id none) K := by
  intro t l n ht
  obtain ⟨rfl, ⟨⟩⟩ | ⟨hid, ht⟩ := Slab.of_setAt ht
  exact h t l n ht

theorem Calm.setAt {o : Bool} {b : TubeId → Option Bool} (h : Calm o b) {x : Option Bool}
    (hx : x ≠ some true) : Calm o (setAt b id x) := by
  intro ho t
  by_cases hid : id = t
  · subst hid
    rwa [Slab.setAt_self]
  · rw [Slab.setAt_ne hid]
    exact h ho t

end Aspects

namespace Engine

variable {e e' : Engine} {id : TubeId} {name : TubeName} {ts : TubeState}

/-! ## Making a tube -/

/-- What `find_or_make_tube` does when there is no tube of that name: a new,
empty tube in a slot that was free. -/
structure Made (e : Engine) (name : TubeName) (e' : Engine) (id : TubeId) : Prop where
  fresh : e.tubeIds[name]? = none
  free : Slab.get e.tubes id = none
  frame : ∃ tubes free, e' = { e with
    tubes := tubes, freeTubeIds := free
    tubeIds := e.tubeIds.insert name id, tubeOrder := e.tubeOrder.append id }
  get : ∀ k, Slab.get e'.tubes k =
    if id = k then some (TubeState.new name e.tubeOrder.items.length) else Slab.get e.tubes k
  slots : e.tubes.length ≤ e'.tubes.length
  slot : id < e'.tubes.length
  freeIds : ∀ i, i ∈ e'.freeTubeIds ↔
    i < e'.tubes.length ∧ i ≠ id ∧ Slab.view TubeState.sig e.tubes i = none
  freeNodup : e'.freeTubeIds.Nodup

theorem findOrMakeTube_spec (h : Dir e.tubes.length (Slab.view TubeState.sig e.tubes) e.toDirectory)
    (name : TubeName) :
    (∃ id, e.tubeIds[name]? = some id ∧ e.findOrMakeTube name = (e, id)) ∨
      Made e name (e.findOrMakeTube name).1 (e.findOrMakeTube name).2 := by
  unfold findOrMakeTube
  cases hname : e.tubeIds[name]? with
  | some id => exact .inl ⟨id, rfl, rfl⟩
  | none =>
    refine .inr ?_
    cases hlast : e.freeTubeIds.getLast? with
    | some id =>
      -- the most recently freed slot is used again
      obtain ⟨front, hfront⟩ : ∃ front, e.freeTubeIds = front ++ [id] := by
        obtain ⟨front, hf⟩ := List.getLast?_eq_some_iff.mp hlast
        exact ⟨front, hf⟩
      have hnd := h.freeNodup
      rw [hfront, List.nodup_append] at hnd
      have hid : id ∈ e.freeTubeIds := by rw [hfront]; simp
      obtain ⟨hlt, hnone⟩ := (h.free id).mp hid
      have hget : Slab.get e.tubes id = none := Option.map_eq_none_iff.mp hnone
      exact {
        fresh := hname
        free := hget
        frame := ⟨_, _, rfl⟩
        get := Slab.get_set hlt _
        slots := by simp
        slot := by simpa using hlt
        freeIds := by
          intro i
          have hi := h.free i
          rw [hfront] at hi
          simp only [hfront, List.dropLast_concat, List.length_set]
          constructor
          · intro hm
            have := hi.mp (List.mem_append_left _ hm)
            refine ⟨this.1, ?_, this.2⟩
            rintro rfl
            exact hnd.2.2 i hm i (List.mem_singleton_self i) rfl
          · rintro ⟨hlt, hne, hs⟩
            simpa [hne] using hi.mpr ⟨hlt, hs⟩
        freeNodup := by simpa [hfront] using hnd.1 }
    | none =>
      have hnil : e.freeTubeIds = [] := List.getLast?_eq_none_iff.mp hlast
      have hget : Slab.get e.tubes e.tubes.length = none := by
        rw [Slab.get, List.getElem?_eq_none (Nat.le_refl _)]
        rfl
      exact {
        fresh := hname
        free := hget
        frame := ⟨_, _, rfl⟩
        get := Slab.get_push _ _
        slots := by simp
        slot := by simp
        freeIds := by
          intro i
          have hi := h.free i
          rw [hnil] at hi
          simp only [hnil, List.length_append, List.length_singleton]
          constructor
          · intro hm; cases hm
          · rintro ⟨hlt, hne, hs⟩
            exact hi.mpr ⟨Nat.lt_of_le_of_ne (Nat.le_of_lt_succ hlt) hne, hs⟩
        freeNodup := by simp [hnil] }

/-- Making a tube concerns tubes only. -/
theorem findOrMakeTube_frame (e : Engine) (name : TubeName) :
    ∃ tubes free ids order, (e.findOrMakeTube name).1 =
      { e with tubes := tubes, freeTubeIds := free, tubeIds := ids, tubeOrder := order } := by
  unfold findOrMakeTube
  split
  · exact ⟨e.tubes, e.freeTubeIds, e.tubeIds, e.tubeOrder, rfl⟩
  · exact ⟨_, _, _, _, rfl⟩

/-- The new tube, seen through an aspect. -/
theorem Made.view (h : Made e name e' id) {β : Type} (v : TubeState → β) :
    Slab.view v e'.tubes =
      setAt (Slab.view v e.tubes) id (some (v (TubeState.new name e.tubeOrder.items.length))) := by
  funext k
  rw [Slab.view, h.get]
  unfold setAt
  split
  · rfl
  · rfl

theorem Made.view_none (h : Made e name e' id) {β : Type} (v : TubeState → β) :
    Slab.view v e.tubes id = none := by
  rw [Slab.view, h.free]
  rfl

theorem Made.housed (h : Made e name e' id) {i : TubeId}
    (hi : ∃ s, Slab.view TubeState.sig e.tubes i = some s) :
    ∃ s, Slab.view TubeState.sig e'.tubes i = some s := by
  rw [h.view]
  obtain ⟨s, hs⟩ := hi
  by_cases hid : id = i
  · subst hid
    exact ⟨_, Slab.setAt_self ..⟩
  · exact ⟨s, by rw [Slab.setAt_ne hid, hs]⟩

theorem Made.core (hm : Made e name e' id) (h : Core {} e) : Core {} e' := by
  have hsig := hm.view TubeState.sig
  have hlive {i : TubeId} (hi : ∃ s, Slab.view TubeState.sig e.tubes i = some s) : i ≠ id := by
    rintro rfl
    rw [hm.view_none] at hi
    obtain ⟨_, hi⟩ := hi
    cases hi
  have hheads : Index.Current none (Slab.view TubeState.heads e'.tubes) e.delayHeads :=
    h.heads.add (hm.view_none _) (by rw [hm.view, Slab.setAt_self]; rfl)
      fun k hk => by rw [hm.view, Slab.setAt_ne (Ne.symm hk)]
  have hdisp : Index.Marked none (Slab.view TubeState.disp e'.tubes) e.dispatchable :=
    h.disp.add (hm.view_none _) (by rw [hm.view, Slab.setAt_self]; rfl)
      fun k hk => by rw [hm.view, Slab.setAt_ne (Ne.symm hk)]
  have hpauses : PausesOk (Slab.view TubeState.pauseKey e'.tubes) e.pauses := by
    intro k t
    rw [h.pauses k t, hm.view]
    by_cases ht : id = t
    · subst ht
      simp only [Slab.setAt_self, hm.view_none]
      rfl
    · simp only [Slab.setAt_ne ht]
  have hwaits (c : ConnId) : ¬WaitsOn e.waitQueues c id := by
    rintro ⟨l, hl, hmem⟩
    obtain ⟨k, hk, rfl⟩ := TreeMap.map_eq_some_iff.mp hl
    have hmem' : id ∈ k.watch.items := by
      unfold ConnState.queue at hmem
      split at hmem
      · exact hmem
      · cases hmem
    exact hlive (h.watched.live (watches_of_conn hk) id hmem') rfl
  have hplaced := h.placed.make (q := (TubeState.new name e.tubeOrder.items.length).queues)
    (hm.view_none _) (fun i p hp => by
      rw [places_none] at hp
      obtain ⟨j, hj, rfl⟩ := Option.map_eq_some_iff.mp hp
      exact hlive (h.housed i j hj)) rfl rfl rfl rfl
  obtain ⟨tubes, free, rfl⟩ := hm.frame
  exact { h with
    dir := (h.dir.make hm.fresh (hm.view_none _) hm.slots hm.slot hm.freeIds hm.freeNodup).congr
      rfl hsig
    placed := hplaced.congr (hm.view _) rfl rfl
    housed := fun i j hj => hm.housed (h.housed i j hj)
    watched := ⟨fun hw i hi => hm.housed (h.watched.live hw i hi), h.watched.nodup⟩
    queued := (Queued.make h.queued hwaits).congr (hm.view _) rfl
    heads := hheads
    pauses := hpauses
    disp := hdisp
    calm := (h.calm.setAt (by simp [TubeState.busy, TubeState.wantsDispatch, TubeState.new,
      Ms.new])).congr (hm.view _) }

/-! ## Destroying a tube -/

/-- No job lives in the tube and no connection watches it. -/
structure Unreferenced (e : Engine) (id : TubeId) : Prop where
  jobs {i : JobId} {j : JobRec} : e.jobs[i]? = some j → j.tube ≠ id
  watches {c : ConnId} {w : List TubeId} : e.watches[c]? = some w → id ∉ w

/-- The tube is destroyed: its slot is free, its names and index entries are
gone, and the tube that was last in the list stands in its place. -/
structure Dropped (e : Engine) (id : TubeId) (ts : TubeState) (e' : Engine) : Prop where
  was : Slab.get e.tubes id = some ts
  unused : ts.refs = 0
  other : id ≠ defaultTubeId
  frame : ∃ tubes disp, e' = { e with
    tubes := tubes
    tubeIds := e.tubeIds.erase ts.name
    pauses := Index.rekey e.pauses id ts.pauseKey none
    delayHeads := Index.rekey e.delayHeads id ts.delayHead none
    dispatchable := disp
    tubeOrder := e.tubeOrder.removeAt ts.pos
    freeTubeIds := e.freeTubeIds ++ [id] }
  disp : e'.dispatchable = if ts.dispatchable then e.dispatchable.erase id else e.dispatchable
  slots : e'.tubes.length = e.tubes.length
  get : ∀ k, Slab.get e'.tubes k =
    if k = id then none
    else if (e.tubeOrder.removeAt ts.pos).items[ts.pos]? = some k then
      (Slab.get e.tubes k).map fun m => { m with pos := ts.pos }
    else Slab.get e.tubes k

theorem gcTubeIfOrphan_spec (e : Engine) (id : TubeId) :
    e.gcTubeIfOrphan id = e ∧
        (id = defaultTubeId ∨ ∀ ts, Slab.get e.tubes id = some ts → 0 < ts.refs) ∨
      ∃ ts, Dropped e id ts (e.gcTubeIfOrphan id) := by
  unfold gcTubeIfOrphan Engine.tube
  by_cases hid : id = defaultTubeId
  · exact .inl ⟨if_pos hid, .inl hid⟩
  rw [if_neg hid]
  cases ht : Slab.get e.tubes id with
  | none => exact .inl ⟨rfl, .inr nofun⟩
  | some ts =>
    by_cases hz : ts.refs = 0
    · refine .inr ⟨ts, ?_⟩
      simp only [if_pos hz]
      have hlt := Slab.lt_length_of_get ht
      refine ⟨ht, hz, hid, ⟨_, _, rfl⟩, rfl, ?_, fun k => ?_⟩
      · cases (e.tubeOrder.removeAt ts.pos).items[ts.pos]? <;> simp
      cases (e.tubeOrder.removeAt ts.pos).items[ts.pos]? with
      | none => simp [Slab.get_set hlt, eq_comm]
      | some m =>
        simp only [Slab.get_modify, Slab.get_set hlt, Option.some.injEq]
        by_cases hk : k = id
        · subst hk; simp
        · simp [hk, Ne.symm hk]
    · refine .inl ⟨by simp only [if_neg hz], .inr fun ts' hts => ?_⟩
      cases hts
      exact Nat.pos_of_ne_zero hz

/-- Destroying a tube concerns tubes only. -/
theorem gcTubeIfOrphan_frame (e : Engine) (id : TubeId) :
    ∃ tubes ids pauses heads disp order free, e.gcTubeIfOrphan id =
      { e with tubes := tubes, tubeIds := ids, pauses := pauses, delayHeads := heads
               dispatchable := disp, tubeOrder := order, freeTubeIds := free } := by
  rcases gcTubeIfOrphan_spec e id with ⟨heq, -⟩ | ⟨ts, hd⟩
  · rw [heq]
    exact ⟨e.tubes, e.tubeIds, e.pauses, e.delayHeads, e.dispatchable, e.tubeOrder,
      e.freeTubeIds, rfl⟩
  obtain ⟨_, _, hf⟩ := hd.frame
  rw [hf]
  exact ⟨_, _, _, _, _, _, _, rfl⟩

/-- What is left, seen through an aspect that does not read positions. -/
theorem Dropped.view (h : Dropped e id ts e') {β : Type} {v : TubeState → β}
    (hv : ∀ ts p, v { ts with pos := p } = v ts) :
    Slab.view v e'.tubes = setAt (Slab.view v e.tubes) id none := by
  funext k
  rw [Slab.view, h.get]
  unfold setAt
  by_cases hk : k = id
  · simp [hk]
  rw [if_neg hk, if_neg (Ne.symm hk)]
  split
  · rw [Slab.view, Option.map_map]
    congr 1
    funext m
    exact hv m _
  · rfl

theorem Dropped.sig (h : Dropped e id ts e') :
    Slab.view TubeState.sig e'.tubes = dropSig (Slab.view TubeState.sig e.tubes) id ts.pos
      (e.tubeOrder.removeAt ts.pos).items[ts.pos]? := by
  funext k
  rw [Slab.view, h.get, dropSig]
  split
  · rfl
  split
  · rw [Slab.view, Option.map_map, Option.map_map]
    rfl
  · rfl

theorem Dropped.live (h : Dropped e id ts e') {i : TubeId}
    (hi : ∃ s, Slab.view TubeState.sig e.tubes i = some s) (hne : i ≠ id) :
    ∃ s, Slab.view TubeState.sig e'.tubes i = some s := by
  obtain ⟨s, hs⟩ := hi
  rw [h.sig, dropSig, if_neg hne, hs]
  split
  · exact ⟨_, rfl⟩
  · exact ⟨_, rfl⟩

theorem Dropped.core (hd : Dropped e id ts e') (h : Core {} e) (hun : Unreferenced e id) :
    Core {} e' := by
  have hoff {β : Type} {v : TubeState → β} (hv : ∀ ts p, v { ts with pos := p } = v ts)
      (k : TubeId) (hk : k ≠ id) : Slab.view v e'.tubes k = Slab.view v e.tubes k := by
    rw [hd.view hv, Slab.setAt_ne (Ne.symm hk)]
  have hself {β : Type} {v : TubeState → β} (hv : ∀ ts p, v { ts with pos := p } = v ts) :
      Slab.view v e'.tubes id = none := by
    rw [hd.view hv, Slab.setAt_self]
  have hdir := h.dir.drop (Slab.view_of_get hd.was) hd.other
  have hhome (i : JobId) (p : Place) (hp : (places none e.jobs)[i]? = some p) : p.tube ≠ id := by
    rw [places_none] at hp
    obtain ⟨j, hj, rfl⟩ := Option.map_eq_some_iff.mp hp
    exact hun.jobs hj
  have hplaced := h.placed.drop hhome
  have hpauses : PausesOk (Slab.view TubeState.pauseKey e'.tubes)
      (Index.rekey e.pauses id ts.pauseKey none) := by
    refine Index.Of.rekey h.pauses ?_ ?_ fun t ht => ?_
    · simp only [Slab.view_of_get hd.was]
      rfl
    · exact congrArg Option.join (hself fun _ _ => rfl)
    · exact congrArg Option.join (hoff (fun _ _ => rfl) t ht)
  have hheads : Index.Current none (Slab.view TubeState.heads e'.tubes)
      (Index.rekey e.delayHeads id ts.delayHead none) :=
    h.heads.drop (Slab.view_of_get hd.was) (hself fun _ _ => rfl) (hoff fun _ _ => rfl)
  have hdisp : Index.Marked none (Slab.view TubeState.disp e'.tubes) e'.dispatchable := by
    refine h.disp.drop (fun t => ?_) (hself fun _ _ => rfl) (hoff fun _ _ => rfl)
    rw [hd.disp]
    split
    · rw [ExtTreeSet.mem_erase]
      refine and_congr_left fun _ => ⟨fun hc he => hc ?_, fun hne hc => hne ?_⟩
      · rw [he, ReflOrd.compare_self]
      · exact (LawfulEqOrd.eq_of_compare hc).symm
    · next hnd =>
      refine ⟨fun ht => ⟨?_, ht⟩, And.right⟩
      rintro rfl
      have hv : Slab.view TubeState.disp e.tubes t = some ts.disp := Slab.view_of_get hd.was
      have := (h.disp.index t).mp ht
      rw [hv] at this
      exact hnd this
  have hslots := hd.slots
  obtain ⟨tubes, disp, rfl⟩ := hd.frame
  exact { h with
    dir := hdir.congr hslots hd.sig
    placed := hplaced.congr (hd.view fun _ _ => rfl) rfl rfl
    housed := fun i j hj => hd.live (h.housed i j hj) (hun.jobs hj)
    watched := ⟨fun hw i hi => hd.live (h.watched.live hw i hi) fun he =>
      hun.watches hw (he ▸ hi), h.watched.nodup⟩
    queued := (Queued.drop h.queued).congr (hd.view fun _ _ => rfl) rfl
    heads := hheads
    pauses := hpauses
    disp := hdisp
    calm := (h.calm.setAt (by simp)).congr (hd.view fun _ _ => rfl) }

end Engine

end Beanstalkd
