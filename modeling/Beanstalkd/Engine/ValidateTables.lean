import Beanstalkd.Engine.Invariant
import Beanstalkd.Engine.Validate
import Beanstalkd.Lib.Cover

/-!
# What `validate` accepts: the tables

The first part of the reading of `validate` as the invariant: the tube
directory, each connection and each job by itself, and the census. Each check
is turned into the facts it establishes; a comparison of two sizes, which the
source uses where a second loop would be needed, becomes "nothing is missing"
by counting (`Cover.lean`).
-/

open Std

namespace Beanstalkd

open Check (ensure each)

namespace Engine

variable {e : Engine} {i : JobId} {cid : ConnId} {before : List (ConnId × ConnState)} {j : JobRec}

/-! ## The directory -/

/-- A live tube is listed under its name and at its position. -/
def Listed (e : Engine) : Prop :=
  ∀ (i : TubeId) (t : TubeState), Slab.get e.tubes i = some t →
    e.tubeIds[t.name]? = some i ∧ e.tubeOrder.items[t.pos]? = some i

theorem checkDefault_ok : e.checkDefault = .ok () ↔
    Slab.view TubeState.sig e.tubes defaultTubeId = some (TubeName.defaultTube, 0) := by
  unfold checkDefault tube Slab.view
  cases Slab.get e.tubes defaultTubeId with
  | none => simp
  | some t => simp [TubeState.sig]

theorem each_checkListed_ok :
    (each (Slab.entries e.tubes) fun _ (tid, t) => e.checkListed tid t) = .ok () ↔ e.Listed := by
  rw [Check.each_ok_of_const (P := fun x : TubeId × TubeState =>
    e.tubeIds[x.2.name]? = some x.1 ∧ e.tubeOrder.items[x.2.pos]? = some x.1)]
  · constructor
    · intro h i t ht
      exact h (i, t) (Cover.mem_entries.mpr ht)
    · rintro h ⟨i, t⟩ ht
      exact h i t (Cover.mem_entries.mp ht)
  · rintro s ⟨i, t⟩
    simp [checkListed]

/-- As many names as tubes: every name is a tube's. -/
theorem size_tubeIds_iff (h : e.Listed) : e.tubeIds.size = (Slab.entries e.tubes).length ↔
    ∀ (n : TubeName) (i : TubeId), e.tubeIds[n]? = some i →
      ∃ t, Slab.get e.tubes i = some t ∧ t.name = n := by
  have hnd : ((Slab.entries e.tubes).map fun x => x.2.name).Nodup := by
    have hk := Cover.nodup_keys_entries e.tubes
    rw [List.Nodup, List.pairwise_map] at hk ⊢
    refine hk.imp_of_mem fun {x y} hx hy hne heq => hne ?_
    have hx' := (h x.1 x.2 (Cover.mem_entries.mp hx)).1
    have hy' := (h y.1 y.2 (Cover.mem_entries.mp hy)).1
    rw [heq, hy'] at hx'
    exact (Option.some.inj hx').symm
  have hcount := Cover.count_eq_length_iff (p := fun _ _ => true) hnd (by
    intro n hn
    obtain ⟨x, hx, rfl⟩ := List.mem_map.mp hn
    exact ⟨x.1, (h x.1 x.2 (Cover.mem_entries.mp hx)).1, rfl⟩)
  rw [List.length_map, TreeMap.count_eq_size fun _ _ _ => rfl] at hcount
  rw [eq_comm, hcount]
  constructor
  · intro hall n i hn
    obtain ⟨x, hx, rfl⟩ := List.mem_map.mp (hall n i hn rfl)
    have ht := Cover.mem_entries.mp hx
    rw [(h x.1 x.2 ht).1] at hn
    cases hn
    exact ⟨x.2, ht, rfl⟩
  · intro hall n i hn _
    obtain ⟨t, ht, rfl⟩ := hall n i hn
    exact List.mem_map.mpr ⟨(i, t), Cover.mem_entries.mpr ht, rfl⟩

/-- As many places in the list as tubes: every place is a tube's. -/
theorem length_tubeOrder_iff (h : e.Listed) :
    e.tubeOrder.items.length = (Slab.entries e.tubes).length ↔
    ∀ (p : Nat) (i : TubeId), e.tubeOrder.items[p]? = some i →
      ∃ t, Slab.get e.tubes i = some t ∧ t.pos = p := by
  have hnd : ((Slab.entries e.tubes).map fun x => x.2.pos).Nodup := by
    have hk := Cover.nodup_keys_entries e.tubes
    rw [List.Nodup, List.pairwise_map] at hk ⊢
    refine hk.imp_of_mem fun {x y} hx hy hne heq => hne ?_
    have hx' := (h x.1 x.2 (Cover.mem_entries.mp hx)).2
    have hy' := (h y.1 y.2 (Cover.mem_entries.mp hy)).2
    rw [heq, hy'] at hx'
    exact (Option.some.inj hx').symm
  have hlen := Cover.length_eq_iff hnd (List.nodup_range) (by
    intro p hp
    obtain ⟨x, hx, rfl⟩ := List.mem_map.mp hp
    have hx' := (h x.1 x.2 (Cover.mem_entries.mp hx)).2
    exact List.mem_range.mpr (List.getElem?_eq_some_iff.mp hx').1)
  rw [List.length_map, List.length_range] at hlen
  rw [eq_comm, hlen]
  constructor
  · intro hall p i hp
    have hlt := (List.getElem?_eq_some_iff.mp hp).1
    obtain ⟨x, hx, rfl⟩ := List.mem_map.mp (hall p (List.mem_range.mpr hlt))
    have ht := Cover.mem_entries.mp hx
    rw [(h x.1 x.2 ht).2] at hp
    cases hp
    exact ⟨x.2, ht, rfl⟩
  · intro hall p hp
    rw [List.mem_range] at hp
    obtain ⟨t, ht, rfl⟩ := hall p _ (List.getElem?_eq_getElem hp)
    exact List.mem_map.mpr ⟨(_, t), Cover.mem_entries.mpr ht, rfl⟩

theorem each_checkFree_ok : each e.freeTubeIds e.checkFree = .ok () ↔
    (∀ i ∈ e.freeTubeIds, i < e.tubes.length ∧ Slab.get e.tubes i = none) ∧
      e.freeTubeIds.Nodup := by
  rw [Check.each_ok_of_fresh (P := fun i => i < e.tubes.length ∧ Slab.get e.tubes i = none) id,
    List.map_id]
  intro s i
  unfold checkFree Slab.get
  rw [Check.bind_ok, Check.ensure_ok, Check.ensure_ok, List.map_id, id]
  refine and_congr_left' ?_
  cases hi : e.tubes[i]? with
  | none =>
    have hge := List.getElem?_eq_none_iff.mp hi
    simp only [Option.any_none, Option.join_none, Bool.false_eq_true, false_iff, and_true]
    omega
  | some o =>
    have hlt := (List.getElem?_eq_some_iff.mp hi).1
    cases o <;> simp [hlt]

theorem checkDirectory_ok : e.checkDirectory = .ok () ↔
    Dir e.tubes.length (Slab.view TubeState.sig e.tubes) e.toDirectory := by
  unfold checkDirectory
  simp only [Check.bind_ok, Check.ensure_ok, checkDefault_ok, each_checkListed_ok,
    each_checkFree_ok]
  constructor
  · rintro ⟨hdef, hlist, hids, horder, hlen, hfree, hnd⟩
    have hsig {i : TubeId} {n : TubeName} {p : Nat}
        (h : Slab.view TubeState.sig e.tubes i = some (n, p)) :
        ∃ t, Slab.get e.tubes i = some t ∧ t.name = n ∧ t.pos = p := by
      obtain ⟨t, ht, heq⟩ := Slab.view_eq_some_iff.mp h
      cases heq
      exact ⟨t, ht, rfl, rfl⟩
    refine ⟨hdef, fun h => ?_, fun h => ?_, fun h => ?_, fun h => ?_, fun h => ?_, fun i => ?_, hnd⟩
    · obtain ⟨t, ht, -⟩ := Slab.view_eq_some_iff.mp h
      exact Slab.lt_length_of_get ht
    · obtain ⟨t, ht, rfl, rfl⟩ := hsig h
      exact (hlist _ t ht).1
    · obtain ⟨t, ht, rfl, rfl⟩ := hsig h
      exact (hlist _ t ht).2
    · obtain ⟨t, ht, rfl⟩ := (size_tubeIds_iff hlist).mp hids _ _ h
      exact ⟨t.pos, Slab.view_of_get ht⟩
    · obtain ⟨t, ht, rfl⟩ := (length_tubeOrder_iff hlist).mp horder _ _ h
      exact ⟨t.name, Slab.view_of_get ht⟩
    · rw [Slab.view, Option.map_eq_none_iff]
      exact ⟨hfree i, fun h => (Cover.length_free_iff hnd hfree).mp hlen i h.1 h.2⟩
  · intro h
    have hlist : e.Listed := fun i t ht =>
      ⟨h.named (Slab.view_of_get ht), h.listed (Slab.view_of_get ht)⟩
    have hfree : ∀ i ∈ e.freeTubeIds, i < e.tubes.length ∧ Slab.get e.tubes i = none := by
      intro i hi
      have := (h.free i).mp hi
      rwa [Slab.view, Option.map_eq_none_iff] at this
    refine ⟨h.default, hlist, (size_tubeIds_iff hlist).mpr fun n i hn => ?_,
      (length_tubeOrder_iff hlist).mpr fun p i hp => ?_,
      (Cover.length_free_iff h.freeNodup hfree).mpr fun i hi hn => ?_, hfree, h.freeNodup⟩
    · obtain ⟨p, hp⟩ := h.ids hn
      obtain ⟨t, ht, heq⟩ := Slab.view_eq_some_iff.mp hp
      exact ⟨t, ht, congrArg Prod.fst heq⟩
    · obtain ⟨n, hn⟩ := h.order hp
      obtain ⟨t, ht, heq⟩ := Slab.view_eq_some_iff.mp hn
      exact ⟨t, ht, congrArg Prod.snd heq⟩
    · exact (h.free i).mpr ⟨hi, by rw [Slab.view, hn, Option.map_none]⟩

/-! ## Connections -/

/-- What `validate` asks of one connection by itself. -/
structure ConnFacts (e : Engine) (cid : ConnId) (c : ConnState) : Prop where
  uses : ∃ t, Slab.get e.tubes c.useTube = some t
  watching : c.watch.items ≠ []
  live : ∀ i ∈ c.watch.items, ∃ t, Slab.get e.tubes i = some t
  nodup : c.watch.items.Nodup
  idle : c.waiting ∨ c.waitDeadline = none
  pending : ∀ id, c.pendingId = some id → id < e.nextJobId ∧ e.jobs[id]? = none
  sizes : c.reserved.size = c.reservedByDeadline.size
  held {s : Nat} {id : JobId} : c.reserved[s]? = some id → ∃ j, e.jobs[id]? = some j ∧
    j.state = .reserved ∧ j.reserver = some cid ∧ j.listSeq = s ∧ s < e.nextListSeq
  due {d : Nanos} {id : JobId} : (d, id) ∈ c.reservedByDeadline →
    id ∈ TreeMap.values c.reserved ∧ ∃ j, e.jobs[id]? = some j ∧ j.deadlineAt = d
  tick : c.tickKey = c.tickat

/-- The pending put's id, as a list. -/
def pendingKeys (x : ConnId × ConnState) : List JobId := x.2.pendingId.toList

theorem isSome_tube {i : TubeId} : (e.tube i).isSome ↔ ∃ t, Slab.get e.tubes i = some t :=
  Option.isSome_iff_exists

theorem each_checkWatch_ok {l : List TubeId} : each l (e.checkWatch cid) = .ok () ↔
    (∀ i ∈ l, ∃ t, Slab.get e.tubes i = some t) ∧ l.Nodup := by
  rw [Check.each_ok_of_fresh id, List.map_id]
  intro s i
  simp only [checkWatch, Check.bind_ok, Check.ensure_ok, isSome_tube, List.map_id, id]

theorem checkPending_ok {c : ConnState} :
    e.checkPending before cid c = .ok () ↔
      (∀ id, c.pendingId = some id → id < e.nextJobId ∧ e.jobs[id]? = none) ∧
        ∀ id ∈ pendingKeys (cid, c), id ∉ before.flatMap pendingKeys := by
  have hbefore (f : ConnId × ConnState → Option JobId) (hf : f = fun p => p.2.pendingId) :
      before.filterMap f = before.flatMap pendingKeys := by
    rw [hf]
    exact List.filterMap_eq_flatMap_toList ..
  have hno (id : JobId) : e.jobs.contains id = false ↔ e.jobs[id]? = none := by
    rw [ExtTreeMap.contains_eq_isSome_getElem?, Option.isSome_eq_false_iff,
      Option.isNone_iff_eq_none]
  unfold checkPending
  split
  · next id t hp =>
    have hid : c.pendingId = some id := by rw [ConnState.pendingId, hp]; rfl
    rw [hbefore]
    · simp only [Check.bind_ok, Check.ensure_ok, hno, pendingKeys, hid, Option.toList_some,
        List.mem_singleton, forall_eq, Option.some.injEq, forall_eq', and_assoc]
    · rfl
  · next hnot =>
    have hid : c.pendingId = none := by
      rw [ConnState.pendingId]
      cases hp : c.pendingPut with
      | none => rfl
      | some p =>
        obtain ⟨o, t⟩ := p
        cases o with
        | none => rfl
        | some id => exact absurd hp (hnot id t)
    simp [pendingKeys, hid]

/-- A job is listed under its own key, so the test for repetitions adds nothing. -/
theorem each_checkReserved_ok {c : ConnState} :
    (each c.reserved.toList fun seen (seq, id) => e.checkReserved cid seen seq id) = .ok () ↔
      ∀ (s : Nat) (id : JobId), c.reserved[s]? = some id → ∃ j, e.jobs[id]? = some j ∧
        j.state = .reserved ∧ j.reserver = some cid ∧ j.listSeq = s ∧ s < e.nextListSeq := by
  rw [Check.each_ok_of_fresh (P := fun x : Nat × JobId => ∃ j, e.jobs[x.2]? = some j ∧
    j.state = .reserved ∧ j.reserver = some cid ∧ j.listSeq = x.1 ∧ x.1 < e.nextListSeq) Prod.snd]
  · constructor
    · rintro ⟨h, -⟩ s id hs
      exact h (s, id) (Cover.mem_toList.mpr hs)
    intro h
    refine ⟨fun x hx => h x.1 x.2 (Cover.mem_toList.mp hx), ?_⟩
    refine TreeMap.nodup_values fun s s' id hs hs' => ?_
    obtain ⟨j, hj, -, -, rfl, -⟩ := h s id hs
    obtain ⟨j', hj', -, -, rfl, -⟩ := h s' id hs'
    rw [hj] at hj'
    cases hj'
    rfl
  · rintro seen ⟨s, id⟩
    unfold checkReserved
    rw [Check.bind_ok, Check.ensure_ok, and_comm]
    refine and_congr_left' ?_
    cases e.jobs[id]? with
    | none => simp
    | some j => simp [and_assoc]

theorem each_checkDeadline_ok {c : ConnState} :
    (each c.reservedByDeadline.toList fun _ (d, id) => e.checkDeadline cid c d id) = .ok () ↔
      ∀ (d : Nanos) (id : JobId), (d, id) ∈ c.reservedByDeadline →
        id ∈ TreeMap.values c.reserved ∧ ∃ j, e.jobs[id]? = some j ∧ j.deadlineAt = d := by
  rw [Check.each_ok_of_const (P := fun x : Nanos × JobId =>
    x.2 ∈ TreeMap.values c.reserved ∧ ∃ j, e.jobs[x.2]? = some j ∧ j.deadlineAt = x.1)]
  · constructor
    · intro h d id hd
      exact h (d, id) (ExtTreeSet.mem_toList.mpr hd)
    · rintro h ⟨d, id⟩ hd
      exact h d id (ExtTreeSet.mem_toList.mp hd)
  · rintro s ⟨d, id⟩
    simp [checkDeadline, Option.any_eq_true]

theorem checkConn_ok {c : ConnState} :
    e.checkConn before cid c = .ok () ↔
      ConnFacts e cid c ∧ ∀ id ∈ pendingKeys (cid, c), id ∉ before.flatMap pendingKeys := by
  unfold checkConn
  simp only [Check.bind_ok, Check.ensure_ok, isSome_tube, each_checkWatch_ok, checkPending_ok,
    each_checkReserved_ok, each_checkDeadline_ok]
  constructor
  · rintro ⟨h₁, h₂, ⟨h₃, h₄⟩, h₅, ⟨h₆, hfresh⟩, h₇, h₈, h₉, h₁₀⟩
    exact ⟨⟨h₁, h₂, h₃, h₄, h₅, h₆, h₇, h₈ _ _, h₉ _ _, h₁₀⟩, hfresh⟩
  rintro ⟨h, hfresh⟩
  exact ⟨h.uses, h.watching, ⟨h.live, h.nodup⟩, h.idle, ⟨h.pending, hfresh⟩, h.sizes,
    fun _ _ => h.held, fun _ _ => h.due, h.tick⟩

/-- Pending ids are not shared. -/
def PendingDistinct (e : Engine) : Prop :=
  ∀ (c c' : ConnId) (k k' : ConnState) (id : JobId), e.conns[c]? = some k →
    e.conns[c']? = some k' → k.pendingId = some id → k'.pendingId = some id → c = c'

theorem each_checkConn_ok :
    (each e.conns.toList fun before (cid, c) => e.checkConn before cid c) = .ok () ↔
      (∀ (cid : ConnId) (c : ConnState), e.conns[cid]? = some c → ConnFacts e cid c) ∧
        e.PendingDistinct := by
  rw [Check.each_ok_of_disjoint
    pendingKeys fun _ _ => checkConn_ok]
  refine and_congr ⟨fun h cid c hc => h (cid, c) (Cover.mem_toList.mpr hc),
    fun h x hx => h x.1 x.2 (Cover.mem_toList.mp hx)⟩ ?_
  constructor
  · intro hpw c c' k k' id hc hc' hk hk'
    have hall : ∀ x ∈ e.conns.toList, ∀ y ∈ e.conns.toList, x.1 ≠ y.1 →
        ∀ b ∈ pendingKeys x, b ∉ pendingKeys y := by
      refine List.Pairwise.forall_of_forall_of_flip (fun _ _ hne => absurd rfl hne) ?_ ?_
      · refine hpw.imp ?_
        intro x y h _
        exact h
      refine hpw.imp ?_
      intro x y h _ b hb hb'
      exact h b hb' hb
    refine Classical.byContradiction fun hne => ?_
    exact hall (c, k) (Cover.mem_toList.mpr hc) (c', k') (Cover.mem_toList.mpr hc') hne id
      (Option.mem_toList.mpr hk) (Option.mem_toList.mpr hk')
  · intro h
    have hk := Cover.nodup_keys_toList e.conns
    rw [List.Nodup, List.pairwise_map] at hk
    refine hk.imp_of_mem fun {x y} hx hy hne id hid hid' => hne ?_
    exact h x.1 y.1 x.2 y.2 id (Cover.mem_toList.mp hx) (Cover.mem_toList.mp hy)
      (Option.mem_toList.mp hid) (Option.mem_toList.mp hid')

/-! ## The census -/

theorem mem_recountConnTicks {t : Nanos} {c : ConnId} :
    (t, c) ∈ e.recountConnTicks ↔ ∃ k, e.conns[c]? = some k ∧ k.tickat = some t := by
  unfold recountConnTicks
  rw [ExtTreeSet.mem_ofList, List.contains_iff_mem, List.mem_filterMap]
  constructor
  · rintro ⟨⟨c', k⟩, hk, ht⟩
    obtain ⟨t', ht', heq⟩ := Option.map_eq_some_iff.mp ht
    cases heq
    exact ⟨k, Cover.mem_toList.mp hk, ht'⟩
  · rintro ⟨k, hk, ht⟩
    exact ⟨(c, k), Cover.mem_toList.mpr hk, by simp [ht]⟩

/-- With current tick keys, the index is right just if it equals the recomputed one. -/
theorem connTicks_iff (h : ∀ (c : ConnId) (k : ConnState), e.conns[c]? = some k →
    k.tickKey = k.tickat) :
    e.connTicks.toList = e.recountConnTicks.toList ↔
      TicksOk none (e.conns.map fun _ c => c.ticks) e.connTicks := by
  rw [ExtTreeSet.toList_inj]
  refine Iff.symm ((Index.Current.none_iff fun t c => ?_).trans (and_iff_right fun c p hp => ?_))
  · rw [mem_recountConnTicks]
    simp only [TreeMap.map_eq_some_iff]
    refine ⟨fun ⟨k, hk, ht⟩ => ⟨_, ⟨k, hk, rfl⟩, ht⟩, ?_⟩
    rintro ⟨_, ⟨k, hk, rfl⟩, ht⟩
    exact ⟨k, hk, ht⟩
  · obtain ⟨k, hk, rfl⟩ := TreeMap.map_eq_some_iff.mp hp
    exact h c k hk

theorem count_map {α β γ : Type} [Ord α] [TransOrd α] [LawfulEqOrd α] (m : ExtTreeMap α β)
    (g : β → γ) (p : γ → Bool) :
    TreeMap.count (fun _ x => p x) (m.map fun _ v => g v) =
      TreeMap.count (fun _ v => p (g v)) m := by
  refine TreeMap.count_congr fun k => ?_
  rw [ExtTreeMap.getElem?_map]
  cases m[k]? <;> rfl

theorem checkCensus_ok (hc : ∀ (cid : ConnId) (c : ConnState), e.conns[cid]? = some c →
    ConnFacts e cid c) :
    e.checkCensus = .ok () ↔ TicksOk none (e.conns.map fun _ c => c.ticks) e.connTicks ∧
      ConnsOk (e.conns.map fun _ c => c.wait) (e.conns.map fun _ c => c.roles) e.toCensus
        e.waitingCt ∧ e.curConns ≤ e.totConns := by
  unfold checkCensus
  simp only [Check.bind_ok, Check.ensure_ok]
  rw [connTicks_iff fun c k hk => (hc c k hk).tick]
  refine and_congr_right fun _ => ?_
  have hprod := count_map e.conns ConnState.roles Prod.fst
  have hwork := count_map e.conns ConnState.roles Prod.snd
  have hwait := count_map e.conns ConnState.wait Prod.fst
  constructor
  · rintro ⟨h₁, h₂, h₃, h₄, h₅⟩
    refine ⟨⟨h₁.trans ExtTreeMap.size_map.symm, h₃.trans hprod.symm, h₄.trans hwork.symm,
      h₅.trans hwait.symm, fun {c d} hcd => ?_⟩, h₂⟩
    obtain ⟨k, hk, heq⟩ := TreeMap.map_eq_some_iff.mp hcd
    simp only [ConnState.wait, Prod.mk.injEq] at heq
    rw [← heq.2]
    exact (hc c k hk).idle.resolve_left (by simp [heq.1])
  · rintro ⟨h, htot⟩
    exact ⟨h.cur.trans ExtTreeMap.size_map, htot, h.producers.trans hprod, h.workers.trans hwork,
      h.waiting.trans hwait⟩

/-! ## Jobs -/

/-- What `validate` asks of one job by itself. -/
structure JobFacts (e : Engine) (i : JobId) (j : JobRec) : Prop where
  id : j.id = i
  below : i < e.nextJobId
  ttr : 1 ≤ j.ttr
  holder : j.reserver.isSome ↔ j.state = .reserved
  connected : ∀ c, j.reserver = some c → ∃ k, e.conns[c]? = some k
  home : ∃ t, Slab.get e.tubes j.tube = some t ∧ (j.state = .ready → (j.pri, i) ∈ t.ready) ∧
    (j.state = .delayed → (j.deadlineAt, i) ∈ t.delayed)

theorem checkHolder_ok : e.checkHolder i j = .ok () ↔
    (j.reserver.isSome ↔ j.state = .reserved) ∧
      ∀ c, j.reserver = some c → ∃ k, e.conns[c]? = some k := by
  have hin (c : ConnId) : e.conns.contains c = true ↔ ∃ k, e.conns[c]? = some k := by
    rw [ExtTreeMap.contains_eq_isSome_getElem?, Option.isSome_iff_exists]
  unfold checkHolder
  split
  · next hst => cases j.reserver <;> simp [hst, hin]
  · next hst => cases j.reserver <;> simp [hst]

theorem checkFiled_ok {t : TubeState} : checkFiled t i j = .ok () ↔
    (j.state = .ready → (j.pri, i) ∈ t.ready) ∧
      (j.state = .delayed → (j.deadlineAt, i) ∈ t.delayed) := by
  unfold checkFiled
  cases j.state <;> simp

theorem checkJob_ok : e.checkJob i j = .ok () ↔ JobFacts e i j := by
  unfold checkJob tube
  simp only [Check.bind_ok, Check.ensure_ok]
  cases ht : Slab.get e.tubes j.tube with
  | none =>
    simp only [reduceCtorEq, and_false, false_iff]
    rintro h
    obtain ⟨t, ht', -⟩ := h.home
    rw [ht] at ht'
    cases ht'
  | some t =>
    simp only [Check.bind_ok, checkHolder_ok, checkFiled_ok]
    constructor
    · rintro ⟨h₁, h₂, h₃, ⟨h₄, h₅⟩, h₆⟩
      exact ⟨h₁, h₂, h₃, h₄, h₅, t, ht, h₆⟩
    intro h
    obtain ⟨t', ht', h₆⟩ := h.home
    rw [ht] at ht'
    cases ht'
    exact ⟨h.id, h.below, h.ttr, ⟨h.holder, h.connected⟩, h₆⟩

theorem each_checkJob_ok : (each e.jobs.toList fun _ (id, j) => e.checkJob id j) = .ok () ↔
    ∀ (i : JobId) (j : JobRec), e.jobs[i]? = some j → JobFacts e i j := by
  rw [Check.each_ok_of_const (P := fun x : JobId × JobRec => JobFacts e x.1 x.2)
    fun _ _ => checkJob_ok]
  exact ⟨fun h i j hj => h (i, j) (Cover.mem_toList.mpr hj),
    fun h x hx => h x.1 x.2 (Cover.mem_toList.mp hx)⟩

end Engine

end Beanstalkd
