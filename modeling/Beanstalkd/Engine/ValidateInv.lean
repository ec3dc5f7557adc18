import Beanstalkd.Engine.ValidateFiling

/-!
# `validate` decides the invariant

`validate_ok_iff`: a state is accepted just if it satisfies the invariant, keeps
the three bounds the source puts on the slab, the list keys and the job ids, and
its count of connections made (which wraps) covers the open ones. So the invariant
the engine's methods preserve is the one that is checked on a snapshot, with nothing
added and nothing left out.
-/

open Std

namespace Beanstalkd

open Check (ensure each)

namespace Engine

variable {e : Engine} {t : TubeId}

/-- The bounds `validate` puts on what only grows. -/
structure Bounded (e : Engine) : Prop where
  slots : e.tubes.length ≤ maxTubeSlots
  seq : e.nextListSeq ≤ maxListSeq
  job : e.nextJobId ≤ maxNextJobId

/-- The facts the checks establish, one by one. -/
structure Checked (e : Engine) : Prop where
  bounded : Bounded e
  dir : Dir e.tubes.length (Slab.view TubeState.sig e.tubes) e.toDirectory
  allocated : 1 ≤ e.nextJobId
  conns : ∀ (cid : ConnId) (c : ConnState), e.conns[cid]? = some c → ConnFacts e cid c
  pendings : e.PendingDistinct
  ticks : TicksOk none (e.conns.map fun _ c => c.ticks) e.connTicks
  census : ConnsOk (e.conns.map fun _ c => c.wait) (e.conns.map fun _ c => c.roles) e.toCensus
    e.waitingCt
  opened : e.curConns ≤ e.totConns
  jobs : ∀ (i : JobId) (j : JobRec), e.jobs[i]? = some j → JobFacts e i j
  reserved : e.reservedEntries = e.recountState .reserved
  reservedCt : e.reservedCt = e.recountState .reserved
  tubes : ∀ (tid : TubeId) (t : TubeState), Slab.get e.tubes tid = some t → TubeFacts e tid t
  ready : (e.tubeSum fun t => t.ready.size) = e.recountState .ready
  delayed : (e.tubeSum fun t => t.delayed.size) = e.recountState .delayed
  buried : (e.tubeSum fun t => t.buried.size) = e.recountState .buried
  readyCt : e.readyCt = e.recountState .ready
  urgentCt : e.urgentCt = e.tubeSum tubeUrgent
  delayedCt : e.delayedCt = e.recountState .delayed
  buriedCt : e.buriedCt = e.recountState .buried
  heads : e.delayHeads = e.recountDelayHeads
  pauses : e.pauses = e.recountPauses
  dispatchable : e.dispatchable = e.recountDispatchable

theorem validate_checked : e.validate = .ok () ↔ e.Checked := by
  unfold validate checkBounds checkNextJobId checkReservedTotals checkTotals
  simp only [Check.bind_ok, Check.ensure_ok, checkDirectory_ok, each_checkConn_ok,
    each_checkJob_ok, each_checkTube_ok, ExtTreeSet.toList_inj]
  constructor
  · rintro ⟨⟨h₁, h₂⟩, h₃, ⟨h₄, h₅⟩, ⟨h₆, h₇⟩, h₈, h₉, ⟨h₁₀, h₁₁⟩, h₁₂, h₁₃, h₁₄, h₁₅, h₁₆, h₁₇, h₁₈,
      h₁₉, h₂₀, h₂₁, h₂₂⟩
    obtain ⟨hticks, hcensus, hopened⟩ := (checkCensus_ok h₆).mp h₈
    exact ⟨⟨h₁, h₂, h₅⟩, h₃, h₄, h₆, h₇, hticks, hcensus, hopened, h₉, h₁₀, h₁₁, h₁₂, h₁₃, h₁₄, h₁₅,
      h₁₆, h₁₇, h₁₈, h₁₉, h₂₀, h₂₁, h₂₂⟩
  · intro h
    exact ⟨⟨h.bounded.slots, h.bounded.seq⟩, h.dir, ⟨h.allocated, h.bounded.job⟩,
      ⟨h.conns, h.pendings⟩, (checkCensus_ok h.conns).mpr ⟨h.ticks, h.census, h.opened⟩, h.jobs,
      ⟨h.reserved, h.reservedCt⟩, h.tubes, h.ready, h.delayed, h.buried, h.readyCt, h.urgentCt,
      h.delayedCt, h.buriedCt, h.heads, h.pauses, h.dispatchable⟩

/-! ## Jobs in their places -/

theorem placed_of_filing (hh : ∀ (i : JobId) (j : JobRec), e.jobs[i]? = some j →
      (j.reserver.isSome ↔ j.state = .reserved)) (h : e.Filing) (hhome : e.Homed)
    (hconn : ∀ (i : JobId) (j : JobRec), e.jobs[i]? = some j → ∀ c, j.reserver = some c →
      ∃ k, e.conns[c]? = some k)
    (hseq : ∀ (i : JobId) (j : JobRec), e.jobs[i]? = some j →
      j.state = .buried ∨ j.state = .reserved → j.listSeq < e.nextListSeq)
    (htally : e.tally = tallyOf (places none e.jobs))
    (htubes : ∀ (t : TubeId) (ts : TubeState), Slab.get e.tubes t = some ts →
      ts.queues.tally = ⟨tubeUrgent ts, ts.buried.size, e.recountReservedIn t⟩) :
    Placed (Slab.view TubeState.queues e.tubes) (e.conns.map fun _ c => c.resv)
      (places none e.jobs) e.tally e.nextListSeq where
  boxed := boxed_of_filing hh h hhome hconn
  tally := htally
  tubes := by
    intro t q hq
    obtain ⟨ts, ht, rfl⟩ := Slab.view_eq_some_iff.mp hq
    rw [htubes t ts ht, tubeTally_places h ht]
  seqs := by
    intro i p hp s hs
    rw [places_none] at hp
    obtain ⟨j, hj, rfl⟩ := Option.map_eq_some_iff.mp hp
    have hlt := hseq i j hj
    unfold JobRec.place Place.seq? at hs
    cases hst : j.state <;> simp [hst] at hs hlt
    all_goals exact hs ▸ hlt

/-! ## Waiting connections -/

section Waiters

variable (hw : ∀ (c : ConnId) (k : ConnState), e.conns[c]? = some k → k.watch.items.Nodup)

include hw

theorem recountWatching_eq (t : TubeId) :
    e.recountWatching t = TreeMap.count (fun _ c => c.watch.items.contains t) e.conns := by
  rw [recountWatching, Cover.sum_eq_countP,
    ← Cover.countP_toList]
  rintro ⟨c, k⟩ hx
  have hnd := hw c k (Cover.mem_toList.mp hx)
  simp only [hnd.count, List.contains_eq_mem]
  by_cases hm : t ∈ k.watch.items <;> simp [hm]

theorem recountWaiters_eq (t : TubeId) : e.recountWaiters t =
    TreeMap.count (fun _ c => c.waiting && c.watch.items.contains t) e.conns := by
  rw [recountWaiters, Cover.sum_eq_countP,
    ← Cover.countP_toList]
  rintro ⟨c, k⟩ hx
  have hnd := hw c k (Cover.mem_toList.mp hx)
  simp only [hnd.count, List.contains_eq_mem]
  by_cases hm : t ∈ k.watch.items <;> cases k.waiting <;> simp [hm]

end Waiters

theorem waitPair_iff {c : ConnId} : e.waitPair c t = true ↔
    WaitsOn (effective none e.waitQueues) c t := by
  unfold waitPair WaitsOn effective waitQueues
  rw [ExtTreeMap.getElem?_map]
  cases e.conns[c]? with
  | none => simp
  | some k => cases hk : k.waiting <;> simp [ConnState.queue, hk]

/-- The wait list of a tube: listed pairs, once each, and as many as there are. -/
theorem waiters_iff {l : List ConnId}
    (hw : ∀ (c : ConnId) (k : ConnState), e.conns[c]? = some k → k.watch.items.Nodup)
    (hnd : l.Nodup) (hl : ∀ c ∈ l, e.waitPair c t = true) :
    l.length = e.recountWaiters t ↔ ∀ c, e.waitPair c t = true → c ∈ l := by
  rw [recountWaiters_eq hw, Cover.count_eq_length_iff hnd]
  · constructor
    · intro h c hc
      obtain ⟨k, hk, hp⟩ := Option.any_eq_true _ _ |>.mp hc
      exact h c k hk hp
    · intro h c k hk hp
      exact h c ((Option.any_eq_true _ _).mpr ⟨k, hk, hp⟩)
  · intro c hc
    exact (Option.any_eq_true _ _).mp (hl c hc)

theorem queued_iff (hw : ∀ (c : ConnId) (k : ConnState), e.conns[c]? = some k →
    k.watch.items.Nodup) :
    Queued none (Slab.view TubeState.waits e.tubes) (effective none e.waitQueues) ↔
      ∀ (t : TubeId) (ts : TubeState), Slab.get e.tubes t = some ts →
        (∀ c ∈ ts.waitingConns.items, e.waitPair c t = true) ∧ ts.waitingConns.items.Nodup ∧
          ts.waitingConns.items.length = e.recountWaiters t ∧
          ts.stat.waitingCt = e.recountWaiters t := by
  constructor
  · intro h t ts ht
    obtain ⟨hnd, hmem, hn⟩ := h t _ _ (Slab.view_of_get ht)
    have hl : ∀ c ∈ ts.waitingConns.items, e.waitPair c t = true := fun c hc =>
      waitPair_iff.mpr ((hmem c).mp hc).1
    have hlen := (waiters_iff hw hnd hl).mpr fun c hc =>
      (hmem c).mpr ⟨waitPair_iff.mp hc, nofun⟩
    exact ⟨hl, hnd, hlen, by rw [hn, hlen]; rfl⟩
  · intro h t l n ht
    obtain ⟨ts, hts, heq⟩ := Slab.view_eq_some_iff.mp ht
    cases heq
    obtain ⟨hl, hnd, hlen, hn⟩ := h t ts hts
    refine ⟨hnd, fun c => ⟨fun hc => ⟨waitPair_iff.mp (hl c hc), nofun⟩, fun hc => ?_⟩, ?_⟩
    · exact (waiters_iff hw hnd hl).mp hlen c (waitPair_iff.mpr hc.1)
    · rw [hn, hlen]
      rfl

/-! ## Indexes -/

theorem heads_iff : Index.Current none (Slab.view TubeState.heads e.tubes) e.delayHeads ↔
    (∀ (t : TubeId) (ts : TubeState), Slab.get e.tubes t = some ts →
      ts.delayHead = (TreeMap.first ts.delayed).map fun (d, _) => d) ∧
      e.delayHeads = e.recountDelayHeads := by
  refine (Index.Current.none_iff fun d t => ?_).trans (and_congr_left' Slab.forall_view)
  rw [recountDelayHeads, Cover.mem_ofList_entries]
  simp only [Slab.view_eq_some_iff]
  constructor
  · rintro ⟨t', ts, ht, hd⟩
    obtain ⟨x, hx, heq⟩ := Option.map_eq_some_iff.mp hd
    cases heq
    exact ⟨_, ⟨ts, ht, rfl⟩, by rw [TubeState.heads, hx]; rfl⟩
  · rintro ⟨_, ⟨ts, ht, rfl⟩, hd⟩
    obtain ⟨x, hx, rfl⟩ := Option.map_eq_some_iff.mp hd
    exact ⟨t, ts, ht, by rw [hx]; rfl⟩

theorem pauses_iff : PausesOk (Slab.view TubeState.pauseKey e.tubes) e.pauses ↔
    e.pauses = e.recountPauses := by
  have hkey (d : Nanos) (t : TubeId) :
      ((Slab.view TubeState.pauseKey e.tubes t).join = some d) ↔ (d, t) ∈ e.recountPauses := by
    rw [recountPauses, Cover.mem_ofList_entries, Option.join_eq_some_iff, Slab.view_eq_some_iff]
    constructor
    · rintro ⟨ts, ht, hd⟩
      unfold TubeState.pauseKey at hd
      exact ⟨t, ts, ht, by grind⟩
    rintro ⟨t', ts, ht, hd⟩
    refine ⟨ts, ?_⟩
    unfold TubeState.pauseKey
    grind
  constructor
  · intro h
    exact ExtTreeSet.ext_mem fun ⟨d, t⟩ => (h d t).trans (hkey d t)
  intro heq d t
  rw [heq]
  exact (hkey d t).symm

theorem disp_iff : Index.Marked none (Slab.view TubeState.disp e.tubes) e.dispatchable ↔
    (∀ (t : TubeId) (ts : TubeState), Slab.get e.tubes t = some ts →
      ts.dispatchable = ts.wantsDispatch) ∧ e.dispatchable = e.recountDispatchable := by
  refine (Index.Marked.none_iff fun t => ?_).trans (and_congr_left' Slab.forall_view)
  rw [recountDispatchable, Cover.mem_ofList_entries]
  simp only [Slab.view_eq_some_iff]
  constructor
  · rintro ⟨t', ts, ht, hd⟩
    exact ⟨_, ⟨ts, by grind, rfl⟩, by grind [TubeState.disp]⟩
  · rintro ⟨_, ⟨ts, ht, rfl⟩, hd⟩
    exact ⟨t, ts, ht, if_pos hd⟩

theorem calm_iff : Calm false (Slab.view TubeState.busy e.tubes) ↔
    ∀ (t : TubeId) (ts : TubeState), Slab.get e.tubes t = some ts →
      ts.wantsDispatch = false ∨ 0 < ts.pause := by
  have hbusy (ts : TubeState) : ts.busy ≠ true ↔ ts.wantsDispatch = false ∨ 0 < ts.pause := by
    unfold TubeState.busy
    cases ts.wantsDispatch <;> simp [Nat.pos_iff_ne_zero]
  constructor
  · intro h t ts ht
    rw [← hbusy]
    intro hb
    exact h rfl t (by rw [Slab.view_of_get ht, hb])
  · intro h _ t hb
    obtain ⟨ts, ht, hb⟩ := Slab.view_eq_some_iff.mp hb
    exact (hbusy ts).mpr (h t ts ht) hb

theorem refsOf_recount (t : TubeId) : refsOf e.uses e.watches e.homes t =
    ⟨e.recountUsing t, TreeMap.count (fun _ c => c.watch.items.contains t) e.conns,
      e.recountJobRefs t⟩ := by
  unfold refsOf uses watches homes
  rw [count_map e.conns ConnState.useTube (· == t),
    count_map e.conns (fun c => c.watch.items) (fun w => w.contains t),
    count_map e.jobs JobRec.tube (· == t)]
  rfl

/-! ## The equivalence -/

namespace Checked

variable (h : e.Checked) {i : JobId} {j : JobRec}

include h

theorem homed : e.Homed := fun i j hj => by
  obtain ⟨t, ht, -⟩ := (h.jobs i j hj).home
  exact ⟨t, ht⟩

/-- Buried jobs are in their tube's list: none is missing. -/
theorem buried_listed (hj : e.jobs[i]? = some j) (hst : j.state = .buried) :
    ∃ ts, Slab.get e.tubes j.tube = some ts ∧ ts.buried[j.listSeq]? = some i := by
  have hsum := h.buried
  simp only [← length_values, recountState] at hsum
  rw [tubeSum_eq_count_iff] at hsum
  · obtain ⟨ts, ht, hi⟩ := hsum i j hj (by simp [hst])
    obtain ⟨s, hs⟩ := TreeMap.mem_values.mp hi
    obtain ⟨j', hj', -, -, rfl, -⟩ := (h.tubes _ ts ht).buried hs
    rw [hj] at hj'
    cases hj'
    exact ⟨ts, ht, hs⟩
  · intro t ts ht
    refine TreeMap.nodup_values fun s s' i hs hs' => ?_
    obtain ⟨j, hj, -, -, rfl, -⟩ := (h.tubes t ts ht).buried hs
    obtain ⟨j', hj', -, -, rfl, -⟩ := (h.tubes t ts ht).buried hs'
    rw [hj] at hj'
    cases hj'
    rfl
  · intro t ts ht i hi
    obtain ⟨s, hs⟩ := TreeMap.mem_values.mp hi
    obtain ⟨j, hj, hst, ht', -⟩ := (h.tubes t ts ht).buried hs
    exact ⟨j, hj, by simp [hst], ht'⟩

/-- Every job a connection lists is in its deadline index too. -/
theorem due_listed {c : ConnId} {k : ConnState} {s : Nat} (hk : e.conns[c]? = some k)
    (hs : k.reserved[s]? = some i) (hj : e.jobs[i]? = some j) :
    (j.deadlineAt, i) ∈ k.reservedByDeadline := by
  have hf := h.conns c k hk
  have hnd : (k.reservedByDeadline.toList.map Prod.snd).Nodup :=
    nodup_ids JobRec.deadlineAt fun d i hd => (hf.due hd).2
  have hnd' : (TreeMap.values k.reserved).Nodup := by
    refine TreeMap.nodup_values fun s s' i hs hs' => ?_
    obtain ⟨j, hj, -, -, rfl, -⟩ := hf.held hs
    obtain ⟨j', hj', -, -, rfl, -⟩ := hf.held hs'
    rw [hj] at hj'
    cases hj'
    rfl
  have hlen := (Cover.length_eq_iff hnd hnd' fun i hi => by
    obtain ⟨d, hd⟩ := mem_ids.mp hi
    exact (hf.due hd).1).mp (by
      rw [List.length_map, ExtTreeSet.length_toList, length_values, hf.sizes])
  obtain ⟨d, hd⟩ := mem_ids.mp (hlen i (TreeMap.mem_values.mpr ⟨s, hs⟩))
  obtain ⟨-, j', hj', rfl⟩ := hf.due hd
  rw [hj] at hj'
  cases hj'
  exact hd

theorem filing : e.Filing := by
  have hres := (reservedEntries_eq_iff h.conns).mp h.reserved
  constructor
  · intro t ts p i ht
    refine ⟨(h.tubes t ts ht).ready, ?_⟩
    rintro ⟨j, hj, hst, rfl, rfl⟩
    obtain ⟨ts', ht', hr, -⟩ := (h.jobs i j hj).home
    rw [ht] at ht'
    cases ht'
    exact hr hst
  · intro t ts d i ht
    refine ⟨(h.tubes t ts ht).delayed, ?_⟩
    rintro ⟨j, hj, hst, rfl, rfl⟩
    obtain ⟨ts', ht', -, hd⟩ := (h.jobs i j hj).home
    rw [ht] at ht'
    cases ht'
    exact hd hst
  · intro t ts s i ht
    constructor
    · intro hs
      obtain ⟨j, hj, hst, ht', hseq, -⟩ := (h.tubes t ts ht).buried hs
      exact ⟨j, hj, hst, ht', hseq⟩
    rintro ⟨j, hj, hst, rfl, rfl⟩
    obtain ⟨ts', ht', hs⟩ := h.buried_listed hj hst
    rw [ht] at ht'
    cases ht'
    exact hs
  · intro c k s i hk
    constructor
    · intro hs
      obtain ⟨j, hj, hst, hr, hseq, -⟩ := (h.conns c k hk).held hs
      exact ⟨j, hj, hst, hr, hseq⟩
    rintro ⟨j, hj, hst, hr, rfl⟩
    obtain ⟨c', k', hr', hk', hs⟩ := hres i j hj hst
    rw [hr] at hr'
    cases hr'
    rw [hk] at hk'
    cases hk'
    exact hs
  · intro c k d i hk
    constructor
    · intro hd
      obtain ⟨hv, j, hj, hdl⟩ := (h.conns c k hk).due hd
      obtain ⟨s, hs⟩ := TreeMap.mem_values.mp hv
      obtain ⟨j', hj', hst, hr, -⟩ := (h.conns c k hk).held hs
      rw [hj] at hj'
      cases hj'
      exact ⟨j, hj, hst, hr, hdl⟩
    · rintro ⟨j, hj, hst, hr, rfl⟩
      obtain ⟨c', k', hr', hk', hs⟩ := hres i j hj hst
      rw [hr] at hr'
      cases hr'
      rw [hk] at hk'
      cases hk'
      exact h.due_listed hk hs hj

/-- The list keys in use are below the next one. -/
theorem seq_lt (hj : e.jobs[i]? = some j) (hst : j.state = .buried ∨ j.state = .reserved) :
    j.listSeq < e.nextListSeq := by
  rcases hst with hst | hst
  · obtain ⟨ts, ht, hs⟩ := h.buried_listed hj hst
    obtain ⟨_, _, -, -, -, hlt⟩ := (h.tubes _ ts ht).buried hs
    exact hlt
  obtain ⟨c, k, -, hk, hs⟩ := (reservedEntries_eq_iff h.conns).mp h.reserved i j hj hst
  obtain ⟨_, _, -, -, -, hlt⟩ := (h.conns c k hk).held hs
  exact hlt

theorem placed : Placed (Slab.view TubeState.queues e.tubes) (e.conns.map fun _ c => c.resv)
    (places none e.jobs) e.tally e.nextListSeq := by
  refine placed_of_filing (fun i j hj => (h.jobs i j hj).holder) h.filing h.homed
    (fun i j hj => (h.jobs i j hj).connected) (fun i j hj => h.seq_lt hj) ?_ fun t ts ht => ?_
  · rw [tallyOf_places, ← h.filing.urgent_sum h.homed]
    simp only [tally, h.readyCt, h.urgentCt, h.reservedCt, h.buriedCt, h.delayedCt]
  · have hf := h.tubes t ts ht
    simp only [Queues.tally, TubeState.queues, hf.urgentCt, hf.buriedCt, hf.reservedCt]

theorem watch_nodup {c : ConnId} {k : ConnState} (hk : e.conns[c]? = some k) :
    k.watch.items.Nodup := (h.conns c k hk).nodup

theorem core : Core {} e where
  dir := h.dir
  placed := h.placed
  jobs := fun i j hj =>
    ⟨(h.jobs i j hj).id, (h.jobs i j hj).below, (h.jobs i j hj).ttr,
      fun _ => (h.jobs i j hj).holder⟩
  pending := by
    have hp {c : ConnId} {i : JobId} (hc : (e.conns.map fun _ c => ConnState.pendingId c)[c]? =
        some (some i)) : ∃ k, e.conns[c]? = some k ∧ k.pendingId = some i := by
      exact TreeMap.map_eq_some_iff.mp hc
    refine ⟨fun hc => ?_, fun hc => ?_, fun hc hc' => ?_⟩
    · obtain ⟨k, hk, hi⟩ := hp hc
      exact ((h.conns _ k hk).pending _ hi).1
    · obtain ⟨k, hk, hi⟩ := hp hc
      exact ((h.conns _ k hk).pending _ hi).2
    obtain ⟨k, hk, hi⟩ := hp hc
    obtain ⟨k', hk', hi'⟩ := hp hc'
    exact h.pendings _ _ k k' _ hk hk' hi hi'
  housed := fun i j hj => by
    obtain ⟨ts, ht⟩ := h.homed i j hj
    exact ⟨_, Slab.view_of_get ht⟩
  watched := by
    refine ⟨fun {c w} hw i hi => ?_, fun {c w} hw => ?_⟩
    · obtain ⟨k, hk, rfl⟩ := TreeMap.map_eq_some_iff.mp hw
      obtain ⟨ts, ht⟩ := (h.conns c k hk).live i hi
      exact ⟨_, Slab.view_of_get ht⟩
    · obtain ⟨k, hk, rfl⟩ := TreeMap.map_eq_some_iff.mp hw
      exact h.watch_nodup hk
  queued := (queued_iff fun _ _ => h.watch_nodup).mpr fun t ts ht =>
    have hf := h.tubes t ts ht
    ⟨hf.waiters, hf.waitersNodup, hf.waitersAll, hf.waitingCt⟩
  ticks := h.ticks
  heads := heads_iff.mpr ⟨fun t ts ht => (h.tubes t ts ht).head, h.heads⟩
  pauses := pauses_iff.mpr h.pauses
  disp := disp_iff.mpr ⟨fun t ts ht => (h.tubes t ts ht).flag, h.dispatchable⟩
  calm := calm_iff.mpr fun t ts ht => (h.tubes t ts ht).calm
  conns := h.census

theorem inv : Inv e where
  core := h.core
  refs := by
    have hw := recountWatching_eq fun _ _ => h.watch_nodup
    refine ⟨fun {i r} hr => ?_, fun {c i} hc => ?_, fun {i r} hr => ?_⟩
    · obtain ⟨ts, ht, rfl⟩ := Slab.view_eq_some_iff.mp hr
      have hf := h.tubes i ts ht
      rw [refsOf_recount, ← hw]
      simp only [TubeState.refCts, hf.usingCt, hf.watchingCt, hf.jobRefCt]
    · obtain ⟨k, hk, rfl⟩ := TreeMap.map_eq_some_iff.mp hc
      obtain ⟨ts, ht⟩ := (h.conns c k hk).uses
      exact ⟨_, Slab.view_of_get ht⟩
    · obtain ⟨ts, ht, rfl⟩ := Slab.view_eq_some_iff.mp hr
      have hf := h.tubes i ts ht
      rcases hf.referenced with hd | hp
      · exact .inl hd
      refine .inr (.inr ?_)
      simp only [TubeState.refCts, hf.usingCt, hf.watchingCt, hf.jobRefCt]
      exact hp
  watching := fun c w hw => by
    obtain ⟨k, hk, rfl⟩ := TreeMap.map_eq_some_iff.mp hw
    exact (h.conns c k hk).watching
  allocated := h.allocated

end Checked

namespace Inv

variable (h : e.Inv) {i : JobId} {j : JobRec}

include h

theorem holder (hj : e.jobs[i]? = some j) :
    j.reserver.isSome ↔ j.state = .reserved := (h.core.jobs i j hj).holder nofun

theorem filing : e.Filing := filing_of_boxed (fun _ _ => h.holder) h.core.placed.boxed

theorem homed : e.Homed := fun i j hj => by
  obtain ⟨s, hs⟩ := h.core.housed i j hj
  exact Slab.exists_of_view hs

/-- The holder of a job is connected: the job is filed with it. -/
theorem held {c : ConnId} (hj : e.jobs[i]? = some j) (hc : j.reserver = some c) :
    ∃ k, e.conns[c]? = some k ∧ k.reserved[j.listSeq]? = some i := by
  have hst := (h.holder hj).mp (by rw [hc]; rfl)
  exact filedAt_held.mp (((boxed_iff fun _ _ => h.holder).mp h.core.placed.boxed
    (.held c j.listSeq) i).mpr ⟨j, hj, hst, hc, rfl⟩)

theorem seq_lt (hj : e.jobs[i]? = some j) (hst : j.state = .buried ∨ j.state = .reserved) :
    j.listSeq < e.nextListSeq := by
  refine h.core.placed.seqs i j.place (by rw [places_none, hj]; rfl) j.listSeq ?_
  rcases hst with hst | hst <;> simp [JobRec.place, Place.seq?, hst]

theorem connFacts {c : ConnId} {k : ConnState} (hk : e.conns[c]? = some k) : ConnFacts e c k := by
  have hw : e.watches[c]? = some k.watch.items := TreeMap.map_of hk
  have hp : (e.conns.map fun _ c => ConnState.pendingId c)[c]? = some k.pendingId :=
    TreeMap.map_of hk
  have hfil := h.filing
  have hids : (k.reservedByDeadline.toList.map Prod.snd).Nodup :=
    nodup_ids JobRec.deadlineAt fun d i hd => by
      obtain ⟨j, hj, -, -, hdl⟩ := (hfil.due hk).mp hd
      exact ⟨j, hj, hdl⟩
  have hvals : (TreeMap.values k.reserved).Nodup := by
    refine TreeMap.nodup_values fun s s' i hs hs' => ?_
    obtain ⟨j, hj, -, -, rfl⟩ := (hfil.held hk).mp hs
    obtain ⟨j', hj', -, -, rfl⟩ := (hfil.held hk).mp hs'
    rw [hj] at hj'
    cases hj'
    rfl
  have hdue {d : Nanos} {i : JobId} (hd : (d, i) ∈ k.reservedByDeadline) :
      i ∈ TreeMap.values k.reserved ∧ ∃ j, e.jobs[i]? = some j ∧ j.deadlineAt = d := by
    obtain ⟨j, hj, hst, hr, hdl⟩ := (hfil.due hk).mp hd
    exact ⟨TreeMap.mem_values.mpr ⟨_, (hfil.held hk).mpr ⟨j, hj, hst, hr, rfl⟩⟩, j, hj, hdl⟩
  exact {
    uses := by
      obtain ⟨r, hr⟩ := h.refs.use_live (TreeMap.map_of hk)
      exact Slab.exists_of_view hr
    watching := h.watching c _ hw
    live := fun i hi => by
      obtain ⟨s, hs⟩ := h.core.watched.live hw i hi
      exact Slab.exists_of_view hs
    nodup := h.core.watched.nodup hw
    idle := by
      cases hwt : k.waiting with
      | true => exact .inl rfl
      | false =>
        refine .inr (h.core.conns.idle (c := c) ?_)
        rw [ExtTreeMap.getElem?_map, hk, Option.map_some, ConnState.wait, hwt]
    pending := fun i hi => by
      rw [hi] at hp
      exact ⟨h.core.pending.below hp, h.core.pending.unused hp⟩
    sizes := by
      have hlen := (Cover.length_eq_iff hids hvals fun i hi => by
        obtain ⟨d, hd⟩ := mem_ids.mp hi
        exact (hdue hd).1).mpr fun i hi => by
          obtain ⟨s, hs⟩ := TreeMap.mem_values.mp hi
          obtain ⟨j, hj, hst, hr, -⟩ := (hfil.held hk).mp hs
          exact mem_ids.mpr ⟨_, (hfil.due hk).mpr ⟨j, hj, hst, hr, rfl⟩⟩
      rw [List.length_map, ExtTreeSet.length_toList, length_values] at hlen
      exact hlen.symm
    held := fun hs => by
      obtain ⟨j, hj, hst, hr, rfl⟩ := (hfil.held hk).mp hs
      exact ⟨j, hj, hst, hr, rfl, h.seq_lt hj (.inr hst)⟩
    due := hdue
    tick := (h.core.ticks.fresh c k.ticks (TreeMap.map_of hk) nofun).symm }

theorem jobFacts (hj : e.jobs[i]? = some j) : JobFacts e i j := by
  obtain ⟨ts, ht⟩ := h.homed i j hj
  have hok := h.core.jobs i j hj
  exact {
    id := hok.id
    below := hok.below
    ttr := hok.ttr
    holder := h.holder hj
    connected := fun c hc => by
      obtain ⟨k, hk, -⟩ := h.held hj hc
      exact ⟨k, hk⟩
    home := ⟨ts, ht, fun hst => (h.filing.ready ht).mpr ⟨j, hj, hst, rfl, rfl⟩,
      fun hst => (h.filing.delayed ht).mpr ⟨j, hj, hst, rfl, rfl⟩⟩ }

theorem tubeFacts {ts : TubeState} (ht : Slab.get e.tubes t = some ts) : TubeFacts e t ts := by
  have hwn : ∀ (c : ConnId) (k : ConnState), e.conns[c]? = some k → k.watch.items.Nodup :=
    fun c k hk => (h.connFacts hk).nodup
  have hfil := h.filing
  obtain ⟨hq₁, hq₂, hq₃, hq₄⟩ := (queued_iff hwn).mp h.core.queued t ts ht
  have htally := h.core.placed.tubes t ts.queues (Slab.view_of_get ht)
  rw [tubeTally_places hfil ht] at htally
  simp only [Queues.tally, TubeState.queues, TubeTally.mk.injEq] at htally
  have hrefs := h.refs.counts (Slab.view_of_get ht)
  rw [refsOf_recount, ← recountWatching_eq hwn] at hrefs
  simp only [TubeState.refCts, RefCts.mk.injEq] at hrefs
  exact {
    ready := (hfil.ready ht).mp
    delayed := (hfil.delayed ht).mp
    buried := fun hs => by
      obtain ⟨j, hj, hst, ht', rfl⟩ := (hfil.buried ht).mp hs
      exact ⟨j, hj, hst, ht', rfl, h.seq_lt hj (.inl hst)⟩
    waiters := hq₁
    waitersNodup := hq₂
    waitersAll := hq₃
    urgentCt := htally.1
    buriedCt := htally.2.1
    reservedCt := htally.2.2
    waitingCt := hq₄
    usingCt := hrefs.1
    watchingCt := hrefs.2.1
    jobRefCt := hrefs.2.2
    referenced := by
      rcases h.refs.referenced (Slab.view_of_get ht) with hd | hn | hp
      · exact .inl hd
      · cases hn
      · simp only [TubeState.refCts, hrefs.1, hrefs.2.1, hrefs.2.2] at hp
        exact .inr hp
    head := (heads_iff.mp h.core.heads).1 t ts ht
    flag := (disp_iff.mp h.core.disp).1 t ts ht
    calm := calm_iff.mp h.core.calm t ts ht }

theorem checked (ho : e.curConns ≤ e.totConns) (hb : e.Bounded) : e.Checked := by
  have hfil := h.filing
  have htally := h.core.placed.tally
  rw [tallyOf_places, ← hfil.urgent_sum h.homed] at htally
  simp only [tally, Tally.mk.injEq] at htally
  exact {
    bounded := hb
    dir := h.core.dir
    allocated := h.allocated
    conns := fun _ _ => h.connFacts
    pendings := fun c c' k k' i hk hk' hi hi' => by
      have hp {c : ConnId} {k : ConnState} (hk : e.conns[c]? = some k) (hi : k.pendingId = some i) :
          (e.conns.map fun _ c => ConnState.pendingId c)[c]? = some (some i) := by
        rw [ExtTreeMap.getElem?_map, hk, Option.map_some, hi]
      exact h.core.pending.distinct (hp hk hi) (hp hk' hi')
    ticks := h.core.ticks
    census := h.core.conns
    opened := ho
    jobs := fun _ _ => h.jobFacts
    reserved := (reservedEntries_eq_iff fun _ _ => h.connFacts).mpr fun i j hj hst => by
      obtain ⟨c, hc⟩ := Option.isSome_iff_exists.mp ((h.holder hj).mpr hst)
      obtain ⟨k, hk, hs⟩ := h.held hj hc
      exact ⟨c, k, hc, hk, hs⟩
    reservedCt := htally.2.2.1
    tubes := fun _ _ => h.tubeFacts
    ready := hfil.ready_sum h.homed
    delayed := hfil.delayed_sum h.homed
    buried := hfil.buried_sum h.homed
    readyCt := htally.1
    urgentCt := htally.2.1
    delayedCt := htally.2.2.2.2
    buriedCt := htally.2.2.2.1
    heads := (heads_iff.mp h.core.heads).2
    pauses := pauses_iff.mp h.core.pauses
    dispatchable := (disp_iff.mp h.core.disp).2 }

end Inv

/-- `validate` accepts exactly the states that satisfy the invariant within the
bounds and have counted at least the connections that are open. -/
theorem validate_ok_iff :
    e.validate = .ok () ↔ e.Inv ∧ e.curConns ≤ e.totConns ∧ e.Bounded := by
  rw [validate_checked]
  exact ⟨fun h => ⟨h.inv, h.opened, h.bounded⟩, fun h => h.1.checked h.2.1 h.2.2⟩

end Engine

end Beanstalkd
