import Beanstalkd.Engine.ValidateQueues

/-!
# What `validate` accepts: jobs and their containers

`Filing` is `Boxed` read container by container: the entries of a set or list
are exactly the jobs whose records say so. From it follow the counts the source
compares: a tube's entries of a kind are as many as its jobs of the kind, and
all tubes' entries together as many as all jobs of the kind.
-/

open Std

namespace Beanstalkd

namespace Engine

variable {e : Engine} {t : TubeId} {s : ExtTreeSet (Nat × JobId)}

/-- The containers hold exactly the jobs whose records say so, container by
container. -/
structure Filing (e : Engine) : Prop where
  ready {t : TubeId} {ts : TubeState} {p : Nat} {i : JobId} : Slab.get e.tubes t = some ts →
    ((p, i) ∈ ts.ready ↔ ∃ j, e.jobs[i]? = some j ∧ j.state = .ready ∧ j.tube = t ∧ j.pri = p)
  delayed {t : TubeId} {ts : TubeState} {d : Nanos} {i : JobId} : Slab.get e.tubes t = some ts →
    ((d, i) ∈ ts.delayed ↔
      ∃ j, e.jobs[i]? = some j ∧ j.state = .delayed ∧ j.tube = t ∧ j.deadlineAt = d)
  buried {t : TubeId} {ts : TubeState} {s : Nat} {i : JobId} : Slab.get e.tubes t = some ts →
    (ts.buried[s]? = some i ↔
      ∃ j, e.jobs[i]? = some j ∧ j.state = .buried ∧ j.tube = t ∧ j.listSeq = s)
  held {c : ConnId} {k : ConnState} {s : Nat} {i : JobId} : e.conns[c]? = some k →
    (k.reserved[s]? = some i ↔
      ∃ j, e.jobs[i]? = some j ∧ j.state = .reserved ∧ j.reserver = some c ∧ j.listSeq = s)
  due {c : ConnId} {k : ConnState} {d : Nanos} {i : JobId} : e.conns[c]? = some k →
    ((d, i) ∈ k.reservedByDeadline ↔
      ∃ j, e.jobs[i]? = some j ∧ j.state = .reserved ∧ j.reserver = some c ∧ j.deadlineAt = d)

/-- A job's record read as positions. -/
def JobAt (j : JobRec) : Loc → Prop
  | .ready t p => j.state = .ready ∧ j.tube = t ∧ j.pri = p
  | .delayed t d => j.state = .delayed ∧ j.tube = t ∧ j.deadlineAt = d
  | .buried t s => j.state = .buried ∧ j.tube = t ∧ j.listSeq = s
  | .held c s => j.state = .reserved ∧ j.reserver = some c ∧ j.listSeq = s
  | .due c d => j.state = .reserved ∧ j.reserver = some c ∧ j.deadlineAt = d

theorem mem_locs_place {j : JobRec} {l : Loc} (hh : j.reserver.isSome ↔ j.state = .reserved) :
    l ∈ j.place.locs ↔ JobAt j l := by
  unfold JobRec.place Place.locs
  cases hst : j.state with
  | ready | delayed | buried => cases l <;> simp [JobAt, hst, eq_comm]
  | reserved =>
    obtain ⟨c, hc⟩ := Option.isSome_iff_exists.mp (hh.mpr hst)
    cases l <;> simp [JobAt, hst, hc, eq_comm]

/-- The positions of the engine's own containers. -/
def FiledAt (e : Engine) (l : Loc) (i : JobId) : Prop :=
  Filed (Slab.view TubeState.queues e.tubes) (e.conns.map fun _ c => c.resv) l i

theorem filedAt_ready {p : Nat} {i : JobId} : e.FiledAt (.ready t p) i ↔
    ∃ ts, Slab.get e.tubes t = some ts ∧ (p, i) ∈ ts.ready := by
  simp [FiledAt, Filed, Slab.view_eq_some_iff, TubeState.queues]

theorem filedAt_delayed {d : Nanos} {i : JobId} : e.FiledAt (.delayed t d) i ↔
    ∃ ts, Slab.get e.tubes t = some ts ∧ (d, i) ∈ ts.delayed := by
  simp [FiledAt, Filed, Slab.view_eq_some_iff, TubeState.queues]

theorem filedAt_buried {s : Nat} {i : JobId} : e.FiledAt (.buried t s) i ↔
    ∃ ts, Slab.get e.tubes t = some ts ∧ ts.buried[s]? = some i := by
  simp [FiledAt, Filed, Slab.view_eq_some_iff, TubeState.queues]

theorem filedAt_held {c : ConnId} {s : Nat} {i : JobId} : e.FiledAt (.held c s) i ↔
    ∃ k, e.conns[c]? = some k ∧ k.reserved[s]? = some i := by
  simp [FiledAt, Filed, ExtTreeMap.getElem?_map, ConnState.resv]

theorem filedAt_due {c : ConnId} {d : Nanos} {i : JobId} : e.FiledAt (.due c d) i ↔
    ∃ k, e.conns[c]? = some k ∧ (d, i) ∈ k.reservedByDeadline := by
  simp [FiledAt, Filed, ExtTreeMap.getElem?_map, ConnState.resv]

section Boxes

variable (hh : ∀ (i : JobId) (j : JobRec), e.jobs[i]? = some j →
    (j.reserver.isSome ↔ j.state = .reserved))

include hh

theorem boxed_iff : Boxed (Slab.view TubeState.queues e.tubes) (e.conns.map fun _ c => c.resv)
    (places none e.jobs) ↔ ∀ l i, e.FiledAt l i ↔ ∃ j, e.jobs[i]? = some j ∧ JobAt j l := by
  refine forall_congr' fun l => forall_congr' fun i => iff_congr Iff.rfl ?_
  rw [places_none]
  cases hj : e.jobs[i]? with
  | none => simp
  | some j => simp [mem_locs_place (hh i j hj)]

theorem boxed_of_filing (h : e.Filing)
    (hhome : ∀ (i : JobId) (j : JobRec), e.jobs[i]? = some j →
      ∃ ts, Slab.get e.tubes j.tube = some ts)
    (hconn : ∀ (i : JobId) (j : JobRec), e.jobs[i]? = some j → ∀ c, j.reserver = some c →
      ∃ k, e.conns[c]? = some k) :
    Boxed (Slab.view TubeState.queues e.tubes) (e.conns.map fun _ c => c.resv)
      (places none e.jobs) := by
  rw [boxed_iff hh]
  intro l i
  cases l with
  | ready t p =>
    rw [filedAt_ready]
    constructor
    · rintro ⟨ts, ht, hp⟩
      exact (h.ready ht).mp hp
    rintro ⟨j, hj, hst, rfl, hp⟩
    obtain ⟨ts, ht⟩ := hhome i j hj
    exact ⟨ts, ht, (h.ready ht).mpr ⟨j, hj, hst, rfl, hp⟩⟩
  | delayed t d =>
    rw [filedAt_delayed]
    constructor
    · rintro ⟨ts, ht, hd⟩
      exact (h.delayed ht).mp hd
    rintro ⟨j, hj, hst, rfl, hd⟩
    obtain ⟨ts, ht⟩ := hhome i j hj
    exact ⟨ts, ht, (h.delayed ht).mpr ⟨j, hj, hst, rfl, hd⟩⟩
  | buried t s =>
    rw [filedAt_buried]
    constructor
    · rintro ⟨ts, ht, hs⟩
      exact (h.buried ht).mp hs
    rintro ⟨j, hj, hst, rfl, hs⟩
    obtain ⟨ts, ht⟩ := hhome i j hj
    exact ⟨ts, ht, (h.buried ht).mpr ⟨j, hj, hst, rfl, hs⟩⟩
  | held c s =>
    rw [filedAt_held]
    constructor
    · rintro ⟨k, hk, hs⟩
      exact (h.held hk).mp hs
    rintro ⟨j, hj, hst, hc, hs⟩
    obtain ⟨k, hk⟩ := hconn i j hj c hc
    exact ⟨k, hk, (h.held hk).mpr ⟨j, hj, hst, hc, hs⟩⟩
  | due c d =>
    rw [filedAt_due]
    constructor
    · rintro ⟨k, hk, hd⟩
      exact (h.due hk).mp hd
    rintro ⟨j, hj, hst, hc, hd⟩
    obtain ⟨k, hk⟩ := hconn i j hj c hc
    exact ⟨k, hk, (h.due hk).mpr ⟨j, hj, hst, hc, hd⟩⟩

theorem filing_of_boxed (h : Boxed (Slab.view TubeState.queues e.tubes)
    (e.conns.map fun _ c => c.resv) (places none e.jobs)) : e.Filing := by
  rw [boxed_iff hh] at h
  constructor
  · intro t ts p i ht
    refine Iff.trans ?_ (h (.ready t p) i)
    rw [filedAt_ready]
    simp [ht]
  · intro t ts d i ht
    refine Iff.trans ?_ (h (.delayed t d) i)
    rw [filedAt_delayed]
    simp [ht]
  · intro t ts s i ht
    refine Iff.trans ?_ (h (.buried t s) i)
    rw [filedAt_buried]
    simp [ht]
  · intro c k s i hk
    refine Iff.trans ?_ (h (.held c s) i)
    rw [filedAt_held]
    simp [hk]
  · intro c k d i hk
    refine Iff.trans ?_ (h (.due c d) i)
    rw [filedAt_due]
    simp [hk]

end Boxes

/-! ## Counting the jobs -/

def readyIds (t : TubeState) : List JobId := t.ready.toList.map Prod.snd

def urgentIds (t : TubeState) : List JobId :=
  (t.ready.toList.filter fun x => decide (x.1 < urgentThreshold)).map Prod.snd

def delayedIds (t : TubeState) : List JobId := t.delayed.toList.map Prod.snd

theorem length_readyIds (t : TubeState) : (readyIds t).length = t.ready.size := by
  rw [readyIds, List.length_map, ExtTreeSet.length_toList]

theorem length_delayedIds (t : TubeState) : (delayedIds t).length = t.delayed.size := by
  rw [delayedIds, List.length_map, ExtTreeSet.length_toList]

theorem length_urgentIds (t : TubeState) : (urgentIds t).length = tubeUrgent t := by
  rw [urgentIds, List.length_map, ← List.countP_eq_length_filter]
  rfl

theorem length_values {α β : Type} [Ord α] [TransOrd α] (m : ExtTreeMap α β) :
    (TreeMap.values m).length = m.size := by
  rw [TreeMap.values, List.length_map, ExtTreeMap.length_toList]

/-- Entries whose key the job's record determines name each job once. -/
theorem nodup_ids (key : JobRec → Nat)
    (h : ∀ (p : Nat) (i : JobId), (p, i) ∈ s → ∃ j, e.jobs[i]? = some j ∧ key j = p) :
    (s.toList.map Prod.snd).Nodup := by
  rw [List.Nodup, List.pairwise_map]
  refine (Cover.nodup_toList_set s).imp_of_mem fun {x y} hx hy hne heq => hne ?_
  obtain ⟨j, hj, hp⟩ := h x.1 x.2 (ExtTreeSet.mem_toList.mp hx)
  obtain ⟨j', hj', hp'⟩ := h y.1 y.2 (ExtTreeSet.mem_toList.mp hy)
  rw [heq, hj'] at hj
  cases hj
  exact Prod.ext (hp.symm.trans hp') heq

theorem mem_ids {i : JobId} : i ∈ s.toList.map Prod.snd ↔ ∃ p, (p, i) ∈ s := by
  simp only [List.mem_map, ExtTreeSet.mem_toList, Prod.exists, exists_eq_right]

namespace Filing

variable {t : TubeId} {ts : TubeState} {i : JobId}

variable (h : e.Filing) (ht : Slab.get e.tubes t = some ts)
include h ht

theorem mem_readyIds : i ∈ readyIds ts ↔
    ∃ j, e.jobs[i]? = some j ∧ (j.state == .ready) = true ∧ j.tube = t := by
  rw [readyIds, mem_ids]
  simp only [h.ready ht, beq_iff_eq]
  grind

theorem mem_urgentIds : i ∈ urgentIds ts ↔
    ∃ j, e.jobs[i]? = some j ∧
      (j.state == .ready && decide (j.pri < urgentThreshold)) = true ∧ j.tube = t := by
  unfold urgentIds
  simp only [List.mem_map, List.mem_filter, ExtTreeSet.mem_toList, Prod.exists, exists_eq_right,
    h.ready ht, decide_eq_true_eq, Bool.and_eq_true, beq_iff_eq]
  grind

theorem mem_delayedIds : i ∈ delayedIds ts ↔
    ∃ j, e.jobs[i]? = some j ∧ (j.state == .delayed) = true ∧ j.tube = t := by
  rw [delayedIds, mem_ids]
  simp only [h.delayed ht, beq_iff_eq]
  grind

theorem mem_buriedIds :
    i ∈ TreeMap.values ts.buried ↔
      ∃ j, e.jobs[i]? = some j ∧ (j.state == .buried) = true ∧ j.tube = t := by
  rw [TreeMap.mem_values]
  simp only [h.buried ht, beq_iff_eq]
  grind

theorem nodup_readyIds : (readyIds ts).Nodup :=
  nodup_ids JobRec.pri fun p i hp => by
    obtain ⟨j, hj, -, -, hpri⟩ := (h.ready ht).mp hp
    exact ⟨j, hj, hpri⟩

theorem nodup_urgentIds : (urgentIds ts).Nodup :=
  (h.nodup_readyIds ht).sublist (List.filter_sublist.map _)

theorem nodup_delayedIds : (delayedIds ts).Nodup :=
  nodup_ids JobRec.deadlineAt fun d i hd => by
    obtain ⟨j, hj, -, -, hdl⟩ := (h.delayed ht).mp hd
    exact ⟨j, hj, hdl⟩

theorem nodup_buriedIds : (TreeMap.values ts.buried).Nodup := by
  refine TreeMap.nodup_values fun s s' i hs hs' => ?_
  obtain ⟨j, hj, -, -, rfl⟩ := (h.buried ht).mp hs
  obtain ⟨j', hj', -, -, rfl⟩ := (h.buried ht).mp hs'
  rw [hj] at hj'
  cases hj'
  rfl

end Filing

/-- Every job lives in a tube. -/
def Homed (e : Engine) : Prop :=
  ∀ (i : JobId) (j : JobRec), e.jobs[i]? = some j → ∃ ts, Slab.get e.tubes j.tube = some ts

/-- A kind of entry that lists exactly the jobs of a kind, added up. -/
theorem tubeSum_eq_count {f : TubeState → List JobId} {p : JobRec → Bool} (hhome : e.Homed)
    (hnd : ∀ (t : TubeId) (ts : TubeState), Slab.get e.tubes t = some ts → (f ts).Nodup)
    (hmem : ∀ (t : TubeId) (ts : TubeState), Slab.get e.tubes t = some ts → ∀ i, i ∈ f ts ↔
      ∃ j, e.jobs[i]? = some j ∧ p j = true ∧ j.tube = t) :
    e.tubeSum (fun t => (f t).length) = TreeMap.count (fun _ j => p j) e.jobs := by
  refine (tubeSum_eq_count_iff hnd fun t ts ht i => (hmem t ts ht i).mp).mpr fun i j hj hp => ?_
  obtain ⟨ts, ht⟩ := hhome i j hj
  exact ⟨ts, ht, (hmem _ ts ht i).mpr ⟨j, hj, hp, rfl⟩⟩

namespace Filing

variable (h : e.Filing) (hhome : e.Homed)

include h hhome

theorem ready_sum : (e.tubeSum fun t => t.ready.size) = e.recountState .ready := by
  simp only [← length_readyIds]
  exact tubeSum_eq_count hhome (fun _ _ => h.nodup_readyIds) fun _ _ ht _ => h.mem_readyIds ht

theorem delayed_sum : (e.tubeSum fun t => t.delayed.size) = e.recountState .delayed := by
  simp only [← length_delayedIds]
  exact tubeSum_eq_count hhome (fun _ _ => h.nodup_delayedIds) fun _ _ ht _ => h.mem_delayedIds ht

theorem buried_sum : (e.tubeSum fun t => t.buried.size) = e.recountState .buried := by
  simp only [← length_values]
  exact tubeSum_eq_count hhome (fun _ _ => h.nodup_buriedIds) fun _ _ ht _ => h.mem_buriedIds ht

theorem urgent_sum : e.tubeSum tubeUrgent =
    TreeMap.count (fun _ j => j.state == .ready && decide (j.pri < urgentThreshold)) e.jobs := by
  have := tubeSum_eq_count hhome
    (fun _ _ => h.nodup_urgentIds) fun _ _ ht _ => h.mem_urgentIds ht
  simp only [length_urgentIds] at this
  exact this

end Filing

/-! ## Counters -/

theorem count_places (jobs : ExtTreeMap JobId JobRec) (p : Place → Bool) :
    TreeMap.count (fun _ x => p x) (places none jobs) =
      TreeMap.count (fun _ j => p (JobRec.place j)) jobs := by
  refine TreeMap.count_congr fun i => ?_
  rw [places_none]
  cases jobs[i]? <;> rfl

theorem place_isReady (j : JobRec) : j.place.isReady = (j.state == .ready) := by
  unfold JobRec.place Place.isReady
  cases j.state <;> rfl

theorem place_isUrgent (j : JobRec) :
    j.place.isUrgent = (j.state == .ready && decide (j.pri < urgentThreshold)) := by
  unfold JobRec.place Place.isUrgent
  cases j.state <;> simp

theorem place_isReserved (j : JobRec) : j.place.isReserved = (j.state == .reserved) := by
  unfold JobRec.place Place.isReserved
  cases j.state <;> rfl

theorem place_isBuried (j : JobRec) : j.place.isBuried = (j.state == .buried) := by
  unfold JobRec.place Place.isBuried
  cases j.state <;> rfl

theorem place_isDelayed (j : JobRec) : j.place.isDelayed = (j.state == .delayed) := by
  unfold JobRec.place Place.isDelayed
  cases j.state <;> rfl

/-- The global counters, as counts of job records. -/
theorem tallyOf_places : tallyOf (places none e.jobs) =
    { ready := e.recountState .ready
      urgent := TreeMap.count
        (fun _ j => j.state == .ready && decide (j.pri < urgentThreshold)) e.jobs
      reserved := e.recountState .reserved
      buried := e.recountState .buried
      delayed := e.recountState .delayed } := by
  simp only [tallyOf, count_places, place_isReady, place_isUrgent, place_isReserved,
    place_isBuried, place_isDelayed, recountState]

theorem tubeTally_places {ts : TubeState} (h : e.Filing) (ht : Slab.get e.tubes t = some ts) :
    tubeTally t (places none e.jobs) =
      ⟨tubeUrgent ts, ts.buried.size, e.recountReservedIn t⟩ := by
  have hcount (p : Place → Bool) :
    TreeMap.count (fun _ x => x.tube == t && p x) (places none e.jobs) =
      TreeMap.count (fun _ j => j.tube == t && p (JobRec.place j)) e.jobs := count_places e.jobs _
  unfold tubeTally
  rw [hcount, hcount, hcount]
  simp only [place_isUrgent, place_isBuried, place_isReserved, TubeTally.mk.injEq]
  refine ⟨?_, ?_, ?_⟩
  · rw [← length_urgentIds]
    exact (length_eq_count (h.nodup_urgentIds ht) fun _ => h.mem_urgentIds ht).symm
  · rw [← length_values]
    exact (length_eq_count (h.nodup_buriedIds ht) fun _ => h.mem_buriedIds ht).symm
  refine TreeMap.count_congr fun i => ?_
  cases e.jobs[i]? with
  | none => rfl
  | some j => exact Bool.and_comm ..

end Engine

end Beanstalkd
