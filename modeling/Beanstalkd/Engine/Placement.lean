import Mathlib.Data.List.Basic
import Beanstalkd.Engine.Frame

/-!
# Where the jobs are

A job is in exactly one container, the one its state names: the ready set, the
delayed set or the buried list of its tube, or the two reservation lists of the
connection that holds it. `JobRec.place` reads the place off the job's record,
and `Boxed` says that the containers hold exactly what the places say: an entry
is there if and only if some job's place occupies it.

A job on its way from one container to another is in *limbo*: still in the job
table, in no container. `places limbo jobs` leaves it out. So every method that
moves a job is a removal (`Boxed.take`) followed by an insertion (`Boxed.put`),
and these two rules ask only which entries came or went.

The counters follow the places: `tallyOf` for the global ones, `tubeTally` for
those of a tube.
-/

open Std

namespace Beanstalkd

/-- Where a job is, with the keys it is filed under. -/
inductive Spot where
  | ready (pri : Nat)
  | delayed (deadline : Nanos)
  | buried (seq : Nat)
  | reserved (conn : ConnId) (deadline : Nanos) (seq : Nat)
  deriving DecidableEq

structure Place where
  tube : TubeId
  spot : Spot
  deriving DecidableEq

/-- The place a job's record names. -/
def JobRec.place (j : JobRec) : Place where
  tube := j.tube
  spot := match j.state with
    | .ready => .ready j.pri
    | .delayed => .delayed j.deadlineAt
    | .buried => .buried j.listSeq
    | .reserved => .reserved (j.reserver.getD 0) j.deadlineAt j.listSeq

/-- The places of all jobs but the one in limbo. -/
def places (limbo : Option JobId) (jobs : ExtTreeMap JobId JobRec) : ExtTreeMap JobId Place :=
  jobs.filterMap fun id j => if limbo = some id then none else some j.place

theorem getElem?_places (limbo : Option JobId) (jobs : ExtTreeMap JobId JobRec) (i : JobId) :
    (places limbo jobs)[i]? = if limbo = some i then none else jobs[i]?.map JobRec.place := by
  rw [places, ExtTreeMap.getElem?_filterMap']
  cases jobs[i]? with
  | none => simp
  | some j => simp

theorem places_none (jobs : ExtTreeMap JobId JobRec) (i : JobId) :
    (places none jobs)[i]? = jobs[i]?.map JobRec.place := by
  rw [getElem?_places, if_neg (by simp)]

theorem places_self (jobs : ExtTreeMap JobId JobRec) (id : JobId) :
    (places (some id) jobs)[id]? = none := by
  rw [getElem?_places, if_pos rfl]

variable {jobs jobs' : ExtTreeMap JobId JobRec}

/-- Taking a job out of its container. -/
theorem places_take {id : JobId}
    (h : ∀ i, i ≠ id → jobs'[i]?.map JobRec.place = jobs[i]?.map JobRec.place) :
    places (some id) jobs' = (places none jobs).erase id := by
  ext i : 1
  rw [getElem?_places, ExtTreeMap.getElem?_erase, places_none]
  by_cases hi : id = i
  · simp [hi]
  · simp [hi, h i (Ne.symm hi)]

/-- Putting a job into the container its record names. -/
theorem places_put {id : JobId} {j : JobRec}
    (h : ∀ i, i ≠ id → jobs'[i]?.map JobRec.place = jobs[i]?.map JobRec.place)
    (hj : jobs'[id]? = some j) : places none jobs' = (places (some id) jobs).insert id j.place := by
  ext i : 1
  rw [places_none, ExtTreeMap.getElem?_insert, getElem?_places]
  by_cases hi : id = i
  · subst hi
    simp [hj]
  · simp [hi, h i (Ne.symm hi)]

/-- A change to the job in limbo is not seen. -/
theorem places_limbo {id : JobId}
    (h : ∀ i, i ≠ id → jobs'[i]?.map JobRec.place = jobs[i]?.map JobRec.place) :
    places (some id) jobs' = places (some id) jobs := by
  ext i : 1
  rw [getElem?_places, getElem?_places]
  by_cases hi : id = i
  · simp [hi]
  · simp [hi, h i (Ne.symm hi)]

/-! ## Containers -/

/-- A position in some container: the container and the key. -/
inductive Loc where
  | ready (tube : TubeId) (pri : Nat)
  | delayed (tube : TubeId) (deadline : Nanos)
  | buried (tube : TubeId) (seq : Nat)
  | held (conn : ConnId) (seq : Nat)
  | due (conn : ConnId) (deadline : Nanos)
  deriving DecidableEq

/-- The positions a place occupies; a reservation is filed twice. -/
def Place.locs (p : Place) : List Loc :=
  match p.spot with
  | .ready pri => [.ready p.tube pri]
  | .delayed d => [.delayed p.tube d]
  | .buried s => [.buried p.tube s]
  | .reserved c d s => [.held c s, .due c d]

/-! Which containers a job is in, by its state. -/

section Locs

variable {j : JobRec} {t : TubeId}

theorem mem_locs_ready {pri : Nat} :
    Loc.ready t pri ∈ j.place.locs ↔ j.state = .ready ∧ j.tube = t ∧ j.pri = pri := by
  unfold JobRec.place Place.locs
  cases hst : j.state <;> simp [eq_comm]

theorem mem_locs_delayed {d : Nanos} :
    Loc.delayed t d ∈ j.place.locs ↔ j.state = .delayed ∧ j.tube = t ∧ j.deadlineAt = d := by
  unfold JobRec.place Place.locs
  cases hst : j.state <;> simp [eq_comm]

theorem mem_locs_buried {seq : Nat} :
    Loc.buried t seq ∈ j.place.locs ↔ j.state = .buried ∧ j.tube = t ∧ j.listSeq = seq := by
  unfold JobRec.place Place.locs
  cases hst : j.state <;> simp [eq_comm]

theorem mem_locs_due {c : ConnId} {d : Nanos} :
    Loc.due c d ∈ j.place.locs ↔
      j.state = .reserved ∧ j.reserver.getD 0 = c ∧ j.deadlineAt = d := by
  unfold JobRec.place Place.locs
  cases hst : j.state <;> simp [eq_comm]

end Locs

/-- Job `i` is filed at `l`. -/
def Filed (Q : TubeId → Option Queues) (R : ExtTreeMap ConnId Resv) (l : Loc) (i : JobId) : Prop :=
  match l with
  | .ready t p => ∃ q, Q t = some q ∧ (p, i) ∈ q.ready
  | .delayed t d => ∃ q, Q t = some q ∧ (d, i) ∈ q.delayed
  | .buried t s => ∃ q, Q t = some q ∧ q.buried[s]? = some i
  | .held c s => ∃ r, R[c]? = some r ∧ r.reserved[s]? = some i
  | .due c d => ∃ r, R[c]? = some r ∧ (d, i) ∈ r.byDeadline

/-- The containers hold exactly what the places say. -/
def Boxed (Q : TubeId → Option Queues) (R : ExtTreeMap ConnId Resv)
    (P : ExtTreeMap JobId Place) : Prop :=
  ∀ l i, Filed Q R l i ↔ ∃ p, P[i]? = some p ∧ l ∈ p.locs

section Rules

variable {Q Q' : TubeId → Option Queues} {R R' : ExtTreeMap ConnId Resv}
  {P : ExtTreeMap JobId Place} {id : JobId} {p : Place}

/-- Filing job `id` at the positions of `p`. -/
theorem Boxed.put (h : Boxed Q R P) (hP : P[id]? = none)
    (hf : ∀ l i, Filed Q' R' l i ↔ Filed Q R l i ∨ (i = id ∧ l ∈ p.locs)) :
    Boxed Q' R' (P.insert id p) := by
  intro l i
  rw [hf l i, h l i]
  constructor
  · rintro (⟨p', hp', hl⟩ | ⟨rfl, hl⟩)
    · exact ⟨p', (TreeMap.insert_eq_some_iff hP).mpr (.inr hp'), hl⟩
    · exact ⟨p, ExtTreeMap.getElem?_insert_self, hl⟩
  rintro ⟨p', hp', hl⟩
  rcases (TreeMap.insert_eq_some_iff hP).mp hp' with ⟨rfl, rfl⟩ | hp'
  · exact .inr ⟨rfl, hl⟩
  · exact .inl ⟨p', hp', hl⟩

/-- Removing exactly the entries of job `id`. -/
theorem Boxed.take (h : Boxed Q R P) (hP : P[id]? = some p)
    (hf : ∀ l i, Filed Q' R' l i ↔ Filed Q R l i ∧ ¬(i = id ∧ l ∈ p.locs)) :
    Boxed Q' R' (P.erase id) := by
  intro l i
  rw [hf l i, h l i]
  constructor
  · rintro ⟨⟨p', hp', hl⟩, hne⟩
    refine ⟨p', TreeMap.erase_eq_some_iff.mpr ⟨fun hi => hne ?_, hp'⟩, hl⟩
    subst hi
    rw [hP] at hp'
    cases hp'
    exact ⟨rfl, hl⟩
  · rintro ⟨p', hp', hl⟩
    obtain ⟨hi, hp'⟩ := TreeMap.erase_eq_some_iff.mp hp'
    exact ⟨⟨p', hp', hl⟩, fun hc => hi hc.1⟩

/-- The place of a filed job. -/
theorem Boxed.place_of_filed (h : Boxed Q R P) {l : Loc} {i : JobId} (hl : Filed Q R l i) :
    ∃ p, P[i]? = some p ∧ l ∈ p.locs := (h l i).mp hl

theorem Boxed.filed (h : Boxed Q R P) {l : Loc} (hP : P[id]? = some p) (hl : l ∈ p.locs) :
    Filed Q R l id := (h l id).mpr ⟨p, hP, hl⟩

end Rules

/-! ## Which entries a change of one container adds or removes -/

section Containers

open Slab (setAt)

variable {Q : TubeId → Option Queues} {R : ExtTreeMap ConnId Resv} {t : TubeId} {q q' : Queues}
  {c : ConnId} {r r' : Resv} {id : JobId} {d : Nanos} {s : Nat}

theorem filed_insert_ready {pri : Nat} (hq : Q t = some q)
    (hr : q'.ready = q.ready.insert (pri, id)) (hd : q'.delayed = q.delayed)
    (hb : q'.buried = q.buried) (l : Loc) (i : JobId) :
    Filed (setAt Q t (some q')) R l i ↔ Filed Q R l i ∨ (i = id ∧ l ∈ [Loc.ready t pri]) := by
  cases l <;> simp only [Filed, setAt] <;> grind

theorem filed_erase_ready {pri : Nat} (hq : Q t = some q)
    (hr : q'.ready = q.ready.erase (pri, id)) (hd : q'.delayed = q.delayed)
    (hb : q'.buried = q.buried) (l : Loc) (i : JobId) :
    Filed (setAt Q t (some q')) R l i ↔ Filed Q R l i ∧ ¬(i = id ∧ l ∈ [Loc.ready t pri]) := by
  cases l <;> simp only [Filed, setAt] <;> grind

theorem filed_insert_delayed (hq : Q t = some q) (hr : q'.ready = q.ready)
    (hd : q'.delayed = q.delayed.insert (d, id)) (hb : q'.buried = q.buried) (l : Loc) (i : JobId) :
    Filed (setAt Q t (some q')) R l i ↔ Filed Q R l i ∨ (i = id ∧ l ∈ [Loc.delayed t d]) := by
  cases l <;> simp only [Filed, setAt] <;> grind

theorem filed_erase_delayed (hq : Q t = some q) (hr : q'.ready = q.ready)
    (hd : q'.delayed = q.delayed.erase (d, id)) (hb : q'.buried = q.buried) (l : Loc) (i : JobId) :
    Filed (setAt Q t (some q')) R l i ↔ Filed Q R l i ∧ ¬(i = id ∧ l ∈ [Loc.delayed t d]) := by
  cases l <;> simp only [Filed, setAt] <;> grind

theorem filed_insert_buried (hq : Q t = some q) (hs : q.buried[s]? = none) (hr : q'.ready = q.ready)
    (hd : q'.delayed = q.delayed) (hb : q'.buried = q.buried.insert s id) (l : Loc) (i : JobId) :
    Filed (setAt Q t (some q')) R l i ↔ Filed Q R l i ∨ (i = id ∧ l ∈ [Loc.buried t s]) := by
  cases l <;> simp only [Filed, setAt] <;> grind

theorem filed_erase_buried (hq : Q t = some q) (hs : q.buried[s]? = some id)
    (hr : q'.ready = q.ready) (hd : q'.delayed = q.delayed) (hb : q'.buried = q.buried.erase s)
    (l : Loc) (i : JobId) :
    Filed (setAt Q t (some q')) R l i ↔ Filed Q R l i ∧ ¬(i = id ∧ l ∈ [Loc.buried t s]) := by
  cases l <;> simp only [Filed, setAt] <;> grind

/-- A reservation is filed with its connection; the tube only counts it. -/
theorem filed_insert_resv (hq : Q t = some q) (hready : q'.ready = q.ready)
    (hd : q'.delayed = q.delayed) (hb : q'.buried = q.buried) (hr : R[c]? = some r)
    (hs : r.reserved[s]? = none) (l : Loc) (i : JobId) :
    Filed (setAt Q t (some q'))
        (R.insert c ⟨r.reserved.insert s id, r.byDeadline.insert (d, id)⟩) l i ↔
      Filed Q R l i ∨ (i = id ∧ l ∈ [Loc.held c s, Loc.due c d]) := by
  cases l <;> simp only [Filed, setAt] <;> grind

theorem filed_erase_resv (hq : Q t = some q) (hready : q'.ready = q.ready)
    (hd : q'.delayed = q.delayed) (hb : q'.buried = q.buried) (hr : R[c]? = some r)
    (hs : r.reserved[s]? = some id) (l : Loc) (i : JobId) :
    Filed (setAt Q t (some q'))
        (R.insert c ⟨r.reserved.erase s, r.byDeadline.erase (d, id)⟩) l i ↔
      Filed Q R l i ∧ ¬(i = id ∧ l ∈ [Loc.held c s, Loc.due c d]) := by
  cases l <;> simp only [Filed, setAt] <;> grind

/-- A reservation with a new deadline. -/
theorem filed_touch {d' : Nanos} (hr : R[c]? = some r) (hs : r.reserved[s]? = some id)
    (hd : (d, id) ∈ r.byDeadline) (l : Loc) (i : JobId) :
    Filed Q (R.insert c ⟨r.reserved, (r.byDeadline.erase (d, id)).insert (d', id)⟩) l i ↔
      (Filed Q R l i ∧ ¬(i = id ∧ l ∈ [Loc.held c s, Loc.due c d])) ∨
        (i = id ∧ l ∈ [Loc.held c s, Loc.due c d']) := by
  cases l <;> simp only [Filed] <;> grind

end Containers

/-! ## Counters -/

namespace Place

def isReady (p : Place) : Bool := match p.spot with
  | .ready _ => true
  | _ => false

def isUrgent (p : Place) : Bool := match p.spot with
  | .ready pri => decide (pri < urgentThreshold)
  | _ => false

def isReserved (p : Place) : Bool := match p.spot with
  | .reserved .. => true
  | _ => false

def isBuried (p : Place) : Bool := match p.spot with
  | .buried _ => true
  | _ => false

def isDelayed (p : Place) : Bool := match p.spot with
  | .delayed _ => true
  | _ => false

/-- The list key of a buried or reserved job. -/
def seq? (p : Place) : Option Nat := match p.spot with
  | .buried s | .reserved _ _ s => some s
  | .ready _ | .delayed _ => none

end Place

/-- The counters the places call for. -/
def tallyOf (P : ExtTreeMap JobId Place) : Tally where
  ready := TreeMap.count (fun _ p => p.isReady) P
  urgent := TreeMap.count (fun _ p => p.isUrgent) P
  reserved := TreeMap.count (fun _ p => p.isReserved) P
  buried := TreeMap.count (fun _ p => p.isBuried) P
  delayed := TreeMap.count (fun _ p => p.isDelayed) P

def Tally.add (T : Tally) (p : Place) : Tally where
  ready := T.ready + p.isReady.toNat
  urgent := T.urgent + p.isUrgent.toNat
  reserved := T.reserved + p.isReserved.toNat
  buried := T.buried + p.isBuried.toNat
  delayed := T.delayed + p.isDelayed.toNat

def Tally.sub (T : Tally) (p : Place) : Tally where
  ready := T.ready - p.isReady.toNat
  urgent := T.urgent - p.isUrgent.toNat
  reserved := T.reserved - p.isReserved.toNat
  buried := T.buried - p.isBuried.toNat
  delayed := T.delayed - p.isDelayed.toNat

/-- The job counters a tube keeps. -/
structure TubeTally where
  urgent : Nat
  buried : Nat
  reserved : Nat

def Queues.tally (q : Queues) : TubeTally := ⟨q.urgentCt, q.buriedCt, q.reservedCt⟩

/-- The counters the places call for in tube `t`. -/
def tubeTally (t : TubeId) (P : ExtTreeMap JobId Place) : TubeTally where
  urgent := TreeMap.count (fun _ p => p.tube == t && p.isUrgent) P
  buried := TreeMap.count (fun _ p => p.tube == t && p.isBuried) P
  reserved := TreeMap.count (fun _ p => p.tube == t && p.isReserved) P

def TubeTally.add (T : TubeTally) (p : Place) : TubeTally where
  urgent := T.urgent + p.isUrgent.toNat
  buried := T.buried + p.isBuried.toNat
  reserved := T.reserved + p.isReserved.toNat

def TubeTally.sub (T : TubeTally) (p : Place) : TubeTally where
  urgent := T.urgent - p.isUrgent.toNat
  buried := T.buried - p.isBuried.toNat
  reserved := T.reserved - p.isReserved.toNat

section Counters

variable {P : ExtTreeMap JobId Place} {id : JobId} {p : Place}

theorem tallyOf_insert (h : P[id]? = none) : tallyOf (P.insert id p) = (tallyOf P).add p := by
  simp only [tallyOf, Tally.add, TreeMap.count_insert h]

theorem tallyOf_erase (h : P[id]? = some p) : tallyOf (P.erase id) = (tallyOf P).sub p := by
  have hc := fun f : JobId → Place → Bool => TreeMap.count_erase (p := f) h
  simp only [tallyOf, Tally.sub]
  congr 1 <;> exact (Nat.sub_eq_of_eq_add (hc _).symm).symm

theorem tubeTally_insert (h : P[id]? = none) (t : TubeId) :
    tubeTally t (P.insert id p) =
      if p.tube = t then (tubeTally t P).add p else tubeTally t P := by
  simp only [tubeTally, TreeMap.count_insert h]
  split
  · next ht => simp [TubeTally.add, ht]
  · next ht => simp [ht]

theorem tubeTally_erase (h : P[id]? = some p) (t : TubeId) :
    tubeTally t (P.erase id) =
      if p.tube = t then (tubeTally t P).sub p else tubeTally t P := by
  have hc := fun f : JobId → Place → Bool => TreeMap.count_erase (p := f) h
  simp only [tubeTally, TubeTally.sub]
  split
  · next ht =>
    congr 1 <;> refine (Nat.sub_eq_of_eq_add ?_).symm
    all_goals
      rw [← hc]
      simp [ht]
  · next ht =>
    congr 1
    all_goals
      rw [← hc fun _ p => _]
      simp [ht]

end Counters

/-! ## The invariant -/

/-- Containers and counters agree with the places; list keys are below the
next one to be handed out. -/
structure Placed (Q : TubeId → Option Queues) (R : ExtTreeMap ConnId Resv)
    (P : ExtTreeMap JobId Place) (T : Tally) (nextSeq : Nat) : Prop where
  boxed : Boxed Q R P
  tally : T = tallyOf P
  tubes : ∀ t q, Q t = some q → q.tally = tubeTally t P
  seqs : ∀ (i : JobId) (p : Place), P[i]? = some p → ∀ s, p.seq? = some s → s < nextSeq

namespace Placed

open Slab (setAt)

variable {Q : TubeId → Option Queues} {R R' : ExtTreeMap ConnId Resv}
  {P : ExtTreeMap JobId Place} {T : Tally} {n : Nat} {id : JobId} {p : Place} {t : TubeId}
  {q w : Queues}

/-- Job `id` arrives at `p`, filed in tube `p.tube` or with a connection. -/
theorem put (h : Placed Q R P T n) (hP : P[id]? = none) (hq : Q p.tube = some q)
    (hf : ∀ l i, Filed (setAt Q p.tube (some w)) R' l i ↔ Filed Q R l i ∨ (i = id ∧ l ∈ p.locs))
    (ht : w.tally = q.tally.add p) {m : Nat} (hm : n ≤ m) (hs : ∀ s, p.seq? = some s → s < m) :
    Placed (setAt Q p.tube (some w)) R' (P.insert id p) (T.add p) m where
  boxed := h.boxed.put hP hf
  tally := by rw [tallyOf_insert hP, h.tally]
  tubes := by
    intro u q'' hu
    rw [tubeTally_insert hP]
    obtain ⟨rfl, ⟨⟩⟩ | ⟨hut, hu⟩ := Slab.of_setAt hu
    · rw [if_pos rfl, ht, h.tubes _ q hq]
    · rw [if_neg hut, h.tubes u q'' hu]
  seqs := by
    intro i p' hi s hp'
    rcases (TreeMap.insert_eq_some_iff hP).mp hi with ⟨rfl, rfl⟩ | hi
    · exact hs s hp'
    · exact Nat.lt_of_lt_of_le (h.seqs i p' hi s hp') hm

/-- Job `id` leaves `p`. -/
theorem take (h : Placed Q R P T n) (hP : P[id]? = some p) (hq : Q p.tube = some q)
    (hf : ∀ l i, Filed (setAt Q p.tube (some w)) R' l i ↔ Filed Q R l i ∧ ¬(i = id ∧ l ∈ p.locs))
    (ht : w.tally = q.tally.sub p) :
    Placed (setAt Q p.tube (some w)) R' (P.erase id) (T.sub p) n where
  boxed := h.boxed.take hP hf
  tally := by rw [tallyOf_erase hP, h.tally]
  tubes := by
    intro u q'' hu
    rw [tubeTally_erase hP]
    obtain ⟨rfl, ⟨⟩⟩ | ⟨hut, hu⟩ := Slab.of_setAt hu
    · rw [if_pos rfl, ht, h.tubes _ q hq]
    · rw [if_neg hut, h.tubes u q'' hu]
  seqs := by
    intro i p' hi s hp'
    exact h.seqs i p' (TreeMap.erase_eq_some_iff.mp hi).2 s hp'

/-- Job `id` is filed anew in the same tube and in the same state. -/
theorem refile {x : Place} (h : Placed Q R P T n) (hP : P[id]? = some p)
    (hf : ∀ l i, Filed Q R' l i ↔ (Filed Q R l i ∧ ¬(i = id ∧ l ∈ p.locs)) ∨ (i = id ∧ l ∈ x.locs))
    (htube : x.tube = p.tube) (hready : x.isReady = p.isReady) (hurg : x.isUrgent = p.isUrgent)
    (hres : x.isReserved = p.isReserved) (hbur : x.isBuried = p.isBuried)
    (hdel : x.isDelayed = p.isDelayed) (hs : x.seq? = p.seq?) :
    Placed Q R' (P.insert id x) T n where
  boxed := by
    intro l i
    rw [hf l i, h.boxed l i, ExtTreeMap.getElem?_insert]
    by_cases hi : id = i
    · subst hi
      simp [hP]
    · simp [hi, Ne.symm hi]
  tally := by
    rw [h.tally]
    simp only [tallyOf, Tally.mk.injEq]
    refine ⟨?_, ?_, ?_, ?_, ?_⟩ <;> refine (TreeMap.count_congr fun i => ?_).symm <;>
      rw [ExtTreeMap.getElem?_insert] <;> by_cases hi : id = i
    all_goals first | (subst hi; simp [*]) | simp [hi]
  tubes := by
    intro t q hq
    rw [h.tubes t q hq]
    simp only [tubeTally, TubeTally.mk.injEq]
    refine ⟨?_, ?_, ?_⟩ <;> refine (TreeMap.count_congr fun i => ?_).symm <;>
      rw [ExtTreeMap.getElem?_insert] <;> by_cases hi : id = i
    all_goals first | (subst hi; simp [*]) | simp [hi]
  seqs := by
    intro i p' hp'
    rw [ExtTreeMap.getElem?_insert] at hp'
    split at hp'
    · cases hp'
      rw [hs]
      exact h.seqs id p hP
    · exact h.seqs i p' hp'

/-- No list uses the next key yet. -/
theorem buried_fresh (h : Placed Q R P T n) (hq : Q t = some q) : q.buried[n]? = none := by
  cases hb : q.buried[n]? with
  | none => rfl
  | some i =>
    obtain ⟨p, hp, hl⟩ := h.boxed.place_of_filed (l := .buried t n) ⟨q, hq, hb⟩
    obtain ⟨tube, spot⟩ := p
    cases spot <;> simp [Place.locs] at hl
    obtain ⟨rfl, rfl⟩ := hl
    exact absurd (h.seqs i _ hp n rfl) (Nat.lt_irrefl n)

theorem reserved_fresh (h : Placed Q R P T n) {c : ConnId} {r : Resv} (hr : R[c]? = some r) :
    r.reserved[n]? = none := by
  cases hb : r.reserved[n]? with
  | none => rfl
  | some i =>
    obtain ⟨p, hp, hl⟩ := h.boxed.place_of_filed (l := .held c n) ⟨r, hr, hb⟩
    obtain ⟨tube, spot⟩ := p
    cases spot <;> simp [Place.locs] at hl
    obtain ⟨rfl, rfl⟩ := hl
    exact absurd (h.seqs i _ hp n rfl) (Nat.lt_irrefl n)

end Placed

end Beanstalkd
