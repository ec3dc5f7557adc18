import Beanstalkd.Engine.ValidateInv

/-!
# Snapshots of an engine

`export_state` and `import_state`. The exported state is everything but the
system-information object, the pending journal, the outbox and the choice of
local connections; the three hash maps become lists sorted by key. Importing
checks that those lists are strictly ascending, rebuilds the maps, and runs
`validate` on the result.

`import_export` is the round trip: an engine that satisfies the invariant within
the bounds comes back as it was.
-/

open Std

namespace Beanstalkd

/-- The full state of an engine, for a snapshot. -/
structure EngineState extends Census, Totals where
  cfg : EngineConfig
  start : Nanos
  draining : Bool
  nextJobId : JobId
  jobs : List JobRec
  nextListSeq : Nat
  tubes : List (Option TubeState)
  freeTubeIds : List TubeId
  tubeIds : List (TubeName × TubeId)
  tubeOrder : Ms TubeId
  conns : List (ConnId × ConnState)
  connTicks : ExtTreeSet (Nanos × ConnId)
  delayHeads : ExtTreeSet (Nanos × TubeId)
  pauses : ExtTreeSet (Nanos × TubeId)
  dispatchable : ExtTreeSet TubeId
  readyCt : Nat
  urgentCt : Nat
  reservedCt : Nat
  buriedCt : Nat
  delayedCt : Nat
  waitingCt : Nat
  binlog : BinlogStats

/-- Why `import_state` rejected a state. -/
structure StateError where
  reason : String
  deriving DecidableEq

/-- Fails at the first element whose key is not above the one before it. -/
def ascending {α κ : Type} [Ord κ] (key : α → κ) (msg : α → String) :
    Option κ → List α → Except StateError Unit
  | _, [] => .ok ()
  | prev, a :: l =>
    if prev.any fun p => (compare (key a) p).isLE then .error ⟨msg a⟩
    else ascending key msg (some (key a)) l

namespace Engine

def exportState (e : Engine) : EngineState where
  toCensus := e.toCensus
  toTotals := e.toTotals
  cfg := e.cfg
  start := e.start
  draining := e.draining
  nextJobId := e.nextJobId
  jobs := (TreeMap.values e.jobs).mergeSort fun a b => decide (a.id ≤ b.id)
  nextListSeq := e.nextListSeq
  tubes := e.tubes
  freeTubeIds := e.freeTubeIds
  tubeIds := e.tubeIds.toList
  tubeOrder := e.tubeOrder
  conns := e.conns.toList
  connTicks := e.connTicks
  delayHeads := e.delayHeads
  pauses := e.pauses
  dispatchable := e.dispatchable
  readyCt := e.readyCt
  urgentCt := e.urgentCt
  reservedCt := e.reservedCt
  buriedCt := e.buriedCt
  delayedCt := e.delayedCt
  waitingCt := e.waitingCt
  binlog := e.binlog

/-- The engine of a state, before it is validated. The journal starts empty and
every connection is local. -/
def ofState (s : EngineState) (sys : Nanos → SysSnapshot) : Engine where
  toCensus := s.toCensus
  toTotals := s.toTotals
  cfg := s.cfg
  sys := sys
  start := s.start
  binlog := s.binlog
  localConns := none
  freeTubeIds := s.freeTubeIds
  tubeIds := .ofList s.tubeIds
  tubeOrder := s.tubeOrder
  draining := s.draining
  nextJobId := s.nextJobId
  nextListSeq := s.nextListSeq
  jobs := .ofList (s.jobs.map fun j => (j.id, j))
  tubes := s.tubes
  conns := .ofList s.conns
  connTicks := s.connTicks
  delayHeads := s.delayHeads
  pauses := s.pauses
  dispatchable := s.dispatchable
  readyCt := s.readyCt
  urgentCt := s.urgentCt
  reservedCt := s.reservedCt
  buriedCt := s.buriedCt
  delayedCt := s.delayedCt
  waitingCt := s.waitingCt
  journal := []
  out := []

/-- Rebuild an engine from a snapshot that may come from anywhere. -/
def importState (s : EngineState) (sys : Nanos → SysSnapshot) : Except StateError Engine := do
  ascending JobRec.id (fun j => s!"jobs not strictly ascending at id {j.id}") none s.jobs
  ascending Prod.fst (fun x => s!"tube_ids not strictly ascending at {x.1.display}") none s.tubeIds
  ascending Prod.fst (fun x => s!"conns not strictly ascending at id {x.1}") none s.conns
  let e := ofState s sys
  match e.validate with
  | .error m => .error ⟨m⟩
  | .ok () => .ok e

variable {e : Engine} {s : EngineState} {sys : Nanos → SysSnapshot}

theorem importState_ok :
    importState s sys = .ok e ↔
      ascending JobRec.id (fun j => s!"jobs not strictly ascending at id {j.id}") none s.jobs =
        .ok () ∧
      ascending Prod.fst (fun x => s!"tube_ids not strictly ascending at {x.1.display}") none
        s.tubeIds = .ok () ∧
      ascending Prod.fst (fun x => s!"conns not strictly ascending at id {x.1}") none s.conns =
        .ok () ∧
      e = ofState s sys ∧ (ofState s sys).validate = .ok () := by
  unfold importState
  simp only [Check.bind_ok]
  cases (ofState s sys).validate with
  | error m => simp
  | ok u => simp [eq_comm]

/-- Whatever is imported is valid. -/
theorem importState_valid (h : importState s sys = .ok e) : e.validate = .ok () := by
  obtain ⟨-, -, -, rfl, hv⟩ := importState_ok.mp h
  exact hv

/-! ## The round trip -/

theorem ascending_ok {α κ : Type} [Ord κ] [TransOrd κ] {key : α → κ} {msg : α → String} :
    ∀ (l : List α) (prev : Option κ), (l.Pairwise fun a b => compare (key a) (key b) = .lt) →
      (∀ p, prev = some p → ∀ a ∈ l, compare p (key a) = .lt) →
      ascending key msg prev l = .ok () := by
  intro l
  induction l with
  | nil => intro _ _ _; rfl
  | cons a l ih =>
    intro prev hpw hprev
    rw [List.pairwise_cons] at hpw
    have hnot : (prev.any fun p => (compare (key a) p).isLE) = false := by
      cases prev with
      | none => rfl
      | some p =>
        have hlt := hprev p rfl a List.mem_cons_self
        rw [Option.any_some, OrientedOrd.eq_swap, hlt]
        rfl
    rw [ascending, hnot, if_neg (by simp)]
    refine ih (some (key a)) hpw.2 ?_
    rintro p hp b hb
    cases hp
    exact hpw.1 b hb

theorem ofList_toList {α β : Type} [Ord α] [TransOrd α] [LawfulEqOrd α] [BEq α] [LawfulBEq α]
    (m : ExtTreeMap α β) : ExtTreeMap.ofList m.toList = m := by
  ext k : 1
  cases hk : m[k]? with
  | some v =>
    exact ExtTreeMap.getElem?_ofList_of_mem ReflCmp.compare_self ExtTreeMap.distinct_keys_toList
      (Cover.mem_toList.mpr hk)
  | none =>
    refine ExtTreeMap.getElem?_ofList_of_contains_eq_false ?_
    rw [List.contains_eq_mem, decide_eq_false_iff_not]
    intro hmem
    obtain ⟨⟨k', v⟩, hkv, rfl⟩ := List.mem_map.mp hmem
    rw [Cover.mem_toList.mp hkv] at hk
    cases hk

/-- Jobs are stored under their own ids, so they are exported in the order of the map. -/
theorem exportState_jobs (h : JobsOk none e.jobs e.nextJobId) :
    e.exportState.jobs = TreeMap.values e.jobs ∧
      (TreeMap.values e.jobs).map (fun j => (j.id, j)) = e.jobs.toList ∧
      (TreeMap.values e.jobs).Pairwise fun a b => compare a.id b.id = .lt := by
  have hid : ∀ x ∈ e.jobs.toList, x.2.id = x.1 := fun x hx =>
    (h x.1 x.2 (Cover.mem_toList.mp hx)).id
  have hmap : (TreeMap.values e.jobs).map (fun j => (j.id, j)) = e.jobs.toList := by
    rw [TreeMap.values, List.map_map]
    conv_rhs => rw [← List.map_id e.jobs.toList]
    refine List.map_congr_left fun x hx => ?_
    exact Prod.ext (hid x hx) rfl
  have hpw : (TreeMap.values e.jobs).Pairwise fun a b => compare a.id b.id = .lt := by
    rw [TreeMap.values, List.pairwise_map]
    refine ExtTreeMap.ordered_keys_toList.imp_of_mem fun {x y} hx hy hlt => ?_
    rw [hid x hx, hid y hy]
    exact hlt
  refine ⟨?_, hmap, hpw⟩
  refine List.mergeSort_of_pairwise (hpw.imp fun {a b} hlt => ?_)
  rw [decide_eq_true_eq]
  exact Nat.le_of_lt (Nat.compare_eq_lt.mp hlt)

/-- What a snapshot does not carry. -/
def bare (e : Engine) (sys : Nanos → SysSnapshot) : Engine :=
  { e with sys := sys, localConns := none, journal := [], out := [] }

theorem ofState_exportState (h : JobsOk none e.jobs e.nextJobId) (sys : Nanos → SysSnapshot) :
    ofState e.exportState sys = e.bare sys := by
  obtain ⟨hjobs, hmap, -⟩ := exportState_jobs h
  unfold ofState bare
  rw [hjobs, hmap, ofList_toList]
  simp only [exportState, ofList_toList]

theorem Inv.bare (h : e.Inv) (sys : Nanos → SysSnapshot) : (e.bare sys).Inv :=
  ⟨{ h.core with }, h.refs, h.watching, h.allocated⟩

/-- An exported state is accepted and gives back the engine. -/
theorem import_export (h : e.validate = .ok ()) (sys : Nanos → SysSnapshot) :
    importState e.exportState sys = .ok (e.bare sys) := by
  obtain ⟨hinv, ho, hb⟩ := validate_ok_iff.mp h
  obtain ⟨hjobs, -, hpw⟩ := exportState_jobs hinv.core.jobs
  have hbare := ofState_exportState hinv.core.jobs sys
  refine importState_ok.mpr ⟨?_, ?_, ?_, hbare.symm, ?_⟩
  · rw [hjobs]
    exact ascending_ok _ _ hpw nofun
  · exact ascending_ok _ _ ExtTreeMap.ordered_keys_toList nofun
  · exact ascending_ok _ _ ExtTreeMap.ordered_keys_toList nofun
  · rw [hbare]
    exact validate_ok_iff.mpr ⟨hinv.bare sys, ho, hb.slots, hb.seq, hb.job⟩

end Engine

end Beanstalkd
