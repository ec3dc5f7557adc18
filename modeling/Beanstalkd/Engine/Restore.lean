import Beanstalkd.Engine.Inductive

/-!
# Snapshots of an engine that has run for long

`import_state` accepts what `export_state` wrote if `validate` accepts the
engine. The counters of what there is now are recomputed by `validate`, and
those that only accumulate are not looked at, with one exception: `tot_conns`, a
`u32` that wraps, must not be below `cur_conns`.

So, over runs of any length, a snapshot is restored exactly when the open
connections are not more than the connections made, modulo `2 ^ 32`
(`snapshot_restored`). The other counters of the model do not wrap; that this
agrees with the machine is `Fits`, which holds as long as fewer than `2 ^ 32`
connections are open.
-/

open Std

namespace Beanstalkd

namespace Engine

variable {e : Engine} {now : Nanos} {inputs : List (Nanos × EngineInput)}

/-! ## Runs -/

/-- The inputs one after the other, each at its time. -/
def applyAll (e : Engine) (inputs : List (Nanos × EngineInput)) : Engine :=
  inputs.foldl (fun e x => e.applyInput x.1 x.2) e

/-- The callers keep their contract all along. -/
def AdmissibleRun : Engine → List (Nanos × EngineInput) → Prop
  | _, [] => True
  | e, x :: xs => e.Admissible x.2 ∧ AdmissibleRun (e.applyInput x.1 x.2) xs

instance decidableRun : (e : Engine) → DecidablePred e.AdmissibleRun
  | _, [] => .isTrue trivial
  | e, x :: xs =>
    have := decidableRun (e.applyInput x.1 x.2) xs
    inferInstanceAs (Decidable (e.Admissible x.2 ∧ AdmissibleRun (e.applyInput x.1 x.2) xs))

def isConnect : EngineInput → Bool
  | .connect _ => true
  | _ => false

/-- How many connections were made. -/
def connects (inputs : List (Nanos × EngineInput)) : Nat := inputs.countP fun x => isConnect x.2

theorem applyAll_inv (h : e.Inv) (hadm : e.AdmissibleRun inputs) : (e.applyAll inputs).Inv := by
  induction inputs generalizing e with
  | nil => exact h
  | cons x xs ih => exact ih (applyInput_inv h hadm.1) hadm.2

/-- `tot_conns` is the number of connections made, up to the width of its type. -/
theorem applyAll_totConns (h : e.totConns < 2 ^ 32) (inputs : List (Nanos × EngineInput)) :
    (e.applyAll inputs).totConns = (e.totConns + connects inputs) % 2 ^ 32 := by
  induction inputs generalizing e with
  | nil => exact (Nat.mod_eq_of_lt h).symm
  | cons x xs ih =>
    rw [connects, List.countP_cons]
    rcases applyInput_clients e x.1 x.2 with ⟨⟨c, hc⟩, -, htot⟩ | ⟨hcon, -, htot⟩
    · have hlt : (e.applyInput x.1 x.2).totConns < 2 ^ 32 := by
        rw [htot, inc32]
        exact Nat.mod_lt _ (Nat.two_pow_pos 32)
      refine (ih hlt).trans ?_
      have hone : isConnect x.2 = true := by
        rw [hc]
        rfl
      rw [htot, inc32, if_pos hone, Nat.mod_add_mod, connects]
      congr 1
      omega
    · have hnot : isConnect x.2 = false := by
        cases hx : x.2 with
        | connect c => exact absurd hx (hcon c)
        | _ => rfl
      refine (ih (htot ▸ h)).trans ?_
      rw [htot, hnot, if_neg Bool.false_ne_true, connects, Nat.add_zero]

theorem applyAll_curConns (e : Engine) (inputs : List (Nanos × EngineInput)) :
    (e.applyAll inputs).curConns ≤ e.curConns + connects inputs := by
  induction inputs generalizing e with
  | nil => exact Nat.le_refl _
  | cons x xs ih =>
    refine Nat.le_trans (ih (e.applyInput x.1 x.2)) ?_
    rw [connects, connects, List.countP_cons]
    rcases applyInput_clients e x.1 x.2 with ⟨⟨c, hc⟩, hcur, -⟩ | ⟨-, hcur, -⟩
    · have hone : isConnect x.2 = true := by
        rw [hc]
        rfl
      rw [hcur, if_pos hone]
      omega
    · omega

/-! ## Widths -/

/-- The counters that the model does not wrap are within the widths of their types. -/
structure Fits (e : Engine) : Prop where
  census : e.curConns < 2 ^ 32 ∧ e.curProducers < 2 ^ 32 ∧ e.curWorkers < 2 ^ 32
  waiting : e.waitingCt < 2 ^ 64
  jobs : e.readyCt < 2 ^ 64 ∧ e.urgentCt < 2 ^ 64 ∧ e.reservedCt < 2 ^ 64 ∧ e.buriedCt < 2 ^ 64 ∧
    e.delayedCt < 2 ^ 64
  refs : ∀ (i : TubeId) (t : TubeState), Slab.get e.tubes i = some t →
    t.usingCt < 2 ^ 32 ∧ t.watchingCt < 2 ^ 32 ∧ t.jobRefCt < 2 ^ 64
  stats : ∀ (i : TubeId) (t : TubeState), Slab.get e.tubes i = some t →
    t.stat.urgentCt < 2 ^ 64 ∧ t.stat.buriedCt < 2 ^ 64 ∧ t.stat.reservedCt < 2 ^ 64 ∧
      t.stat.waitingCt < 2 ^ 64

/-- Job ids are distinct and below the next one. -/
theorem jobs_size_le (h : JobsOk none e.jobs e.nextJobId) : e.jobs.size ≤ e.nextJobId := by
  have hsub : e.jobs.keys ⊆ List.range e.nextJobId := fun i hi => by
    obtain ⟨j, hj⟩ := Option.isSome_iff_exists.mp
      (ExtTreeMap.mem_iff_isSome_getElem?.mp (ExtTreeMap.mem_keys.mp hi))
    exact List.mem_range.mpr (h i j hj).below
  have hle := (List.subperm_of_subset ExtTreeMap.nodup_keys hsub).length_le
  rwa [ExtTreeMap.length_keys, List.length_range] at hle

theorem Inv.fits (h : e.Inv) (hopen : e.conns.size < 2 ^ 32) (hb : e.Bounded) : e.Fits := by
  have hconns := h.core.conns
  have hopen64 : e.conns.size < 2 ^ 64 := Nat.lt_trans hopen (by decide)
  have hjobs : e.jobs.size < 2 ^ 64 :=
    Nat.lt_of_le_of_lt (Nat.le_trans (jobs_size_le h.core.jobs) hb.job) (by decide)
  have hplaces : (places none e.jobs).size < 2 ^ 64 :=
    Nat.lt_of_le_of_lt ExtTreeMap.size_filterMap_le_size hjobs
  -- every counter counts some of the jobs, or some of the connections
  have hjob : ∀ p : JobId → Place → Bool, TreeMap.count p (places none e.jobs) < 2 ^ 64 :=
    fun p => Nat.lt_of_le_of_lt TreeMap.count_le_size hplaces
  have hconn : ∀ {β : Type} (f : ConnState → β) (p : ConnId → β → Bool),
      TreeMap.count p (e.conns.map fun _ c => f c) < 2 ^ 32 := fun f p => by
    refine Nat.lt_of_le_of_lt TreeMap.count_le_size ?_
    rwa [ExtTreeMap.size_map]
  have hof : ∀ {a b n : Nat}, a = b → b < n → a < n := fun hab hb => hab ▸ hb
  have htally := h.core.placed.tally
  refine
    { census := ⟨?_, hof hconns.producers (hconn _ _), hof hconns.workers (hconn _ _)⟩
      waiting := hof hconns.waiting (Nat.lt_trans (hconn _ _) (by decide))
      jobs := ⟨hof (congrArg Tally.ready htally) (hjob _),
        hof (congrArg Tally.urgent htally) (hjob _),
        hof (congrArg Tally.reserved htally) (hjob _), hof (congrArg Tally.buried htally) (hjob _),
        hof (congrArg Tally.delayed htally) (hjob _)⟩
      refs := fun i t ht => ?_
      stats := fun i t ht => ?_ }
  · rw [hconns.cur, ExtTreeMap.size_map]
    exact hopen
  · have hrefs : t.refCts = refsOf e.uses e.watches e.homes i :=
      h.refs.counts (Slab.view_eq_some_iff.mpr ⟨t, ht, rfl⟩)
    have hhomes : e.homes.size < 2 ^ 64 := by
      rw [homes, ExtTreeMap.size_map]
      exact hjobs
    exact ⟨hof (congrArg RefCts.usingCt hrefs) (hconn _ _),
      hof (congrArg RefCts.watchingCt hrefs) (hconn _ _),
      hof (congrArg RefCts.jobRefCt hrefs) (Nat.lt_of_le_of_lt TreeMap.count_le_size hhomes)⟩
  · have hqueues := h.core.placed.tubes i t.queues (Slab.view_eq_some_iff.mpr ⟨t, ht, rfl⟩)
    obtain ⟨hnodup, hmem, hlen⟩ := h.core.queued i _ _ (Slab.view_eq_some_iff.mpr ⟨t, ht, rfl⟩)
    refine ⟨hof (congrArg TubeTally.urgent hqueues) (hjob _),
      hof (congrArg TubeTally.buried hqueues) (hjob _),
      hof (congrArg TubeTally.reserved hqueues) (hjob _), ?_⟩
    have hsub : t.waitingConns.items ⊆ e.conns.keys := fun c hc => by
      obtain ⟨⟨l, hl, -⟩, -⟩ := (hmem c).mp hc
      have hl : (e.conns.map fun _ c => ConnState.queue c)[c]? = some l := hl
      rw [ExtTreeMap.getElem?_map, Option.map_eq_some_iff] at hl
      obtain ⟨k, hk, -⟩ := hl
      exact ExtTreeMap.mem_keys.mpr (ExtTreeMap.mem_iff_isSome_getElem?.mpr (by rw [hk]; rfl))
    have hle := (List.subperm_of_subset hnodup hsub).length_le
    rw [ExtTreeMap.length_keys] at hle
    exact hof hlen (Nat.lt_of_le_of_lt hle hopen64)

/-! ## Restoring -/

/-- Within the bounds, `import_state` can only object to `tot_conns`. -/
theorem Inv.restored_iff (h : e.Inv) (hb : e.Bounded) (sys : Nanos → SysSnapshot) :
    (∃ e', importState e.exportState sys = .ok e') ↔ e.curConns ≤ e.totConns := by
  constructor
  · rintro ⟨e', he'⟩
    obtain ⟨-, -, -, -, hv⟩ := importState_ok.mp he'
    exact (validate_ok_iff.mp hv).2.1
  · intro hle
    exact ⟨_, import_export (validate_ok_iff.mpr ⟨h, hle, hb⟩) sys⟩

/-- Over every run, a snapshot is restored iff the open connections are not more than
the connections made, modulo the width of `tot_conns`; in particular while fewer
than `2 ^ 32` were made. -/
theorem snapshot_restored (start : Nanos) (cfg : EngineConfig) (sys sys' : Nanos → SysSnapshot)
    (inputs : List (Nanos × EngineInput)) (hadm : (Engine.new start cfg sys).AdmissibleRun inputs)
    (hopen : ((Engine.new start cfg sys).applyAll inputs).conns.size < 2 ^ 32)
    (hb : ((Engine.new start cfg sys).applyAll inputs).Bounded) :
    let e := (Engine.new start cfg sys).applyAll inputs
    e.Fits ∧
      ((∃ e', importState e.exportState sys' = .ok e') ↔ e.conns.size ≤ connects inputs % 2 ^ 32) ∧
      (connects inputs < 2 ^ 32 → importState e.exportState sys' = .ok (e.bare sys')) := by
  have hinv := applyAll_inv (new_inv start cfg sys) hadm
  have htot := applyAll_totConns (e := Engine.new start cfg sys) (Nat.two_pow_pos 32) inputs
  rw [show (Engine.new start cfg sys).totConns = 0 from rfl, Nat.zero_add] at htot
  have hcur : ((Engine.new start cfg sys).applyAll inputs).curConns =
      ((Engine.new start cfg sys).applyAll inputs).conns.size :=
    hinv.core.conns.cur.trans ExtTreeMap.size_map
  refine ⟨hinv.fits hopen hb, ?_, fun hfew => ?_⟩
  · rw [hinv.restored_iff hb, hcur, htot]
  refine import_export (validate_ok_iff.mpr ⟨hinv, ?_, hb⟩) sys'
  rw [htot, Nat.mod_eq_of_lt hfew]
  exact Nat.le_trans (applyAll_curConns _ inputs) (Nat.le_of_eq (Nat.zero_add _))

/-! ## A wrapped total -/

/-- Nobody is connected, and `n` connections were made. -/
def idle (n : Nat) : Engine := { Engine.new 0 ⟨65535, 0, false⟩ quietSys with totConns := n }

/-- Just `c` is connected. -/
def busy (n : Nat) (c : ConnId) : Engine :=
  { idle n with
    tubes := Slab.modify (idle n).tubes defaultTubeId fun t =>
      { t with usingCt := 1, watchingCt := 1 }
    conns := (∅ : ExtTreeMap ConnId ConnState).insert c (ConnState.new defaultTubeId)
    curConns := 1 }

theorem idle_connect (n : Nat) (c : ConnId) :
    (idle n).applyInput 0 (.connect c) = busy (inc32 n) c := rfl

theorem busy_disconnect (n : Nat) (c : ConnId) : (busy n c).disconnect 0 c = idle n := by
  have hget : (busy n c).conns[c]? = some (ConnState.new defaultTubeId) :=
    ExtTreeMap.getElem?_insert_self
  have hcontains : (busy n c).conns.contains c = true := ExtTreeMap.contains_insert_self
  have hwait : (busy n c).doRemoveWaitingConn c = busy n c := by
    unfold doRemoveWaitingConn
    rw [hget]
    rfl
  -- the table of connections while `c` leaves its tubes, and after it is forgotten
  have hclosing : ((busy n c).conns.modify c fun k => { k with watch := Ms.new })[c]? =
      some { ConnState.new defaultTubeId with watch := Ms.new } :=
    TreeMap.getElem?_modify_of hget
  have hgone : ((busy n c).conns.modify c fun k => { k with watch := Ms.new }).erase c = ∅ := by
    ext d : 1
    rw [ExtTreeMap.getElem?_erase, ExtTreeMap.getElem?_empty]
    split
    · rfl
    next hne =>
      refine (TreeMap.getElem?_modify_ne ?_).trans (ExtTreeMap.getElem?_insert.trans (if_neg hne))
      rintro rfl
      exact hne ReflCmp.compare_self
  unfold disconnect
  rw [if_pos hcontains, hwait]
  dsimp only
  rw [hget]
  dsimp only
  rw [show TreeMap.values (ConnState.new defaultTubeId).reserved = [] from rfl, List.foldl_nil,
    hget]
  dsimp only
  rw [show (ConnState.new defaultTubeId).watch.clearInDeleteOrder = [defaultTubeId] from rfl,
    List.foldl_cons, List.foldl_nil, modConn]
  generalize (busy n c).conns.modify c (fun k => { k with watch := Ms.new }) = m at hclosing hgone ⊢
  have hwatch : (dropWatch { busy n c with conns := m } defaultTubeId).conns[c]? = _ := hclosing
  rw [hwatch]
  dsimp only
  have huse : ((dropWatch { busy n c with conns := m } defaultTubeId).dropUse
      defaultTubeId).conns = m := rfl
  unfold removeConn
  rw [show (ConnState.new defaultTubeId).useTube = defaultTubeId from rfl, huse, hclosing]
  rw [hgone]
  rfl

/-- Connections `0`, …, `k - 1` come and go. -/
def rounds (k : Nat) : List (Nanos × EngineInput) :=
  (List.range k).flatMap fun c => [(0, .connect c), (0, .disconnect c)]

theorem applyAll_append (e : Engine) (xs ys : List (Nanos × EngineInput)) :
    e.applyAll (xs ++ ys) = (e.applyAll xs).applyAll ys := List.foldl_append

theorem AdmissibleRun.append {xs ys : List (Nanos × EngineInput)} (h : e.AdmissibleRun xs)
    (h' : (e.applyAll xs).AdmissibleRun ys) : e.AdmissibleRun (xs ++ ys) := by
  induction xs generalizing e with
  | nil => exact h'
  | cons x xs ih => exact ⟨h.1, ih h.2 h'⟩

/-- A connection that comes and goes leaves nothing but the total. -/
theorem idle_round (n : Nat) (c : ConnId) :
    (idle n).applyAll [(0, .connect c), (0, .disconnect c)] = idle (inc32 n) := by
  show ((busy (inc32 n) c).disconnect 0 c).tick 0 = idle (inc32 n)
  rw [busy_disconnect]
  rfl

theorem rounds_succ (k : Nat) :
    rounds (k + 1) = rounds k ++ [(0, .connect k), (0, .disconnect k)] := by
  rw [rounds, List.range_succ, List.flatMap_append, List.flatMap_singleton]
  rfl

theorem connects_rounds (k : Nat) : connects (rounds k) = k := by
  induction k with
  | zero => rfl
  | succ k ih =>
    rw [connects, rounds_succ, List.countP_append, ← connects, ih]
    rfl

theorem rounds_idle (k : Nat) :
    (idle 0).AdmissibleRun (rounds k) ∧ (idle 0).applyAll (rounds k) = idle (k % 2 ^ 32) := by
  induction k with
  | zero => exact ⟨trivial, rfl⟩
  | succ k ih =>
    rw [rounds_succ, applyAll_append, ih.2, idle_round, inc32, Nat.mod_add_mod]
    refine ⟨ih.1.append ?_, rfl⟩
    rw [ih.2]
    exact ⟨ExtTreeMap.getElem?_empty, trivial, trivial⟩

/-- Two tubes, a reserved and a delayed job, and a connection that waits. -/
theorem twoTubes_restored :
    let e := (Engine.new 0 ⟨65535, 0, true⟩ quietSys).applyAll twoTubes
    importState e.exportState quietSys = .ok (e.bare quietSys) :=
  (snapshot_restored 0 ⟨65535, 0, true⟩ quietSys quietSys twoTubes (by decide +kernel)
    (by decide +kernel) ⟨by decide +kernel, by decide +kernel, by decide +kernel⟩).2.2 (by decide)

/-- One more connection stays open. -/
theorem rounds_busy (k : Nat) :
    (idle 0).AdmissibleRun (rounds k ++ [(0, .connect k)]) ∧
      (idle 0).applyAll (rounds k ++ [(0, .connect k)]) = busy ((k + 1) % 2 ^ 32) k := by
  obtain ⟨hadm, hidle⟩ := rounds_idle k
  constructor
  · refine hadm.append ?_
    rw [hidle]
    exact ⟨ExtTreeMap.getElem?_empty, trivial⟩
  · rw [applyAll_append, hidle, ← Nat.mod_add_mod]
    exact idle_connect (k % 2 ^ 32) k

theorem busy_bounded (n : Nat) (c : ConnId) : (busy n c).Bounded := by
  refine ⟨?_, ?_, ?_⟩
  · show 1 ≤ maxTubeSlots
    decide
  · show 0 ≤ maxListSeq
    decide
  · show 1 ≤ maxNextJobId
    decide

theorem busy_size (n : Nat) (c : ConnId) : (busy n c).conns.size = 1 :=
  ExtTreeMap.size_insert.trans (if_neg ExtTreeMap.not_mem_empty)

theorem busy_rejected (c : ConnId) (h : (busy 0 c).Inv) (e' : Engine) :
    importState (busy 0 c).exportState quietSys ≠ .ok e' := by
  intro he'
  have hle : (busy 0 c).curConns ≤ (busy 0 c).totConns :=
    (h.restored_iff (busy_bounded 0 c) quietSys).mp ⟨e', he'⟩
  exact absurd hle (Nat.not_succ_le_zero 0)

/-- `2 ^ 32` connections were made and the last one is open. -/
theorem wrapped_total_rejected :
    ∃ inputs, (Engine.new 0 ⟨65535, 0, false⟩ quietSys).AdmissibleRun inputs ∧
      connects inputs = 2 ^ 32 ∧
      ((Engine.new 0 ⟨65535, 0, false⟩ quietSys).applyAll inputs).conns.size = 1 ∧
      ((Engine.new 0 ⟨65535, 0, false⟩ quietSys).applyAll inputs).Bounded ∧
      ∀ e', importState ((Engine.new 0 ⟨65535, 0, false⟩ quietSys).applyAll inputs).exportState
        quietSys ≠ .ok e' := by
  obtain ⟨k, hk⟩ : ∃ k, k + 1 = 2 ^ 32 := ⟨2 ^ 32 - 1, rfl⟩
  obtain ⟨hadm, hbusy⟩ := rounds_busy k
  rw [hk, Nat.mod_self] at hbusy
  have hinv := applyAll_inv (new_inv 0 ⟨65535, 0, false⟩ quietSys) hadm
  rw [show (Engine.new 0 ⟨65535, 0, false⟩ quietSys).applyAll (rounds k ++ [(0, .connect k)]) =
    busy 0 k from hbusy] at hinv
  refine ⟨rounds k ++ [(0, EngineInput.connect k)], hadm, ?_, ?_⟩
  · rw [connects, List.countP_append, ← connects, connects_rounds]
    exact hk
  rw [show (Engine.new 0 ⟨65535, 0, false⟩ quietSys).applyAll (rounds k ++ [(0, .connect k)]) =
    busy 0 k from hbusy]
  exact ⟨busy_size 0 k, busy_bounded 0 k, busy_rejected k hinv⟩

end Engine

end Beanstalkd
