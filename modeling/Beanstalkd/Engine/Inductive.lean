import Beanstalkd.Engine.Clients
import Beanstalkd.Engine.Preservation
import Beanstalkd.Engine.Recover
import Beanstalkd.Engine.State

/-!
# `validate` is an inductive invariant

The two halves meet: what `validate` accepts is the invariant within bounds
(`ValidateInv.lean`), and every admissible input preserves the invariant
(`Preservation.lean`). The engines the invariant starts from are the three the
source builds: a new one, one recovered from a journal, and one imported from a
snapshot.

Nothing is assumed of the engine but that `validate` accepts it; it need not be
one that a run can reach.
-/

open Std

namespace Beanstalkd

namespace Engine

variable {e : Engine} {cfg : EngineConfig} {sys : Nanos → SysSnapshot} {recovery : Recovery}

theorem new_validate (now : Nanos) (cfg : EngineConfig) (sys : Nanos → SysSnapshot) :
    (Engine.new now cfg sys).validate = .ok () := rfl

theorem new_inv (now : Nanos) (cfg : EngineConfig) (sys : Nanos → SysSnapshot) :
    (Engine.new now cfg sys).Inv := (validate_ok_iff.mp (new_validate now cfg sys)).1

theorem recover_inv {now : Nanos} (hnd : (recovery.jobs.map fun r => r.record.id).Nodup) :
    (recover now cfg sys recovery).Inv := by
  obtain ⟨n, h, -, hn⟩ := recover_rebuilt (new_inv now cfg sys) hnd
  exact h.inv hn

/-- Nobody is connected to a recovered engine. -/
theorem recover_opened {now : Nanos} (hnd : (recovery.jobs.map fun r => r.record.id).Nodup) :
    (recover now cfg sys recovery).curConns ≤ (recover now cfg sys recovery).totConns := by
  obtain ⟨n, h, -, -⟩ := recover_rebuilt (new_inv now cfg sys) hnd
  rw [h.core.conns.cur, ExtTreeMap.size_map, h.conns, ExtTreeMap.size_empty]
  exact Nat.zero_le _

/-- What acceptance means in particular: every job is in the one container its
state names, every counter of what there is now is the number of such things,
and the four ordered indexes are what they would be if recomputed. -/
structure Settled (e : Engine) : Prop where
  filing : e.Filing
  ready : e.readyCt = e.recountState .ready
  urgent : e.urgentCt =
    TreeMap.count (fun _ j => j.state == .ready && decide (j.pri < urgentThreshold)) e.jobs
  reserved : e.reservedCt = e.recountState .reserved
  delayed : e.delayedCt = e.recountState .delayed
  buried : e.buriedCt = e.recountState .buried
  connections : e.curConns = e.conns.size
  producers : e.curProducers = TreeMap.count (fun _ c => ConnState.isProducer c) e.conns
  workers : e.curWorkers = TreeMap.count (fun _ c => ConnState.isWorker c) e.conns
  waiting : e.waitingCt = TreeMap.count (fun _ c => ConnState.waiting c) e.conns
  connTicks : e.connTicks = e.recountConnTicks
  delayHeads : e.delayHeads = e.recountDelayHeads
  pauses : e.pauses = e.recountPauses
  dispatchable : e.dispatchable = e.recountDispatchable

theorem Checked.settled (h : e.Checked) : e.Settled where
  filing := h.filing
  ready := h.readyCt
  urgent := h.urgentCt.trans (h.filing.urgent_sum h.homed)
  reserved := h.reservedCt
  delayed := h.delayedCt
  buried := h.buriedCt
  connections := h.census.cur.trans ExtTreeMap.size_map
  producers := h.census.producers.trans (count_map e.conns ConnState.roles Prod.fst)
  workers := h.census.workers.trans (count_map e.conns ConnState.roles Prod.snd)
  waiting := h.census.waiting.trans (count_map e.conns ConnState.wait Prod.fst)
  connTicks := ExtTreeSet.toList_inj.mp
    ((connTicks_iff fun c k hk => (h.conns c k hk).tick).mpr h.ticks)
  delayHeads := h.heads
  pauses := h.pauses
  dispatchable := h.dispatchable

/-- A new engine is valid, and so is a recovered one and whatever is imported;
an admissible input keeps a valid engine valid, as long as the bounds `validate`
checks are not passed and the count of connections made is not at its maximum. -/
theorem validate_inductive :
    (∀ now cfg sys, (Engine.new now cfg sys).validate = .ok ()) ∧
    (∀ now cfg sys recovery, (recovery.jobs.map fun r => r.record.id).Nodup →
      (recover now cfg sys recovery).Bounded →
      (recover now cfg sys recovery).validate = .ok ()) ∧
    (∀ s sys e, importState s sys = .ok e → e.validate = .ok ()) ∧
    ∀ (e : Engine) now input, e.validate = .ok () → e.Admissible input →
      e.totConns + 1 < 2 ^ 32 → (e.applyInput now input).Bounded →
      (e.applyInput now input).validate = .ok () ∧ (e.applyInput now input).Settled := by
  refine ⟨new_validate, fun _ _ _ _ hnd hb =>
      validate_ok_iff.mpr ⟨recover_inv hnd, recover_opened hnd, hb⟩,
    fun _ _ _ => importState_valid, fun e now input hv hadm hmax hb => ?_⟩
  obtain ⟨hinv, hopened, -⟩ := validate_ok_iff.mp hv
  have hv' := validate_ok_iff.mpr ⟨applyInput_inv hinv hadm, applyInput_opened hopened hmax, hb⟩
  exact ⟨hv', (validate_checked.mp hv').settled⟩

def quietSys : Nanos → SysSnapshot := fun _ => ⟨0, [], (0, 0), (0, 0), [], [], [], []⟩

/-- Connection 1 holds a job of the default tube and has a delayed one in another tube;
connection 2 waits on both tubes. -/
def twoTubes : List (Nanos × EngineInput) :=
  [(0, .connect 1), (0, .command 1 (.put 7 0 60 [])), (0, .command 1 .reserve),
    (0, .command 1 (.use ⟨[97], by decide⟩)), (0, .command 1 (.put 3 5 60 [13])),
    (0, .connect 2), (0, .command 2 (.watch ⟨[97], by decide⟩)), (1, .command 2 .reserve)]

/-- Connection 1 goes, and its job is handed to connection 2. -/
theorem validate_inductive_disconnect :
    let e := twoTubes.foldl (fun e x => e.applyInput x.1 x.2)
      (Engine.new 0 ⟨65535, 0, true⟩ quietSys)
    ((e.applyInput 1 (.disconnect 1)).validate = .ok () ∧
      (e.applyInput 1 (.disconnect 1)).Settled) ∧
    (e.applyInput 1 (.disconnect 1)).out = e.out ++ [(2, .reserved 1 [])] :=
  ⟨validate_inductive.2.2.2 _ 1 (.disconnect 1) (by decide +kernel) (by decide +kernel)
    (by decide +kernel) ⟨by decide +kernel, by decide +kernel, by decide +kernel⟩,
    by decide +kernel⟩

end Engine

end Beanstalkd
