import Beanstalkd.Engine.Sessions

/-!
# Every input preserves the invariant

The step lemma of the engine: from a state that satisfies the invariant, an
input the callers' contract admits leads to one that does.
-/

open Std

namespace Beanstalkd

namespace Engine

variable {e e' : Engine} {c : ConnId} {k : ConnState} {now : Nanos} {input : EngineInput}

/-- A command that counts itself and answers. -/
theorem answer_inv {f : OpCounts → OpCounts} {r : Response} (h : Inv e) :
    Inv ((e.countOp f).reply c r) :=
  reply_inv (h.of_same (countOp_core h.core) (countOp_same e f))

theorem handle_inv {cmd : Command} (h : Inv e)
    (hwait : ∀ k, e.conns[c]? = some k → k.waiting = false) : Inv (e.handle now c cmd) := by
  unfold handle
  split
  · next hin =>
    obtain ⟨k, hc⟩ : ∃ k, e.conns[c]? = some k := TreeMap.contains_iff.mp hin
    have hk := hwait k hc
    cases cmd with
    | put pri delay ttr body => exact cmdPut_inv h hc
    | use tube => exact cmdUse_inv h hc
    | reserve | reserveWithTimeout =>
      exact h.of_same (cmdReserve_core h.core hc hk) (cmdReserve_same ..)
    | reserveJob id => exact h.of_same (cmdReserveJob_core h.core hc) (cmdReserveJob_same ..)
    | delete id => exact cmdDelete_inv h
    | release id pri delay => exact h.of_same (cmdRelease_core h.core) (cmdRelease_same ..)
    | bury id pri => exact h.of_same (cmdBury_core h.core) (cmdBury_same ..)
    | touch id => exact h.of_same (cmdTouch_core h.core) (cmdTouch_same ..)
    | watch tube => exact cmdWatch_inv h hc hk
    | ignore tube => exact cmdIgnore_inv h hc hk
    | kick n => exact h.of_same (cmdKick_core h.core) (cmdKick_same ..)
    | kickJob id => exact h.of_same (cmdKickJob_core h.core) (cmdKickJob_same ..)
    | pauseTube tube delay => exact h.of_same (cmdPauseTube_core h.core) (cmdPauseTube_same ..)
    | quit => exact h
    | _ => exact answer_inv h
  · exact h

theorem halfClose_inv (h : Inv e) : Inv (e.halfClose c) := by
  unfold halfClose
  split
  · exact reply_inv (h.of_same (doRemoveWaitingConn_core h.core nofun)
      (doRemoveWaitingConn_same ..))
  · exact h

theorem setDraining_inv {on : Bool} (h : Inv e) : Inv (e.setDraining on) :=
  h.of_frame { h.core with } rfl rfl rfl rfl (Nat.le_refl _)

theorem tick_inv (h : Inv e) : Inv (e.tick now) :=
  h.of_same (tick_core h.core) (tick_same e now)

theorem step_inv (h : Inv e) (hadm : e.Admissible input) : Inv (e.step now input) := by
  cases input with
  | connect c => exact connect_inv h hadm
  | disconnect c => exact disconnect_inv h
  | halfClose c => exact halfClose_inv h
  | putStarted c tooBig => exact putStarted_inv h
  | putRejected c why => exact putRejected_inv h
  | command c cmd => exact handle_inv h fun k hk => (hadm.2 k hk).1
  | tick => exact h
  | setDraining on => exact setDraining_inv h

theorem applyInput_inv (h : Inv e) (hadm : e.Admissible input) : Inv (e.applyInput now input) :=
  tick_inv (step_inv h hadm)

end Engine

end Beanstalkd
