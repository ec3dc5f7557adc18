import Beanstalkd.Engine.Replies
import Beanstalkd.Engine.Restore

/-!
# Reserve hands out the most urgent job

The RESERVED replies of a call are those of its dispatches (`Replies.lean`); `reserve-job`,
which names its job, is the one command left out. Along a run of calls the invariant holds,
so at each of the instants the job handed out is the first in (priority, id) order of what
the connection can get.
-/

open Std

namespace Beanstalkd

namespace Engine

variable {e e' : Engine} {c : ConnId} {k : ConnState} {id : JobId} {now : Nanos}
  {input : EngineInput} {l : List (Nanos × EngineInput)} {timeout : Option Nat}

/-! ## Runs -/

/-- The calls one after the other, each at its time. -/
def calls (e : Engine) (l : List (Nanos × EngineInput)) : Engine :=
  l.foldl (fun e x => e.call x.1 x.2) e

/-- The callers keep their contract all along. -/
def ValidCalls : Engine → List (Nanos × EngineInput) → Prop
  | _, [] => True
  | e, x :: l => e.Admissible x.2 ∧ ValidCalls (e.call x.1 x.2) l

theorem call_inv (h : Inv e) (hadm : e.Admissible input) : Inv (e.call now input) := by
  have hstep : Inv (e.step now input) := step_inv h hadm
  cases input with
  | tick => exact tick_inv h
  | _ => exact hstep

theorem calls_inv (h : Inv e) (hl : e.ValidCalls l) : Inv (e.calls l) := by
  induction l generalizing e with
  | nil => exact h
  | cons x l ih => exact ih (call_inv h hl.1) hl.2

/-- The RESERVED replies from `e` to `e'` are those of the rounds entered in `states`,
and each round hands out the most urgent job its connection can get. -/
structure HandsOut (states : List Engine) (e e' : Engine) : Prop where
  replies : servedIn e'.out = servedIn e.out ++ states.flatMap told
  urgent : ∀ s ∈ states, ∃ c i, s.handed = some (c, i) ∧ MostUrgent s c i

theorem call_handsOut (h : Inv e) (hadm : e.Admissible input)
    (hcmd : ∀ c i, input ≠ .command c (.reserveJob i)) :
    HandsOut (e.instants now input) e (e.call now input) where
  replies := by
    rw [(call_piece now h hadm).served hcmd, (begun_frame e input).2.1, instants,
      List.flatMap_assoc]
  urgent s hs := by
    obtain ⟨d, hd, hs⟩ := List.mem_flatMap.mp hs
    exact turns_urgent ((call_piece now h hadm).core d hd) hs

/-- `reserve`, or `reserve-with-timeout`. -/
def reserveCommand : Option Nat → Command
  | none => .reserve
  | some t => .reserveWithTimeout t

theorem handle_reserve (hk : e.conns[c]? = some k) :
    e.handle now c (reserveCommand timeout) = e.cmdReserve now c timeout := by
  have hin : e.conns.contains c = true := TreeMap.contains_of hk
  cases timeout with
  | none | some => simp only [handle, reserveCommand, hin, if_true]

/-- In every state a run reaches, every call other than reserve-job hands out the most
urgent jobs, and a reserve is answered with one if there is any. -/
theorem reserve_most_urgent (h : e.validate = .ok ()) (hl : e.ValidCalls l) :
    (∀ now input, (e.calls l).Admissible input → (∀ c i, input ≠ .command c (.reserveJob i)) →
      HandsOut ((e.calls l).instants now input) (e.calls l) ((e.calls l).call now input)) ∧
    ∀ now c timeout, (e.calls l).conns.contains c = true → (e.calls l).isWaiting c = false →
      (∀ t ts, (e.calls l).tube t = some ts → 0 < ts.pause → now < ts.unpauseAt) →
      Reserves now c timeout (e.calls l) ((e.calls l).handle now c (reserveCommand timeout)) := by
  have hinv : Inv (e.calls l) := calls_inv (validate_ok_iff.mp h).1 hl
  refine ⟨fun now input hadm hcmd => call_handsOut hinv hadm hcmd,
    fun now c timeout hin hw hp => ?_⟩
  obtain ⟨k, hk⟩ : ∃ k, (e.calls l).conns[c]? = some k := TreeMap.contains_iff.mp hin
  rw [handle_reserve hk]
  exact cmdReserve_spec hinv.core hk hw hp

/-- Connection 2 waits on reserve; connection 1 may put. -/
def oneWaiterCalls : List (Nanos × EngineInput) :=
  [(0, .connect 1), (0, .connect 2), (0, .command 2 .reserve)]

/-- The job put goes to the waiter, from the one instant of the call; a reserve of the other
connection would find nothing and wait. -/
theorem oneWaiter_urgent :
    let e := (Engine.new 0 ⟨65535, 0, true⟩ quietSys).calls oneWaiterCalls
    (HandsOut (e.instants 0 (.command 1 (.put 7 0 60 []))) e
        (e.call 0 (.command 1 (.put 7 0 60 []))) ∧
      (e.instants 0 (.command 1 (.put 7 0 60 []))).map handed = [some (2, 1)]) ∧
    Reserves 0 1 none e (e.handle 0 1 (reserveCommand none)) := by
  have hvalid : ValidCalls (Engine.new 0 ⟨65535, 0, true⟩ quietSys) oneWaiterCalls :=
    ⟨by decide +kernel, by decide +kernel, by decide +kernel, trivial⟩
  have h := reserve_most_urgent
    (by decide +kernel) hvalid
  refine ⟨⟨h.1 _ _ (by decide +kernel) nofun, by decide +kernel⟩,
    h.2 0 1 none (by decide +kernel) (by decide +kernel) fun t ts ht hp => ?_⟩
  have hmem : some ts ∈ ((Engine.new 0 ⟨65535, 0, true⟩ quietSys).calls oneWaiterCalls).tubes :=
    List.mem_of_getElem? (Option.join_eq_some_iff.mp ht)
  have hnone : ((Engine.new 0 ⟨65535, 0, true⟩ quietSys).calls oneWaiterCalls).tubes.all
      (fun o => o.all fun ts => ts.pause == 0) = true := by decide +kernel
  have hzero := List.all_eq_true.mp hnone _ hmem
  rw [Option.all_some, beq_iff_eq] at hzero
  exact absurd hp (by rw [hzero]; exact Nat.lt_irrefl 0)

end Engine

end Beanstalkd
