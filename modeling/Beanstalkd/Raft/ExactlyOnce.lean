import Beanstalkd.Raft.Numbering

/-!
# Sessions in the replicated state

What the engine of a replica is fed with, for one connection, over any log: the
inputs of a `Session`. It begins with `Connect` as number 1 and goes on with 2,
3, ... without repetition or gap until its `Disconnect` or a `DropNode`, after
which nothing of that connection reaches the engine again: the owner's highest
number keeps a late `Connect` out, where the numbers of the connection itself
are forgotten.
-/

open Std

namespace Beanstalkd.Raft

variable {N N' : Numbering} {c d : ConnId} {n : Nat} {call : Call} {calls : List Call}

/-- The inputs of a connection as they reach the engine, and its next number
while it is open. -/
inductive Session (c : ConnId) : List Call → Option Nat → Prop where
  | opened (now : Nanos) : Session c [⟨now, some 1, .connect c⟩] (some 2)
  | next {calls : List Call} {n : Nat} {i : EngineInput} (now : Nanos) :
    Session c calls (some n) → i.conn = some c → i ≠ .connect c → i ≠ .disconnect c →
    Session c (calls ++ [⟨now, some n, i⟩]) (some (n + 1))
  | closed {calls : List Call} {n : Nat} (now : Nanos) :
    Session c calls (some n) → Session c (calls ++ [⟨now, some n, .disconnect c⟩]) none
  | dropped {calls : List Call} {n : Nat} (now : Nanos) :
    Session c calls (some n) → Session c (calls ++ [⟨now, none, .disconnect c⟩]) none

/-- What reached the engine for `c`. -/
def callsOf (c : ConnId) (calls : List Call) : List Call :=
  calls.filter fun call => call.input.conn = some c

theorem callsOf_self (h : call.input.conn = some c) :
    callsOf c (calls ++ [call]) = callsOf c calls ++ [call] := by
  simp [callsOf, h]

theorem callsOf_other (h : call.input.conn ≠ some c) :
    callsOf c (calls ++ [call]) = callsOf c calls := by
  simp [callsOf, h]

/-- `a` and `b` are not two `Connect`s of one owner, unless the number grows. -/
def Above (a b : Call) : Prop :=
  ∀ c d, a.input = .connect c → b.input = .connect d → ownerOf c = ownerOf d → localOf c < localOf d

structure Sessions (calls : List Call) (N : Numbering) : Prop where
  live : ∀ c n, N.nextSeq[c]? = some n → Session c (callsOf c calls) (some n)
  ended : ∀ c, N.nextSeq[c]? = none →
    callsOf c calls = [] ∨ Session c (callsOf c calls) none ∧ Seen N c
  seen : ∀ call ∈ calls, ∀ c, call.input = .connect c → Seen N c
  above : calls.Pairwise Above

/-- The sessions of the other connections stand; the input's own goes on. -/
theorem Sessions.extend (h : Sessions calls N) (hw : Wf N) (hb : Books N call N')
    (hs : ∀ c, call.input.conn = some c →
      Session c (callsOf c calls ++ [call]) N'.nextSeq[c]?) : Sessions (calls ++ [call]) N' where
  live := fun d n hn => by
    by_cases hd : call.input.conn = some d
    · rw [callsOf_self hd, ← hn]
      exact hs d hd
    · rw [callsOf_other hd]
      exact h.live d n (hb.others hd ▸ hn)
  ended := fun d hn => by
    by_cases hd : call.input.conn = some d
    · rw [callsOf_self hd, ← hn]
      exact .inr ⟨hs d hd, hb.took_seen hd hw⟩
    · rw [callsOf_other hd]
      exact (h.ended d (hb.others hd ▸ hn)).imp_right fun ⟨hsess, hd⟩ => ⟨hsess, hb.seen hd⟩
  seen := List.forall_mem_append.2 ⟨fun x hx d hd => hb.seen (h.seen x hx d hd),
    List.forall_mem_singleton.2 fun d hd => hb.took_seen (congrArg EngineInput.conn hd) hw⟩
  above := by
    refine List.pairwise_append.mpr ⟨h.above, List.pairwise_singleton .., fun a ha => ?_⟩
    refine List.forall_mem_singleton.2 fun d d' hd hd' howner => ?_
    obtain ⟨k, hk, hle⟩ := h.seen a ha d hd
    exact hle.trans_lt (hb.connects hd' k (howner ▸ hk))

/-- One more input reaches the engine. -/
theorem Sessions.step (h : Sessions calls N) (hw : Wf N) (hb : Books N call N') :
    Sessions (calls ++ [call]) N' := by
  refine h.extend hw hb fun d hd => ?_
  cases hb with
  | connect hnone hhigh =>
    cases hd
    rw [ExtTreeMap.getElem?_insert_self]
    obtain hnil | ⟨-, k, hk, hle⟩ := h.ended _ hnone
    · rw [hnil]
      exact .opened _
    · -- it was connected before, and its owner went past it
      exact absurd (hhigh k hk) hle.not_gt
  | @next c s i now hi hcon hdis hs =>
    obtain rfl : c = d := Option.some.inj (hi.symm.trans hd)
    rw [ExtTreeMap.getElem?_insert_self]
    exact .next now (h.live c s hs) hi hcon hdis
  | close hs =>
    cases hd
    rw [ExtTreeMap.getElem?_erase_self]
    exact .closed _ (h.live _ _ hs)
  | drop hs =>
    cases hd
    rw [ExtTreeMap.getElem?_erase_self]
    exact .dropped _ (h.live _ _ hs)
  | idle hi => cases hd.symm.trans hi

theorem Sessions.run {more : List Call} (hs : Sessions calls N) (hw : Wf N)
    (h : Run Books N more N') : Sessions (calls ++ more) N' := by
  induction h generalizing calls with
  | nil => simpa using hs
  | cons hstep _ ih =>
    have := ih (hs.step hw hstep) (hstep.wf hw)
    rwa [List.append_assoc] at this

/-- The numbers of a session are 1, 2, 3, ... -/
theorem Session.numbers {next : Option Nat} (h : Session c calls next) :
    ∃ k, calls.filterMap Call.seq = List.range' 1 k ∧ ∀ n, next = some n → n = k + 1 := by
  induction h with
  | opened now => exact ⟨1, rfl, fun n hn => (Option.some.inj hn).symm⟩
  | @next calls m i now _ _ _ _ ih =>
    obtain ⟨k, hk, hm⟩ := ih
    obtain rfl := hm m rfl
    refine ⟨k + 1, ?_, fun n hn => (Option.some.inj hn).symm⟩
    rw [List.filterMap_append, hk, List.range'_concat, Nat.one_mul, Nat.add_comm]
    rfl
  | @closed calls m now _ ih =>
    obtain ⟨k, hk, hm⟩ := ih
    obtain rfl := hm m rfl
    refine ⟨k + 1, ?_, nofun⟩
    rw [List.filterMap_append, hk, List.range'_concat, Nat.one_mul, Nat.add_comm]
    rfl
  | dropped now _ ih =>
    obtain ⟨k, hk, -⟩ := ih
    refine ⟨k, ?_, nofun⟩
    rw [List.filterMap_append, hk]
    exact List.append_nil _

/-! ## Time -/

variable {sh : Shared}

/-- An entry calls the engine at one time, the state's from then on. -/
theorem applyEntry_time {c : Core} (h : c.Ok) (ent : LogEntry) :
    c.smMeta.lastNow ≤ (c.applyEntry sh ent).core.smMeta.lastNow ∧
      ∀ call ∈ (c.applyEntry sh ent).calls,
        call.now = (c.applyEntry sh ent).core.smMeta.lastNow := by
  unfold Core.applyEntry
  split
  · exact ⟨le_rfl, fun _ h => nomatch h⟩
  cases ent.payload with
  | blank | membership => exact ⟨le_rfl, fun _ h => nomatch h⟩
  | normal req =>
    have hfed := applyRequest_fed sh h req
    refine ⟨?_, fun call hcall => (hfed.calls call hcall).trans hfed.lastNow.symm⟩
    exact (le_max_right ..).trans hfed.lastNow.ge

theorem applyLog_time (ents : List LogEntry) {c : Core} (h : c.Ok) :
    c.smMeta.lastNow ≤ (c.applyLog sh ents).core.smMeta.lastNow ∧
      (∀ call ∈ (c.applyLog sh ents).calls, c.smMeta.lastNow ≤ call.now) ∧
      (c.applyLog sh ents).calls.Pairwise (·.now ≤ ·.now) := by
  induction ents generalizing c with
  | nil => exact ⟨le_rfl, fun _ h => (nomatch h), List.Pairwise.nil⟩
  | cons ent ents ih =>
    obtain ⟨hle, hnow⟩ := applyEntry_time h ent
    obtain ⟨hle', hfrom, hpair⟩ := ih (applyEntry_booked sh h ent).ok
    refine ⟨hle.trans hle', List.forall_mem_append.2 ⟨fun call hcall => (hnow call hcall) ▸ hle,
      fun call hcall => hle.trans (hfrom call hcall)⟩, List.pairwise_append.mpr ⟨?_, hpair, ?_⟩⟩
    · exact List.pairwise_of_forall_mem_list fun a ha b hb =>
        ((hnow a ha).trans (hnow b hb).symm).le
    · exact fun a ha b hb => (hnow a ha).symm ▸ hfrom b hb

theorem applyLog_append (pre post : List LogEntry) (c : Core) :
    c.applyLog sh (pre ++ post) = (c.applyLog sh pre).andThen
      ((c.applyLog sh pre).core.applyLog sh post) := by
  induction pre generalizing c with
  | nil => rfl
  | cons ent pre ih =>
    rw [List.cons_append, Core.applyLog, ih]
    simp [Core.applyLog, Outcome.andThen]

/-! ## Exactly once, in order -/

theorem Books.highestLocal_le (h : Books N call N') (node : NodeId) :
    N.highestLocal[node]?.getD 0 ≤ N'.highestLocal[node]?.getD 0 := by
  cases h with
  | @connect c now hnone hhigh =>
    rw [ExtTreeMap.getElem?_insert]
    split
    · next heq =>
      obtain rfl : ownerOf c = node := by simpa using heq
      cases hk : N.highestLocal[ownerOf c]? with
      | none => exact Nat.zero_le _
      | some k => exact (hhigh k hk).le
    · exact le_rfl
  | _ => exact le_rfl

/-- **Exactly once, in order.** Whatever the log holds: what reaches the engine
for a connection is one session, numbered 1, 2, 3, ... from `Connect` on and over
with its end; a `Connect` is applied only above every number of the same owner
connected before; and the highest numbers, the state's time and the times of the
calls to the engine never go back. -/
theorem exactly_once_in_order (sh : Shared) (ents : List LogEntry) :
    (∀ c, callsOf c ((Core.fresh sh).applyLog sh ents).calls = [] ∨
      ∃ next k, Session c (callsOf c ((Core.fresh sh).applyLog sh ents).calls) next ∧
        (callsOf c ((Core.fresh sh).applyLog sh ents).calls).filterMap Call.seq =
          List.range' 1 k) ∧
    ((Core.fresh sh).applyLog sh ents).calls.Pairwise Above ∧
    ((Core.fresh sh).applyLog sh ents).calls.Pairwise (·.now ≤ ·.now) ∧
    ∀ pre post, ents = pre ++ post →
      (∀ node, ((Core.fresh sh).applyLog sh pre).core.highestLocal node ≤
        ((Core.fresh sh).applyLog sh ents).core.highestLocal node) ∧
      ((Core.fresh sh).applyLog sh pre).core.smMeta.lastNow ≤
        ((Core.fresh sh).applyLog sh ents).core.smMeta.lastNow := by
  have hnone : ∀ c : ConnId, (Core.fresh sh).smMeta.nextSeq[c]? = none := fun c =>
    ExtTreeMap.getElem?_empty
  have hstart : Sessions [] (Core.fresh sh).smMeta.toNumbering :=
    { live := fun c n hn => by rw [hnone c] at hn; cases hn
      ended := fun c _ => .inl rfl
      seen := fun call hcall => nomatch hcall
      above := .nil }
  have hs : Sessions ([] ++ ((Core.fresh sh).applyLog sh ents).calls) _ :=
    hstart.run (wf_fresh sh) (applyLog_booked sh ents (Core.fresh_ok sh)).run
  have hone : ∀ {c next}, Session c (callsOf c ((Core.fresh sh).applyLog sh ents).calls) next →
      ∃ next k, Session c (callsOf c ((Core.fresh sh).applyLog sh ents).calls) next ∧
        (callsOf c ((Core.fresh sh).applyLog sh ents).calls).filterMap Call.seq =
          List.range' 1 k := fun {c next} hsess =>
    let ⟨k, hk, _⟩ := hsess.numbers
    ⟨next, k, hsess, hk⟩
  refine ⟨fun c => ?_, hs.above, (applyLog_time ents (Core.fresh_ok sh)).2.2,
    fun pre post heq => ?_⟩
  · cases hc : ((Core.fresh sh).applyLog sh ents).core.smMeta.nextSeq[c]? with
    | none => exact (hs.ended c hc).imp_right fun ⟨hsess, _⟩ => hone hsess
    | some n => exact .inr (hone (hs.live c n hc))
  subst heq
  rw [applyLog_append]
  have hpre := applyLog_booked sh pre (Core.fresh_ok sh)
  have hpost := applyLog_booked sh post hpre.ok
  refine ⟨fun node => ?_, (applyLog_time post hpre.ok).1⟩
  refine hpost.run.inv (P := fun M => _ ≤ M.highestLocal[node]?.getD 0)
    (fun M M' call _ hstep hle => ?_) le_rfl
  exact hle.trans (hstep.highestLocal_le node)

end Beanstalkd.Raft
