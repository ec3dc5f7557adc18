import Beanstalkd.Engine.Holders
import Beanstalkd.Lib.Run

/-!
# Handing out a job

One round of `process_queue` gives one ready job to one waiting connection, and
`Hand` says everything it does: which connection, which job, what becomes of
both, and that nothing else moves. A dispatch is a `Run` of hand-outs, after the
pauses that are over have been cleared.

The engine looks for the best job over all tubes and only then for somebody to
take it. For the client it is the other way round: `MostUrgent` is the most urgent
job of the tubes the connection watches. The two agree because a waiter waits in
every tube it watches, so every one of them that has a ready job was looked at.
-/

open Std

namespace Beanstalkd

/-- The record of a job reserved by `c` at `now`; `seq` is its key in the list of `c`. -/
def JobRec.taken (now : Nanos) (c : ConnId) (seq : Nat) (j : JobRec) : JobRec :=
  { j with
    state := .reserved, reserver := some c, deadlineAt := satAdd now (j.ttr * nanosPerSec)
    reserveCt := inc32 j.reserveCt, listSeq := seq }

/-- The jobs of a tube that are put aside. -/
def TubeState.aside (t : TubeState) : ExtTreeSet (Nanos × JobId) × ExtTreeMap Nat JobId :=
  (t.delayed, t.buried)

/-- The pause of a tube. -/
def TubeState.halt (t : TubeState) : Nanos × Nanos := (t.pause, t.unpauseAt)

namespace Engine

variable {e e' e'' : Engine} {c : ConnId} {k : ConnState} {tube : TubeId} {id : JobId} {j : JobRec}
  {now : Nanos} {s : Slack}

/-! ## Replies -/

/-- The reply as it is delivered, if it is. -/
def said (e : Engine) (c : ConnId) (r : Response) : Outbox :=
  if e.wantsReply c then [(c, r)] else []

theorem reply_out (e : Engine) (c : ConnId) (r : Response) :
    (e.reply c r).out = e.out ++ e.said c r := by
  unfold reply said
  split
  · rfl
  · exact (List.append_nil _).symm

theorem said_same (h : Same e e') (c : ConnId) (r : Response) : e'.said c r = e.said c r := by
  unfold said wantsReply
  rw [congrArg Statics.localConns h.statics]

/-! ## From a job to its container -/

theorem ready_of_job (h : Core s e) (hs : s.limbo ≠ some id) (hj : e.jobs[id]? = some j)
    (hst : j.state = .ready) :
    ∃ ts, Slab.get e.tubes j.tube = some ts ∧ (j.pri, id) ∈ ts.ready := by
  obtain ⟨q, hq, hmem⟩ := filed_of_job h hs hj (mem_locs_ready.mpr ⟨hst, rfl, rfl⟩)
  obtain ⟨ts, hts, rfl⟩ := Slab.view_eq_some_iff.mp hq
  exact ⟨ts, hts, hmem⟩

/-! ## The most urgent job -/

/-- Job `i` is ready in a tube that `c` watches and that is not paused. -/
structure Offered (e : Engine) (c : ConnId) (i : JobId) (j : JobRec) : Prop where
  job : e.jobs[i]? = some j
  ready : j.state = .ready
  watched : ∃ k, e.conns[c]? = some k ∧ j.tube ∈ k.watch.items
  unpaused : ∃ t, e.tube j.tube = some t ∧ t.pause = 0

/-- Job `i` is offered to `c`, and every other such job has a higher priority
number, or the same one and a higher id. -/
def MostUrgent (e : Engine) (c : ConnId) (i : JobId) : Prop :=
  ∃ j, Offered e c i j ∧
    ∀ i' j', Offered e c i' j' → j.pri < j'.pri ∨ j.pri = j'.pri ∧ i ≤ i'

theorem isLE_pair {a b a' b' : Nat} (h : (compare (a, b) (a', b')).isLE) :
    a < a' ∨ a = a' ∧ b ≤ b' := by
  rw [show compare (a, b) (a', b') = (compare a a').then (compare b b') from rfl,
    Ordering.isLE_then_iff_or] at h
  rcases h with h | ⟨h, h'⟩
  · exact .inl (Nat.compare_eq_lt.mp h)
  · exact .inr ⟨Nat.compare_eq_eq.mp h, Nat.isLE_compare.mp h'⟩

/-- A waiter waits in every tube it watches. -/
theorem waits_of_watch {t : TubeId} {ts : TubeState} (h : Core s e) (hearly : s.early = none)
    (hqueue : s.queue = none) (hk : e.conns[c]? = some k) (hw : k.waiting = true)
    (ht : t ∈ k.watch.items) (hts : Slab.get e.tubes t = some ts) :
    c ∈ ts.waitingConns.items := by
  have hq := h.queued t ts.waitingConns.items ts.stat.waitingCt (Slab.view_of_get hts)
  rw [hearly, hqueue] at hq
  refine (hq.2.1 c).mpr ⟨⟨k.queue, waitQueues_of_conn hk, ?_⟩, nofun⟩
  rw [ConnState.queue, if_pos hw]
  exact ht

theorem wantsDispatch_of_mem {ts : TubeState} {x : Nat × JobId} (hc : c ∈ ts.waitingConns.items)
    (hx : x ∈ ts.ready) : ts.wantsDispatch = true := by
  simp only [TubeState.wantsDispatch, Bool.and_eq_true, Bool.not_eq_true']
  exact ⟨List.isEmpty_eq_false_iff_exists_mem.mpr ⟨c, hc⟩,
    TreeMap.isEmpty_eq_false_iff.mpr ⟨x, hx⟩⟩

theorem mostUrgent_of_bestReady {pri : Nat} (h : Core { owed := true } e)
    (hb : e.bestReady = some (pri, id, tube)) (hwaits : WaitsOn e.waitQueues c tube) :
    MostUrgent e c id := by
  obtain ⟨hd, ts, ht, hp, hf⟩ := bestReady_offer hb
  obtain ⟨j, hj, hst, rfl, rfl⟩ := ready_job h ht (TreeMap.first_eq_some_iff.mp hf).1
  obtain ⟨k, hk, hw⟩ := conn_of_waitsOn hwaits
  have hwatch : j.tube ∈ k.watch.items := by
    obtain ⟨l, hl, hmem⟩ := hwaits
    rw [waitQueues_of_conn hk, Option.some.injEq] at hl
    rwa [← hl, ConnState.queue, if_pos hw] at hmem
  refine ⟨j, ⟨hj, hst, ⟨k, hk, hwatch⟩, ts, ht, hp⟩, fun i' j' ho => ?_⟩
  obtain ⟨k', hk', hwatch'⟩ := ho.watched
  obtain rfl : k = k' := by simpa [hk] using hk'
  obtain ⟨ts', hts', hp'⟩ := ho.unpaused
  obtain ⟨ts'', hts'', hready⟩ := ready_of_job h (by simp) ho.job ho.ready
  obtain rfl : ts' = ts'' := Option.some.inj (hts'.symm.trans hts'')
  have hwants := wantsDispatch_of_mem (waits_of_watch h rfl rfl hk hw hwatch' hts'') hready
  exact isLE_pair (bestReady_le (s := { owed := true }) h hb hts'' hwants hp' hready)

/-! ## What a hand-out leaves alone -/

/-- The aspect `v` of a tube does not read its ready set, its statistics, its wait
list or its mark. -/
def Indifferent {β : Type} (v : TubeState → β) : Prop :=
  ∀ ts ready stat waiting mark,
    v { ts with ready := ready, stat := stat, waitingConns := waiting, dispatchable := mark } = v ts

section View

variable {β : Type} {v : TubeState → β} (hv : Indifferent v)
include hv

theorem insertReady_view (e : Engine) (t : TubeId) (i : JobId) :
    Slab.view v (e.insertReady t i).tubes = Slab.view v e.tubes := by
  unfold insertReady
  split
  · rfl
  · rw [refreshDispatchable_view fun ts b => hv ts _ _ _ b]
    exact Slab.view_modify fun ts => hv ts _ _ _ _

theorem removeReady_view (e : Engine) (t : TubeId) (i : JobId) :
    Slab.view v (e.removeReady t i).tubes = Slab.view v e.tubes := by
  unfold removeReady
  rw [refreshDispatchable_view fun ts b => hv ts _ _ _ b]
  exact Slab.view_modify fun ts => hv ts _ _ _ _

theorem takeWaiter_view (e : Engine) (t : TubeId) :
    Slab.view v (e.takeWaiter t).2.tubes = Slab.view v e.tubes := by
  unfold takeWaiter
  split
  · exact Slab.view_modify fun ts => hv ts _ _ _ _
  · rfl

theorem leaveQueue_view (e : Engine) (c : ConnId) (t : TubeId) :
    Slab.view v (leaveQueue c e t).tubes = Slab.view v e.tubes := by
  unfold leaveQueue
  rw [refreshDispatchable_view fun ts b => hv ts _ _ _ b]
  exact Slab.view_modify fun ts => hv ts _ _ _ _

theorem doRemoveWaitingConn_view (e : Engine) (c : ConnId) :
    Slab.view v (e.doRemoveWaitingConn c).tubes = Slab.view v e.tubes := by
  unfold doRemoveWaitingConn
  split
  · rfl
  next k _ =>
  split
  · obtain ⟨_, _, hf⟩ := refreshConnTick_frame
      (k.watch.items.foldl (leaveQueue c) (e.clearWaiting c)) c
    rw [hf]
    exact Loop.foldl_inv
      (s := e.clearWaiting c) k.watch.items
      (fun a t _ ha => (leaveQueue_view hv a c t).trans ha) rfl
  · rfl

theorem doReserve_view (e : Engine) (c : ConnId) (i : JobId) (now : Nanos) :
    Slab.view v (e.doReserve c i now).tubes = Slab.view v e.tubes := by
  unfold doReserve
  split
  · rfl
  obtain ⟨_, _, hf⟩ := refreshConnTick_frame _ c
  rw [hf]
  exact Slab.view_modify fun ts => hv ts _ _ _ _

end View

theorem doReserve_jobs (e : Engine) (c : ConnId) (i : JobId) (now : Nanos) :
    (e.doReserve c i now).jobs = e.jobs.modify i (JobRec.taken now c e.nextListSeq) := by
  ext i' : 1
  by_cases hi : i' = i
  · subst hi
    cases hj : e.jobs[i']? with
    | none =>
      rw [TreeMap.modify_of_none hj]
      unfold doReserve
      simp only [hj]
    | some j => rw [doReserve_self hj, TreeMap.getElem?_modify_of hj]; rfl
  · rw [doReserve_job hi, TreeMap.getElem?_modify_ne hi]

theorem doReserve_isWaiting (e : Engine) (c : ConnId) (i : JobId) (now : Nanos) (d : ConnId) :
    (e.doReserve c i now).isWaiting d = e.isWaiting d := by
  unfold doReserve
  split
  · rfl
  refine isWaiting_congr ?_
  rw [refreshConnTick_wait]
  exact TreeMap.modify_map e.conns c d fun _ => rfl

/-! ## One hand-out -/

/-- Connection `c` is off its wait lists, and that is all that happened. -/
structure Unqueued (c : ConnId) (e e' : Engine) : Prop where
  idle : e'.isWaiting c = false
  others : ∀ d, d ≠ c → e'.conns[d]? = e.conns[d]?
  jobs : e'.jobs = e.jobs
  view {β : Type} {v : TubeState → β} :
    Indifferent v → Slab.view v e'.tubes = Slab.view v e.tubes
  journal : e'.journal = e.journal
  out : e'.out = e.out
  seq : e'.nextListSeq = e.nextListSeq
  same : Same e e'

theorem unqueued {e₁ : Engine} (htake : (e.removeReady tube id).takeWaiter tube = (some c, e₁)) :
    Unqueued c e ((e₁.refreshDispatchable tube).doRemoveWaitingConn c) := by
  obtain ⟨_, _, _, hf₁⟩ := removeReady_frame e tube id
  obtain ⟨_, hf₂⟩ := takeWaiter_frame (e.removeReady tube id) tube
  rw [htake] at hf₂
  simp only at hf₂
  obtain ⟨_, _, hf₃⟩ := refreshDispatchable_frame e₁ tube
  obtain ⟨_, _, _, _, _, hf₄⟩ := doRemoveWaitingConn_frame (e₁.refreshDispatchable tube) c
  have hview {β : Type} {v : TubeState → β} (hv : Indifferent v) :
      Slab.view v ((e₁.refreshDispatchable tube).doRemoveWaitingConn c).tubes =
        Slab.view v e.tubes := by
    have htw := takeWaiter_view hv (e.removeReady tube id) tube
    rw [htake] at htw
    rw [doRemoveWaitingConn_view hv, refreshDispatchable_view fun ts b => hv ts _ _ _ b, htw,
      removeReady_view hv]
  exact {
    idle := doRemoveWaitingConn_idle _ c
    others := fun d hd => by rw [doRemoveWaitingConn_conn hd, hf₃, hf₂, hf₁]
    jobs := dispatchOne_jobs htake
    view := hview
    journal := by rw [hf₄, hf₃, hf₂, hf₁]
    out := by rw [hf₄, hf₃, hf₂, hf₁]
    seq := by rw [hf₄, hf₃, hf₂, hf₁]
    same := unqueued_same htake }

/-- Who a round would serve, and with what. -/
def handed (e : Engine) : Option (ConnId × JobId) :=
  match e.bestReady with
  | none => none
  | some (_, id, tube) => ((e.removeReady tube id).takeWaiter tube).1.map fun c => (c, id)

/-- The dispatch hands job `x.2` to connection `x.1`. -/
structure Hand (now : Nanos) (e : Engine) (x : ConnId × JobId) (e' : Engine) : Prop where
  chosen : e.handed = some x
  urgent : MostUrgent e x.1 x.2
  waited : e.isWaiting x.1 = true
  served : e'.isWaiting x.1 = false
  others : ∀ d, d ≠ x.1 → e'.conns[d]? = e.conns[d]?
  jobs : e'.jobs = e.jobs.modify x.2 (JobRec.taken now x.1 e.nextListSeq)
  aside : Slab.view TubeState.aside e'.tubes = Slab.view TubeState.aside e.tubes
  halt : Slab.view TubeState.halt e'.tubes = Slab.view TubeState.halt e.tubes
  journal : e'.journal = e.journal
  out : e'.out = e.out ++ e.said x.1 (e.reservedReply x.2)
  same : Same e e'

theorem dispatchOne_hand (h : Core { owed := true } e) (hstep : dispatchOne now e = some e') :
    ∃ x, Hand now e x e' := by
  have hsame := dispatchOne_same hstep
  cases hb : e.bestReady with
  | none => simp [dispatchOne, hb] at hstep
  | some x =>
    obtain ⟨pri, id, tube⟩ := x
    obtain ⟨-, ts, ht, -, hf⟩ := bestReady_offer hb
    obtain ⟨j, hj, -, -, -⟩ := ready_job h ht (TreeMap.first_eq_some_iff.mp hf).1
    obtain ⟨c, e₁, hwaits, htake, heq, -⟩ := dispatchOne_spec now h hb
    rw [heq, Option.some.injEq] at hstep
    obtain ⟨k, hk, hkw⟩ := conn_of_waitsOn hwaits
    have hu := unqueued htake
    generalize (e₁.refreshDispatchable tube).doRemoveWaitingConn c = e₂ at hstep hu
    -- the reservation, and then the reply, which only adds to the outbox
    have hj₂ : e₂.jobs[id]? = some j := by rw [hu.jobs, hj]
    have hreply : (e₂.doReserve c id now).reservedReply id = e.reservedReply id := by
      rw [reservedReply, doReserve_self hj₂, reservedReply, hj]
    have hsame₃ : Same e (e₂.doReserve c id now) := hu.same.trans (doReserve_same e₂ c id now)
    obtain ⟨_, _, _, _, _, _, hf₃⟩ := doReserve_frame e₂ c id now
    have hlog₃ : (e₂.doReserve c id now).journal = e.journal := by rw [hf₃, ← hu.journal]
    have hout₃ : (e₂.doReserve c id now).out = e.out := by rw [hf₃, ← hu.out]
    have hview₃ {β : Type} {v : TubeState → β} (hv : Indifferent v) :
        Slab.view v (e₂.doReserve c id now).tubes = Slab.view v e.tubes :=
      (doReserve_view hv e₂ c id now).trans (hu.view hv)
    obtain ⟨_, hf₄⟩ := reply_frame (e₂.doReserve c id now) c
      ((e₂.doReserve c id now).reservedReply id)
    have hout : e'.out = e.out ++ e.said c (e.reservedReply id) := by
      rw [← hstep, reply_out, hout₃, hreply, said_same hsame₃]
    rw [hf₄] at hstep
    subst hstep
    have hchosen : e.handed = some (c, id) := by
      rw [handed, hb]
      simp only [htake, Option.map_some]
    exact ⟨(c, id), {
      chosen := hchosen
      urgent := mostUrgent_of_bestReady h hb hwaits
      waited := by rw [isWaiting, hk, Option.any_some, hkw]
      served := (doReserve_isWaiting e₂ c id now c).trans hu.idle
      others := fun d hd => (doReserve_conn hd).trans (hu.others d hd)
      jobs := by rw [← hu.jobs, ← hu.seq]; exact doReserve_jobs e₂ c id now
      aside := hview₃ fun _ _ _ _ _ => rfl
      halt := hview₃ fun _ _ _ _ _ => rfl
      journal := hlog₃
      out := hout
      same := hsame }⟩

/-! ## The dispatch -/

/-- The dispatch is a run of hand-outs. -/
theorem processQueue_hands {o : Bool} (h : Core { owed := o } e) (now : Nanos) :
    ∃ xs, Run (Hand now) (e.clearExpiredPauses now) xs (e.processQueue now) := by
  have h₁ : Core { owed := true } (e.clearExpiredPauses now) := clearExpiredPauses_core h.owe
  refine (Loop.loop_rec (R := fun a b => ∃ xs, Run (Hand now) a xs b) (fun a _ => ⟨[], .nil a⟩) (fun a b hP hs => ?_) _ h₁).2
  obtain ⟨x, hx⟩ := dispatchOne_hand hP hs
  refine ⟨(dispatchOne_core hP hs).1, fun t ht => ?_⟩
  obtain ⟨xs, hrun⟩ := ht
  exact ⟨x :: xs, .cons hx hrun⟩

/-- What any number of hand-outs can have done: some ready jobs went to connections
that waited, and those were told. Jobs that are put aside, the journal, and every
connection that did not wait or still does are as before. -/
structure Dispatched (now : Nanos) (e e' : Engine) : Prop where
  same : Same e e'
  aside : Slab.view TubeState.aside e'.tubes = Slab.view TubeState.aside e.tubes
  journal : e'.journal = e.journal
  idle {d : ConnId} : e.isWaiting d = false → e'.conns[d]? = e.conns[d]?
  patient {d : ConnId} : e'.isWaiting d = true → e'.conns[d]? = e.conns[d]?
  jobs {i : JobId} {j : JobRec} : e.jobs[i]? = some j → e'.jobs[i]? = some j ∨
    j.state = .ready ∧ ∃ d seq, e.isWaiting d = true ∧ e'.jobs[i]? = some (j.taken now d seq)
  out : ∃ served, e'.out = e.out ++ served ∧
    ∀ x ∈ served, e.isWaiting x.1 = true ∧ ∃ i body, x.2 = .reserved i body

namespace Dispatched

/-- Nobody starts to wait. -/
theorem waited (h : Dispatched now e e') (hc : e'.isWaiting c = true) : e.isWaiting c = true := by
  rwa [isWaiting, h.patient hc] at hc

theorem trans (h : Dispatched now e e') (h' : Dispatched now e' e'') : Dispatched now e e'' where
  same := h.same.trans h'.same
  aside := h'.aside.trans h.aside
  journal := h'.journal.trans h.journal
  idle {d} hd := by
    have hd' : e'.isWaiting d = false := by rwa [isWaiting, h.idle hd]
    rw [h'.idle hd', h.idle hd]
  patient hd := by rw [h'.patient hd, h.patient (h'.waited hd)]
  jobs {i j} hj := by
    rcases h.jobs hj with hj' | ⟨hst, d, seq, hd, hj'⟩
    · rcases h'.jobs hj' with hj'' | ⟨hst, d, seq, hd, hj''⟩
      · exact .inl hj''
      · exact .inr ⟨hst, d, seq, h.waited hd, hj''⟩
    -- a job that was handed out is not ready any more
    rcases h'.jobs hj' with hj'' | ⟨hst', -⟩
    · exact .inr ⟨hst, d, seq, hd, hj''⟩
    · cases hst'
  out := by
    obtain ⟨served, hout, hserved⟩ := h.out
    obtain ⟨served', hout', hserved'⟩ := h'.out
    refine ⟨served ++ served', by rw [hout', hout, List.append_assoc], fun x hx => ?_⟩
    rcases List.mem_append.mp hx with hx | hx
    · exact hserved x hx
    · exact ⟨h.waited (hserved' x hx).1, (hserved' x hx).2⟩

/-- A reserved job is left alone. -/
theorem kept (h : Dispatched now e e') {i : JobId} (hj : e.jobs[i]? = some j)
    (hst : j.state = .reserved) : e'.jobs[i]? = some j := by
  rcases h.jobs hj with hj' | ⟨hready, -⟩
  · exact hj'
  · rw [hst] at hready
    cases hready

/-- A connection that does not wait gets nothing. -/
theorem gained (h : Dispatched now e e') (hc : e.isWaiting c = false) {i : JobId}
    (hj : e'.jobs[i]? = some j) (hres : j.reserver = some c) : e.jobs[i]? = some j := by
  obtain ⟨j₀, hj₀, -⟩ := h.same.symm.job_some hj
  rcases h.jobs hj₀ with hj' | ⟨-, d, seq, hd, hj'⟩
  · rw [hj₀, ← hj', hj]
  cases (hj.symm.trans hj')
  rw [Option.some.inj hres, hc] at hd
  cases hd

/-- A change to pauses and indexes only. -/
theorem of_frame (hs : Same e e')
    (ha : Slab.view TubeState.aside e'.tubes = Slab.view TubeState.aside e.tubes)
    (hl : e'.journal = e.journal) (hc : e'.conns = e.conns) (hj : e'.jobs = e.jobs)
    (ho : e'.out = e.out) : Dispatched now e e' where
  same := hs
  aside := ha
  journal := hl
  idle _ := by rw [hc]
  patient _ := by rw [hc]
  jobs h := .inl (by rwa [hj])
  out := ⟨[], by rw [ho, List.append_nil], nofun⟩

end Dispatched

theorem Hand.dispatched {x : ConnId × JobId} (h : Hand now e x e') : Dispatched now e e' where
  same := h.same
  aside := h.aside
  journal := h.journal
  idle {d} hd := h.others d fun he => by rw [he, h.waited] at hd; cases hd
  patient {d} hd := h.others d fun he => by rw [he, h.served] at hd; cases hd
  jobs {i j} hj := by
    by_cases hi : i = x.2
    · subst hi
      obtain ⟨j', ho, -⟩ := h.urgent
      obtain rfl : j = j' := Option.some.inj (hj.symm.trans ho.job)
      exact .inr ⟨ho.ready, x.1, e.nextListSeq, h.waited, by
        rw [h.jobs, TreeMap.getElem?_modify_of hj]⟩
    · exact .inl (by rw [h.jobs, TreeMap.getElem?_modify_ne hi, hj])
  out := by
    refine ⟨_, h.out, fun y hy => ?_⟩
    unfold said at hy
    split at hy
    · rw [List.mem_singleton.mp hy]
      exact ⟨h.waited, x.2, _, rfl⟩
    · cases hy

theorem clearExpiredPauses_dispatched (e : Engine) (now : Nanos) :
    Dispatched now e (e.clearExpiredPauses now) := by
  have hs := clearExpiredPauses_same e now
  have ha : Slab.view TubeState.aside (e.clearExpiredPauses now).tubes =
      Slab.view TubeState.aside e.tubes := by
    refine Loop.loop_inv
      (P := fun a : Engine =>
        Slab.view TubeState.aside a.tubes = Slab.view TubeState.aside e.tubes)
      (fun a b ha hab => ?_) _ rfl
    unfold clearOnePause at hab
    split at hab
    · cases hab
    split at hab
    · cases hab
    cases hab
    rw [← ha]
    exact Slab.view_modify fun _ => rfl
  obtain ⟨_, _, hf⟩ := clearExpiredPauses_frame e now
  rw [hf] at hs ha ⊢
  exact .of_frame hs ha rfl rfl rfl rfl

theorem processQueue_dispatched {o : Bool} (h : Core { owed := o } e) (now : Nanos) :
    Dispatched now e (e.processQueue now) := by
  obtain ⟨xs, hrun⟩ := processQueue_hands h now
  exact hrun.inv (fun _ _ _ _ hx hd => hd.trans hx.dispatched)
    (clearExpiredPauses_dispatched e now)

end Engine

end Beanstalkd
