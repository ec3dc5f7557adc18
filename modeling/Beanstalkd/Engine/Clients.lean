import Beanstalkd.Engine.Sessions

/-!
# Who is connected

Only `connect` adds a connection and only `disconnect` removes one; no command,
timer or dispatch touches the set of connections, whatever state the engine is
in. That is all the replicated state machine relies on when it drops a node's
connections.

`validate` also compares the open connections with the connections ever made. The
latter is a counter that wraps at its width, so the comparison is not part of the
invariant; it is kept by every input that does not wrap the counter.
-/

open Std

namespace Beanstalkd

variable {e e' e'' : Engine} {c d : ConnId} {now : Nanos}

/-- The same connections. -/
structure KeepsConns (e e' : Engine) : Prop where
  same : ∀ c, e'.conns.contains c = e.conns.contains c

/-- The same connections, and as many of them counted. -/
structure KeepsClients (e e' : Engine) : Prop extends KeepsConns e e' where
  clients : e'.clients = e.clients

namespace KeepsClients

theorem trans (h : KeepsClients e e') (h' : KeepsClients e' e'') : KeepsClients e e'' :=
  ⟨⟨fun c => (h'.same c).trans (h.same c)⟩, h'.clients.trans h.clients⟩

/-- Whatever else is updated. -/
theorem of_eq (h : e'.conns = e.conns) (hn : e'.clients = e.clients) : KeepsClients e e' :=
  ⟨⟨fun c => by rw [h]⟩, hn⟩

theorem refl (e : Engine) : KeepsClients e e := of_eq rfl rfl

theorem since (h : KeepsClients e' e'') (heq : e'.conns = e.conns) (hn : e'.clients = e.clients) :
    KeepsClients e e'' := (of_eq heq hn).trans h

theorem of_same (h : Same e e') : KeepsClients e e' := ⟨⟨fun c => by
  have hc := congrArg Option.isSome (h.conn c)
  simpa only [Option.isSome_map, ExtTreeMap.contains_eq_isSome_getElem?] using hc⟩, h.clients⟩

theorem foldl {α : Type} {f : Engine → α → Engine} (h : ∀ e a, KeepsClients e (f e a)) (l : List α)
    (e : Engine) : KeepsClients e (l.foldl f e) :=
  Loop.foldl_inv l (fun s a _ hs => hs.trans (h s a)) (refl e)

end KeepsClients

namespace Engine

theorem modConn_keeps (e : Engine) (c : ConnId) (f : ConnState → ConnState) :
    KeepsClients e (e.modConn c f) :=
  ⟨⟨fun d => by simp only [modConn, ExtTreeMap.contains_modify]⟩, rfl⟩

theorem reply_keeps (e : Engine) (c : ConnId) (r : Response) : KeepsClients e (e.reply c r) :=
  .of_same (reply_same e c r)

/-- A put is counted and its connection is a producer from now on. -/
theorem countProducer_keeps (e : Engine) (f : OpCounts → OpCounts) (c : ConnId) (n : JobId) :
    KeepsClients e { (e.countOp f).connsetproducer c with nextJobId := n } := by
  have h : KeepsClients e ((e.countOp f).connsetproducer c) :=
    .of_same ((countOp_same e f).trans (connsetproducer_same _ c))
  exact h.trans (.of_eq rfl rfl)

theorem findOrMakeTube_keeps (e : Engine) (name : TubeName) :
    KeepsClients e (e.findOrMakeTube name).1 := by
  obtain ⟨_, _, _, _, hf⟩ := findOrMakeTube_frame e name
  rw [hf]
  exact .of_eq rfl rfl

theorem gcTubeIfOrphan_keeps (e : Engine) (t : TubeId) : KeepsClients e (e.gcTubeIfOrphan t) := by
  obtain ⟨_, _, _, _, _, _, _, hf⟩ := gcTubeIfOrphan_frame e t
  rw [hf]
  exact .of_eq rfl rfl

theorem dropUse_keeps (e : Engine) (t : TubeId) : KeepsClients e (e.dropUse t) :=
  (gcTubeIfOrphan_keeps ..).since rfl rfl

theorem dropWatch_keeps (e : Engine) (t : TubeId) : KeepsClients e (e.dropWatch t) :=
  (gcTubeIfOrphan_keeps ..).since rfl rfl

/-! ## Commands that are more than a move -/

theorem takePutId_keeps (e : Engine) (now : Nanos) (c : ConnId) :
    KeepsClients e (e.takePutId now c).1 := by
  simp only [takePutId]
  split
  · exact modConn_keeps e c _
  · exact (modConn_keeps e c _).trans (countProducer_keeps ..)

theorem cmdPut_keeps (e : Engine) (now : Nanos) (c : ConnId) (pri delay ttr : Nat)
    (body : Bytes) : KeepsClients e (e.cmdPut now c pri delay ttr body) := by
  have hid := takePutId_keeps e now c
  unfold cmdPut
  generalize e.takePutId now c = taken at hid
  obtain ⟨e₁, id, createdAt⟩ := taken
  simp only
  split
  · exact hid.trans (reply_keeps ..)
  have hput := KeepsClients.of_same (finishPut_same (modTube { e₁ with
    jobs := e₁.jobs.insert id (e₁.newJob id (e₁.useTubeOf c) pri delay ttr body createdAt) }
    (e₁.useTubeOf c) fun t => { t with jobRefCt := t.jobRefCt + 1 }) now c (e₁.useTubeOf c) id
    delay)
  exact hid.trans (hput.since rfl rfl)

theorem cmdUse_keeps (e : Engine) (c : ConnId) (name : TubeName) :
    KeepsClients e (e.cmdUse c name) := by
  unfold cmdUse
  extract_lets e₀
  have h₀ : KeepsClients e e₀ := .of_eq rfl rfl
  have hmake := h₀.trans (findOrMakeTube_keeps e₀ name)
  generalize e₀.findOrMakeTube name = made at hmake
  obtain ⟨e₁, new⟩ := made
  refine (hmake.trans ?_).trans (reply_keeps ..)
  split
  · exact (dropUse_keeps e₁ _).trans ((modConn_keeps _ c _).since rfl rfl)
  · exact .refl e₁

theorem cmdWatch_keeps (e : Engine) (c : ConnId) (name : TubeName) :
    KeepsClients e (e.cmdWatch c name) := by
  unfold cmdWatch
  extract_lets e₀
  have h₀ : KeepsClients e e₀ := .of_eq rfl rfl
  have hmake := h₀.trans (findOrMakeTube_keeps e₀ name)
  generalize e₀.findOrMakeTube name = made at hmake
  obtain ⟨e₁, tid⟩ := made
  refine (hmake.trans ?_).trans (reply_keeps ..)
  split
  · exact (modConn_keeps e₁ c _).trans (.of_eq rfl rfl)
  · exact .refl e₁

theorem cmdIgnore_keeps (e : Engine) (c : ConnId) (name : TubeName) :
    KeepsClients e (e.cmdIgnore c name) := by
  unfold cmdIgnore
  extract_lets e₀
  have h₀ : KeepsClients e e₀ := .of_eq rfl rfl
  split
  · exact h₀.trans (reply_keeps ..)
  split
  · exact h₀.trans (reply_keeps ..)
  · exact ((h₀.trans (modConn_keeps e₀ c _)).trans (dropWatch_keeps ..)).trans (reply_keeps ..)

theorem finishDelete_keeps (e : Engine) (c : ConnId) (t : TubeId) (id : JobId) :
    KeepsClients e (e.finishDelete c t id) := by
  unfold finishDelete
  extract_lets e₁ e₂ e₃
  have h₂ : KeepsClients e e₂ := by
    simp only [e₂, journalDelete]
    split <;> exact .of_eq rfl rfl
  exact (h₂.trans (gcTubeIfOrphan_keeps e₂ t)).trans (reply_keeps ..)

theorem cmdDelete_keeps (e : Engine) (c : ConnId) (id : JobId) :
    KeepsClients e (e.cmdDelete c id) := by
  unfold cmdDelete
  extract_lets e₀
  have h₀ : KeepsClients e e₀ := .of_eq rfl rfl
  split
  · exact h₀.trans (reply_keeps ..)
  split
  · split
    · exact (h₀.trans (.of_same (doUnreserve_same e₀ c id))).trans (finishDelete_keeps ..)
    · exact h₀.trans (reply_keeps ..)
  · exact (h₀.trans (.of_same (removeFrom_same e₀ _ _ id))).trans (finishDelete_keeps ..)

theorem handle_keeps (e : Engine) (now : Nanos) (c : ConnId) (cmd : Command) :
    KeepsClients e (e.handle now c cmd) := by
  unfold handle
  split
  · cases cmd with
    | put pri delay ttr body => exact cmdPut_keeps e now c pri delay ttr body
    | use name => exact cmdUse_keeps e c name
    | reserve => exact .of_same (cmdReserve_same e now c none)
    | reserveWithTimeout t => exact .of_same (cmdReserve_same e now c (some t))
    | reserveJob id => exact .of_same (cmdReserveJob_same e now c id)
    | delete id => exact cmdDelete_keeps e c id
    | release id pri delay => exact .of_same (cmdRelease_same e now c id pri delay)
    | bury id pri => exact .of_same (cmdBury_same e c id pri)
    | touch id => exact .of_same (cmdTouch_same e now c id)
    | watch name => exact cmdWatch_keeps e c name
    | ignore name => exact cmdIgnore_keeps e c name
    | kick n => exact .of_same (cmdKick_same e now c n)
    | kickJob id => exact .of_same (cmdKickJob_same e now c id)
    | pauseTube name delay => exact .of_same (cmdPauseTube_same e now c name delay)
    | quit => exact .refl e
    | _ => exact (KeepsClients.of_same (countOp_same e _)).trans (reply_keeps ..)
  · exact .refl e

/-! ## Coming and going -/

/-- Everything but the end of a `disconnect`. -/
theorem disconnect_keeps (e : Engine) (now : Nanos) (c : ConnId) :
    e.conns.contains c = false ∧ e.disconnect now c = e ∨
      ∃ e', KeepsClients e e' ∧ e.disconnect now c = e'.removeConn c := by
  unfold disconnect
  split
  · extract_lets e₁ reserved e₂ watched e₃ e₄ e₅
    refine .inr ⟨e₅, ?_, rfl⟩
    have h₁ : KeepsClients e e₁ := .of_same (doRemoveWaitingConn_same e c)
    have h₂ : KeepsClients e₁ e₂ :=
      .of_same (Same.foldl (fun s id => releaseOne_same s c id) reserved e₁)
    have h₃ : KeepsClients e₂ e₃ := modConn_keeps e₂ c _
    have h₄ : KeepsClients e₃ e₄ := .foldl dropWatch_keeps _ e₃
    have h₅ : KeepsClients e₄ e₅ := by
      simp only [e₅]
      split
      · exact dropUse_keeps e₄ _
      · exact .refl e₄
    exact (((h₁.trans h₂).trans h₃).trans h₄).trans h₅
  · next hnot => exact .inl ⟨Bool.eq_false_iff.mpr hnot, rfl⟩

theorem disconnect_conns (e : Engine) (now : Nanos) (c d : ConnId) :
    (e.disconnect now c).conns.contains d = (e.conns.contains d && decide (d ≠ c)) := by
  rcases disconnect_keeps e now c with ⟨hnot, heq⟩ | ⟨e', h, heq⟩
  · rw [heq]
    by_cases hdc : d = c
    · subst hdc
      simp [hnot]
    · simp [hdc]
  · rw [heq, ← h.same d]
    simp only [removeConn]
    split
    · next hnone =>
      by_cases hdc : d = c
      · subst hdc
        simp [ExtTreeMap.contains_eq_isSome_getElem?, hnone]
      · simp [hdc]
    · by_cases hdc : d = c
      · simp [hdc]
      · simp [hdc, Ne.symm hdc]

theorem connKey_eq (c d : ConnId) : (compare c d == .eq) = decide (d = c) := by
  by_cases hdc : d = c
  · simp [hdc]
  · simp [hdc, Ne.symm hdc]

theorem connect_conns (e : Engine) (c d : ConnId) :
    (e.connect c).conns.contains d = (e.conns.contains d || decide (d = c)) := by
  simp only [connect]
  rw [ExtTreeMap.contains_insert, Bool.or_comm, connKey_eq]
  rfl

/-- Only a `connect` and a `disconnect` change who is connected. -/
theorem applyInput_keeps {input : EngineInput} (hcon : ∀ c, input ≠ .connect c)
    (hdis : ∀ c, input ≠ .disconnect c) : KeepsClients e (e.applyInput now input) := by
  refine KeepsClients.trans ?_ (.of_same (tick_same _ now))
  cases input with
  | connect c => exact absurd rfl (hcon c)
  | disconnect c => exact absurd rfl (hdis c)
  | halfClose c =>
    simp only [step, halfClose]
    split
    · exact .of_same ((doRemoveWaitingConn_same e c).trans (reply_same ..))
    · exact .refl e
  | putStarted c big =>
    simp only [step, putStarted]
    split
    · split
      · exact (modConn_keeps _ c _).since rfl rfl
      · exact (countProducer_keeps e _ c _).trans (modConn_keeps _ c _)
    · exact .refl e
  | putRejected c why =>
    simp only [step, putRejected]
    split
    · exact .refl e
    refine KeepsClients.trans ?_ (reply_keeps ..)
    split
    · exact modConn_keeps e c _
    split
    · exact (modConn_keeps e c _).trans (countProducer_keeps ..)
    · exact (modConn_keeps e c _).trans (.of_eq rfl rfl)
  | command c cmd => exact handle_keeps e now c cmd
  | tick => exact .refl e
  | setDraining on => exact .of_eq rfl rfl

/-- The connections after one input. -/
theorem applyInput_conns (e : Engine) (now : Nanos) (i : EngineInput) (d : ConnId) :
    (e.applyInput now i).conns.contains d =
      match i with
      | .connect c => e.conns.contains d || decide (d = c)
      | .disconnect c => e.conns.contains d && decide (d ≠ c)
      | _ => e.conns.contains d := by
  have htick (e' : Engine) := (KeepsClients.of_same (tick_same e' now)).same d
  cases i with
  | connect c => exact (htick _).trans (connect_conns e c d)
  | disconnect c => exact (htick _).trans (disconnect_conns e now c d)
  | _ => exact (applyInput_keeps (by simp) (by simp)).same d

/-- A `connect` counts one connection more, anything else none. -/
theorem applyInput_clients (e : Engine) (now : Nanos) (input : EngineInput) :
    (∃ c, input = .connect c) ∧ (e.applyInput now input).curConns = e.curConns + 1 ∧
        (e.applyInput now input).totConns = inc32 e.totConns ∨
      (∀ c, input ≠ .connect c) ∧ (e.applyInput now input).curConns ≤ e.curConns ∧
        (e.applyInput now input).totConns = e.totConns := by
  have hsplit {a b : Engine} (h : a.clients = b.clients) :
      a.curConns = b.curConns ∧ a.totConns = b.totConns := by
    simpa only [clients, Prod.mk.injEq] using h
  have ht := hsplit (tick_same (e.step now input) now).clients
  by_cases hcon : ∃ c, input = .connect c
  · obtain ⟨c, rfl⟩ := hcon
    exact .inl ⟨⟨c, rfl⟩, ht⟩
  have hcon : ∀ c, input ≠ .connect c := fun c hc => hcon ⟨c, hc⟩
  refine .inr ⟨hcon, ?_⟩
  by_cases hdis : ∃ c, input = .disconnect c
  · obtain ⟨c, rfl⟩ := hdis
    have hgone : (e.disconnect now c).curConns ≤ e.curConns ∧
        (e.disconnect now c).totConns = e.totConns := by
      rcases disconnect_keeps e now c with ⟨-, heq⟩ | ⟨e', h, heq⟩
      · rw [heq]
        exact ⟨Nat.le_refl _, rfl⟩
      · rw [heq, ← (hsplit h.clients).1, ← (hsplit h.clients).2, removeConn]
        split <;> exact ⟨Nat.sub_le .., rfl⟩
    exact ⟨ht.1 ▸ hgone.1, ht.2.trans hgone.2⟩
  · have hkeeps : KeepsClients e (e.applyInput now input) :=
      applyInput_keeps hcon fun c hc => hdis ⟨c, hc⟩
    have hkept := hsplit hkeeps.clients
    exact ⟨Nat.le_of_eq hkept.1, hkept.2⟩

/-- Connections made stay at least the open ones. -/
theorem applyInput_opened {input : EngineInput} (h : e.curConns ≤ e.totConns)
    (hmax : e.totConns + 1 < 2 ^ 32) :
    (e.applyInput now input).curConns ≤ (e.applyInput now input).totConns := by
  rcases applyInput_clients e now input with ⟨-, hcur, htot⟩ | ⟨-, hcur, htot⟩
  · rw [hcur, htot, inc32, Nat.mod_eq_of_lt hmax]
    exact Nat.succ_le_succ h
  · rw [htot]
    exact Nat.le_trans hcur h

end Engine

end Beanstalkd
