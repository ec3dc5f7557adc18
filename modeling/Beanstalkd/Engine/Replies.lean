import Beanstalkd.Engine.Instants

/-!
# What a call owes its clients

*Replies.* A request is answered once: at once, or, if it is a reserve that has to wait,
when the waiting ends. So the replies sent to a connection and the one it waits for
(`account`) grow by one with each of its own requests and by nothing else.

*Jobs.* Only a put makes a job and only a delete removes one, and what a job is stays.

*Puts.* Whether a connection is in the middle of a put is changed by itself only (`link`).

*Reserved jobs.* The RESERVED replies are those of the dispatches that `Instants.lean` lists,
in their order. `reserve-job`, which names its job, is the one command left out.

These are read off the same lines of every method: a `Piece` is a stretch of a call with
what it means for all of them, and pieces compose.
-/

open Std

namespace Beanstalkd

namespace Engine

variable {e e' e₁ e₂ : Engine} {c d : ConnId} {k : ConnState} {tube : TubeId} {id : JobId}
  {j : JobRec} {now : Nanos} {o : Bool} {asked more : List ConnId} {ds ds' : List Engine}

/-- What a call may do: make jobs, remove jobs, and change the link of a connection. If it is
`paced`, it hands out jobs in its dispatches only. -/
structure Terms where
  makes : JobId → Prop
  removes : JobId → Prop
  own : ConnId → Prop
  paced : Prop

variable {T : Terms}

/-! ## What moving jobs leaves alone -/

/-- Whether `c` is connected, and the put it is in the middle of. -/
def link (e : Engine) (c : ConnId) : Option (Option PendingPut) :=
  e.conns[c]?.map ConnState.pendingPut

def jobCore (e : Engine) (i : JobId) : Option JobCore := e.jobs[i]?.map JobRec.fixed

/-- What was said, who waits, the links, and what the jobs are. -/
def around (e : Engine) := (e.out, e.localConns, e.isWaiting, e.link, e.jobCore)

theorem link_same (hs : Same e e') : e'.link = e.link := by
  funext d
  have hd := congrArg (Option.map ConnCore.pendingPut) (hs.conn d)
  rwa [Option.map_map, Option.map_map] at hd

theorem around_of_same (hs : Same e e') (hout : e'.out = e.out)
    (hwait : ∀ d, e'.isWaiting d = e.isWaiting d) : e'.around = e.around := by
  have hjobs : e'.jobCore = e.jobCore := funext hs.job
  rw [around, around, hout, congrArg Statics.localConns hs.statics, hjobs, funext hwait,
    link_same hs]

section Around

variable (e : Engine) (c : ConnId) (t : TubeId) (i : JobId)

@[simp]
theorem countOp_around (f : OpCounts → OpCounts) : (e.countOp f).around = e.around := rfl

theorem modTube_around (f : TubeState → TubeState) : (e.modTube t f).around = e.around := rfl

theorem modJob_around {f : JobRec → JobRec} (hf : ∀ j, (f j).fixed = j.fixed) :
    (e.modJob i f).around = e.around := around_of_same (modJob_same e i hf) rfl fun _ => rfl

/-- A connection changes, but not whether it waits or puts. -/
theorem modConn_around {f : ConnState → ConnState}
    (hf : ∀ k, (f k).wait = k.wait ∧ (f k).pendingPut = k.pendingPut) :
    (e.modConn c f).around = e.around := by
  have hwait : (e.modConn c f).isWaiting = e.isWaiting :=
    funext fun d => isWaiting_congr (TreeMap.modify_map e.conns c d fun k => (hf k).1)
  have hlink : (e.modConn c f).link = e.link :=
    funext fun d => TreeMap.modify_map e.conns c d fun k => (hf k).2
  rw [around, hwait, hlink]
  rfl

theorem refreshConnTick_around : (e.refreshConnTick c).around = e.around := by
  refine around_of_same (refreshConnTick_same e c) ?_ fun d =>
    isWaiting_congr (refreshConnTick_wait e c d)
  obtain ⟨_, _, hf⟩ := refreshConnTick_frame e c
  rw [hf]

@[simp]
theorem refreshDelayHead_around : (e.refreshDelayHead t).around = e.around := by
  obtain ⟨_, _, hf⟩ := refreshDelayHead_frame e t
  rw [hf]
  rfl

@[simp]
theorem insertReady_around : (e.insertReady t i).around = e.around := by
  obtain ⟨_, _, _, _, _, hf⟩ := insertReady_frame e t i
  refine around_of_same (insertReady_same e t i) (by rw [hf]) fun d => ?_
  rw [isWaiting, isWaiting, insertReady_conns]

theorem insertBuried_around : (e.insertBuried t i).around = e.around :=
  modJob_around e i fun _ => rfl

@[simp]
theorem insertDelayed_around (d : Nanos) : (e.insertDelayed t i d).around = e.around := by
  rw [insertDelayed, refreshDelayHead_around]
  exact modJob_around e i fun _ => rfl

theorem enqueueJob_around (delay : Nat) : (e.enqueueJob now t i delay).around = e.around := by
  unfold enqueueJob
  split <;> simp

@[simp]
theorem removeFrom_around (st : JobState) : (e.removeFrom st t i).around = e.around := by
  cases st with
  | ready =>
    obtain ⟨_, _, _, hf⟩ := removeReady_frame e t i
    rw [removeFrom, hf]
    rfl
  | buried =>
    obtain ⟨_, _, hf⟩ := removeBuried_frame e t i
    rw [removeFrom, hf]
    rfl
  | delayed =>
    obtain ⟨_, _, _, hf⟩ := removeDelayed_frame e t i
    rw [removeFrom, hf]
    rfl
  | reserved => rfl

@[simp]
theorem doUnreserve_around : (e.doUnreserve c i).around = e.around := by
  refine around_of_same (doUnreserve_same e c i) ?_ fun d =>
    isWaiting_congr (doUnreserve_wait e c i d)
  have hout (a : Engine) : (a.refreshConnTick c).out = a.out :=
    congrArg Prod.fst (refreshConnTick_around a c)
  unfold doUnreserve
  split <;> exact hout _

@[simp]
theorem doReserve_around : (e.doReserve c i now).around = e.around := by
  refine around_of_same (doReserve_same e c i now) ?_ (doReserve_isWaiting e c i now)
  obtain ⟨_, _, _, _, _, _, hf⟩ := doReserve_frame e c i now
  rw [hf]

theorem journalWith_around (f : JobRec → JournalEntry) :
    (e.journalWith i f).around = e.around := by
  obtain ⟨_, hf⟩ := journalWith_frame e i f
  rw [hf]
  rfl

theorem journalDelete_around : (e.journalDelete i).around = e.around := by
  obtain ⟨_, hf⟩ := journalDelete_frame e i
  rw [hf]
  rfl

theorem findOrMakeTube_around (name : TubeName) :
    (e.findOrMakeTube name).1.around = e.around := by
  obtain ⟨_, _, _, _, hf⟩ := findOrMakeTube_frame e name
  rw [hf]
  rfl

theorem gcTubeIfOrphan_around : (e.gcTubeIfOrphan t).around = e.around := by
  obtain ⟨_, _, _, _, _, _, _, hf⟩ := gcTubeIfOrphan_frame e t
  rw [hf]
  rfl

theorem connsetproducer_around : (e.connsetproducer c).around = e.around := by
  unfold connsetproducer
  split
  · exact modConn_around e c fun _ => ⟨rfl, rfl⟩
  · rfl

@[simp]
theorem connsetworker_around : (e.connsetworker c).around = e.around := by
  unfold connsetworker
  split
  · exact modConn_around e c fun _ => ⟨rfl, rfl⟩
  · rfl

theorem revive_around : (e.revive t i).around = e.around := by
  rw [revive, journalUpdate, journalWith_around, insertReady_around]
  exact modJob_around e i fun _ => rfl

theorem doRemoveWaitingConn_out : (e.doRemoveWaitingConn c).out = e.out := by
  obtain ⟨_, _, _, _, _, hf⟩ := doRemoveWaitingConn_frame e c
  rw [hf]

end Around

/-! ## Pieces of a call -/

/-- The replies sent to `c`, and the one it waits for. -/
def account (e : Engine) (c : ConnId) : Nat :=
  e.out.countP (fun x => x.1 = c) + (e.isWaiting c).toNat

/-- From `e` to `e'` there were the dispatches `ds`, each connection in `asked` became due
one reply and nobody else any, and no more happened than the terms allow. -/
structure Piece (now : Nanos) (ds : List Engine) (asked : List ConnId) (T : Terms)
    (e e' : Engine) : Prop where
  owners : e'.localConns = e.localConns
  account : ∀ d, e.wantsReply d = true → e'.account d = e.account d + asked.count d
  cores : ∀ i, e'.jobCore i = e.jobCore i ∨ T.makes i ∨ T.removes i ∧ e'.jobCore i = none
  links : ∀ d, e'.link d = e.link d ∨ T.own d
  core : ∀ d ∈ ds, Core { owed := true } d
  served : T.paced →
    servedIn e'.out = servedIn e.out ++ ds.flatMap fun d => (d.turns now).flatMap told

namespace Piece

theorem trans (h : Piece now ds asked T e e₁) (h' : Piece now ds' more T e₁ e') :
    Piece now (ds ++ ds') (asked ++ more) T e e' where
  owners := h'.owners.trans h.owners
  account d hd := by
    have hd₁ : e₁.wantsReply d = true := by rwa [Engine.wantsReply, h.owners]
    rw [h'.account d hd₁, h.account d hd, List.count_append]
    omega
  cores i := by
    rcases h'.cores i with hi | hi
    · rw [hi]
      exact h.cores i
    · exact .inr hi
  links d := by
    rcases h.links d with hd | hd
    · exact hd ▸ h'.links d
    · exact .inr hd
  core := List.forall_mem_append.mpr ⟨h.core, h'.core⟩
  served hp := by rw [h'.served hp, h.served hp, List.flatMap_append, List.append_assoc]

theorem silent (h : e'.around = e.around) : Piece now [] [] T e e' := by
  simp only [around, Prod.mk.injEq] at h
  obtain ⟨hout, howners, hwait, hlink, hjobs⟩ := h
  refine ⟨howners, fun d _ => ?_, fun i => .inl (by rw [hjobs]), fun d => .inl (by rw [hlink]),
    nofun, fun _ => by rw [hout, List.flatMap_nil, List.append_nil]⟩
  rw [Engine.account, Engine.account, hout, hwait]
  rfl

theorem andSilent (h : Piece now ds asked T e e₁) (ha : e'.around = e₁.around) :
    Piece now ds asked T e e' := by
  simpa using h.trans (silent ha)

/-- A job is made, or removed. -/
theorem file {jobs : ExtTreeMap JobId JobRec} (hid : T.makes id ∨ T.removes id ∧ jobs[id]? = none)
    (hother : ∀ i, i ≠ id → jobs[i]? = e.jobs[i]?) : Piece now [] [] T e { e with jobs } := by
  have hsame : Piece now [] [] T e e := silent rfl
  refine { hsame with cores := fun i => ?_ }
  by_cases hi : i = id
  · subst hi
    exact .inr (hid.imp_right fun h => ⟨h.1, Option.map_eq_none_iff.mpr h.2⟩)
  · exact .inl (congrArg (Option.map JobRec.fixed) (hother i hi))

theorem said_count (hd : e.wantsReply d = true) (c : ConnId) (r : Response) :
    (e.said c r).countP (fun x => x.1 = d) = [c].count d := by
  by_cases hc : c = d
  · subst hc
    rw [said, if_pos hd]
    simp
  · unfold said
    split <;> simp [hc]

theorem reply (e : Engine) (c : ConnId) {r : Response} (hr : T.paced → servedIn [(c, r)] = []) :
    Piece now [] [c] T e (e.reply c r) := by
  obtain ⟨_, hf⟩ := reply_frame e c r
  refine ⟨by rw [hf], fun d hd => ?_, fun i => .inl (by rw [hf]; rfl),
    fun d => .inl (by rw [hf]; rfl), nofun, fun hp => ?_⟩
  · have hw : (e.reply c r).isWaiting d = e.isWaiting d := by rw [hf]; rfl
    rw [Engine.account, Engine.account, hw, reply_out, List.countP_append, said_count hd]
    omega
  have hnone : servedIn (e.said c r) = [] := by
    unfold said
    split
    · exact hr hp
    · rfl
  rw [reply_out, servedIn_append, hnone]
  rfl

theorem andReply {r : Response} (h : Piece now ds [] T e e')
    (hr : T.paced → servedIn [(c, r)] = []) : Piece now ds [c] T e (e'.reply c r) := by
  simpa using h.trans (reply e' c hr)

theorem silentReply {r : Response} (h : e'.around = e.around)
    (hr : T.paced → servedIn [(c, r)] = []) : Piece now [] [c] T e (e'.reply c r) :=
  (silent h).andReply hr

/-- Only the link of `c` changes. -/
theorem relink (hown : T.own c) (hout : e'.out = e.out) (howners : e'.localConns = e.localConns)
    (hjobs : e'.jobs = e.jobs) (hself : e'.isWaiting c = e.isWaiting c)
    (hother : ∀ d, d ≠ c → e'.conns[d]? = e.conns[d]?) : Piece now [] [] T e e' := by
  have hwait (d : ConnId) : e'.isWaiting d = e.isWaiting d := by
    by_cases hd : d = c
    · rw [hd, hself]
    · rw [isWaiting, hother d hd, isWaiting]
  refine ⟨howners, fun d _ => ?_, fun i => .inl (by rw [jobCore, hjobs, jobCore]), fun d => ?_,
    by simp, fun _ => by rw [hout, List.flatMap_nil, List.append_nil]⟩
  · rw [Engine.account, Engine.account, hout, hwait]
    rfl
  by_cases hd : d = c
  · exact .inr (hd ▸ hown)
  · exact .inl (by rw [link, hother d hd, link])

/-- Connection `c` waits for its reply. -/
theorem wait (hk : e.conns[c]? = some k) (hidle : k.waiting = false) (t : Option Nanos) :
    Piece now [] [c] T e (e.enqueueWaitingConn c t) := by
  have hset : Piece now [] [c] T e (e.setWaiting c t) := by
    have hother (d : ConnId) (hd : d ≠ c) : (e.setWaiting c t).isWaiting d = e.isWaiting d :=
      congrArg (·.any ConnState.waiting) (TreeMap.getElem?_modify_ne hd)
    have hself : (e.setWaiting c t).isWaiting c = true :=
      congrArg (·.any ConnState.waiting) (TreeMap.getElem?_modify_of hk)
    refine ⟨rfl, fun d _ => ?_, fun _ => .inl rfl,
      fun d => .inl (TreeMap.modify_map e.conns c d fun _ => rfl), nofun,
      fun _ => (List.append_nil _).symm⟩
    show e.out.countP _ + _ = e.out.countP _ + _ + _
    by_cases hd : d = c
    · rw [hd, hself, isWaiting, hk, Option.any_some, hidle, List.count_singleton_self]
      rfl
    · rw [hother d hd, List.count_eq_zero_of_not_mem (by simpa using hd)]
      rfl
  refine hset.andSilent ?_
  rw [enqueueWaitingConn, hk]
  obtain ⟨_, _, hf⟩ := foldl_joinQueue_frame c k.watch.items (e.setWaiting c t)
  rw [refreshConnTick_around, hf]
  rfl

/-- The reply that `c` waits for. -/
theorem relief (hw : e.isWaiting c = true) {r : Response} (hr : servedIn [(c, r)] = []) :
    Piece now [] [] T e ((e.doRemoveWaitingConn c).reply c r) := by
  have hs := doRemoveWaitingConn_same e c
  have howners : (e.doRemoveWaitingConn c).localConns = e.localConns :=
    congrArg Statics.localConns hs.statics
  have hother (d : ConnId) (hd : d ≠ c) :
      (e.doRemoveWaitingConn c).isWaiting d = e.isWaiting d := by
    rw [isWaiting, doRemoveWaitingConn_conn hd]
    rfl
  have hidle := doRemoveWaitingConn_idle e c
  have hreply : Piece now [] [c] T (e.doRemoveWaitingConn c) _ := reply _ c fun _ => hr
  have hjobs : (e.doRemoveWaitingConn c).jobCore = e.jobCore := funext hs.job
  refine ⟨hreply.owners.trans howners, fun d hd => ?_, fun i => hjobs ▸ hreply.cores i,
    fun d => link_same hs ▸ hreply.links d, by simp,
    fun hp => doRemoveWaitingConn_out e c ▸ hreply.served hp⟩
  have hacc := hreply.account d (by rw [Engine.wantsReply, howners]; exact hd)
  rw [hacc, Engine.account, Engine.account, doRemoveWaitingConn_out]
  by_cases hdc : d = c
  · rw [hdc, hidle, hw, List.count_singleton_self]
    rfl
  · rw [hother d hdc, List.count_eq_zero_of_not_mem (by simpa using hdc)]
    rfl

theorem hand {x : ConnId × JobId} (h : Hand now e x e') (hT : ¬ T.paced) :
    Piece now [] [] T e e' := by
  refine ⟨congrArg Statics.localConns h.same.statics, fun d hd => ?_,
    fun i => .inl (h.same.job i), fun _ => .inl (by rw [link_same h.same]), nofun,
    fun hp => absurd hp hT⟩
  rw [Engine.account, Engine.account, h.out, List.countP_append, said_count hd]
  by_cases hx : d = x.1
  · rw [hx, h.waited, h.served, List.count_singleton_self]
    rfl
  · rw [isWaiting, h.others d hx, List.count_eq_zero_of_not_mem (by simpa using hx)]
    rfl

theorem dispatch (h : Core { owed := o } e) : Piece now [e] [] T e (e.processQueue now) := by
  have hclear : Piece now [] [] { T with paced := False } e (e.clearExpiredPauses now) := by
    obtain ⟨_, _, hf⟩ := clearExpiredPauses_frame e now
    rw [hf]
    exact silent rfl
  obtain ⟨xs, hrun⟩ := processQueue_hands h now
  have hall := hrun.inv
    (fun _ _ _ _ hx hp => hp.trans (hand hx id)) hclear
  exact { hall with
    core := List.forall_mem_singleton.mpr h.owe
    served := fun _ => by rw [processQueue_served h, List.flatMap_singleton] }

/-- A loop whose rounds are pieces. -/
theorem loop {σ : Type} {P : σ → Prop} {step : σ → Option σ} (eng : σ → Engine)
    {adds : σ → List Engine} (hstep : ∀ s s', P s → step s = some s' →
      P s' ∧ Piece now (adds s) [] T (eng s) (eng s')) (n : Nat) {s : σ} (hs : P s) :
    P (Loop.loop n step s) ∧
      Piece now ((Loop.states n step s).flatMap adds) [] T (eng s) (eng (Loop.loop n step s)) := by
  induction n generalizing s with
  | zero => exact ⟨hs, silent rfl⟩
  | succ n ih =>
    cases hnext : step s with
    | none =>
      rw [Loop.loop_none hnext, Loop.states_none hnext]
      exact ⟨hs, silent rfl⟩
    | some s' =>
      obtain ⟨hs', hpiece⟩ := hstep s s' hs hnext
      rw [Loop.loop_some hnext, Loop.states_some hnext, List.flatMap_cons]
      exact ⟨(ih hs').1, hpiece.trans (ih hs').2⟩

/-- A loop whose rounds each move a job and then dispatch, entered in `point`. -/
theorem dispatchLoop {point step : Engine → Option Engine}
    (heq : ∀ a, step a = (point a).map fun d => d.processQueue now)
    (hcore : ∀ {a d}, Core {} a → point a = some d → Core { owed := true } d)
    (hpoint : ∀ {a d}, Core {} a → point a = some d → d.around = a.around) (n : Nat)
    (h : Core {} e) : Core {} (Loop.loop n step e) ∧
      Piece now ((Loop.states n step e).flatMap fun a => (point a).toList) [] T e
        (Loop.loop n step e) := by
  refine loop (fun a => a) (fun a b ha hab => ?_) n h
  rw [heq] at hab
  obtain ⟨d, hd, rfl⟩ := Option.map_eq_some_iff.mp hab
  rw [hd]
  exact ⟨processQueue_core (hcore ha hd), (silent (hpoint ha hd)).trans (dispatch (hcore ha hd))⟩

end Piece

/-! ## What a call may do -/

/-- A put that was started is over. -/
def clearPut (e : Engine) (c : ConnId) : Engine :=
  e.modConn c fun k => { k with pendingPut := none }

/-- The engine as a call begins: a client that closes no longer waits, and with a request
no put is left unfinished. -/
def begun (e : Engine) : EngineInput → Engine
  | .disconnect c => e.doRemoveWaitingConn c
  | .command c _ | .putRejected c _ => e.clearPut c
  | _ => e

/-- Only a put makes a job, the one its number was taken for; only a delete removes one,
the one it names, and a reserved job only for its holder. -/
def terms (e : Engine) (now : Nanos) (input : EngineInput) : Terms where
  makes id := match input with
    | .command c (.put ..) => id = (e.takePutId now c).2.1
    | _ => False
  removes id := match input with
    | .command c (.delete i) => id = i ∧
      ∀ j, e.jobs[id]? = some j → j.state = .reserved → j.reserver = some c
    | _ => False
  own d := match input with
    | .connect c | .disconnect c | .putStarted c _ => d = c
    | _ => False
  paced := ∀ c i, input ≠ .command c (.reserveJob i)

/-! ## Every call -/

section Calls

variable {timeout : Option Nat}

theorem takePutId_around (e : Engine) (now : Nanos) (c : ConnId) :
    (e.takePutId now c).1.around = (e.clearPut c).around := by
  unfold takePutId
  simp only
  split
  · rfl
  · exact connsetproducer_around (Engine.countOp _ _) c

/-- The number of a put is not in use. -/
theorem takePutId_unused (h : Inv e) : e.jobCore (e.takePutId now c).2.1 = none := by
  have hcores : (e.takePutId now c).1.jobCore = (e.clearPut c).jobCore :=
    congrArg (fun x => x.2.2.2.2) (takePutId_around e now c)
  refine (congrFun hcores _).symm.trans ?_
  exact Option.map_eq_none_iff.mpr (takePutId_spec now c h).2.1.unused

theorem cmdPut_piece {pri delay ttr : Nat} {body : Bytes} (h : Inv e) (hc : e.conns[c]? = some k)
    (hmakes : T.makes (e.takePutId now c).2.1) :
    Piece now (e.putDispatches now c pri delay ttr body) [c] T (e.clearPut c)
      (e.cmdPut now c pri delay ttr body) := by
  obtain ⟨h₁, hid, hu⟩ := takePutId_spec now c h
  have htake := takePutId_around e now c
  unfold cmdPut putDispatches
  generalize e.takePutId now c = r at h₁ hid hu htake hmakes ⊢
  obtain ⟨e₁, id, createdAt⟩ := r
  simp only at h₁ hid hu htake hmakes ⊢
  split
  · exact .silentReply htake fun _ => rfl
  obtain ⟨ts, hlive⟩ := putTube_live h₁ hu hc
  generalize hjob : e₁.newJob id (e₁.useTubeOf c) pri delay ttr body createdAt = j
  have hj : j.id = id ∧ j.tube = e₁.useTubeOf c ∧ 1 ≤ j.ttr := by
    subst hjob
    exact ⟨rfl, rfl, Nat.le_max_right ..⟩
  rw [← hj.2.1] at hlive ⊢
  obtain ⟨hcore, -⟩ := putJob_ok h₁ hid hj.1 hj.2.2 hlive
  have hj₂ : (({ e₁ with jobs := e₁.jobs.insert id j } : Engine).modTube j.tube
      fun t => { t with jobRefCt := t.jobRefCt + 1 }).jobs[id]? = some j :=
    ExtTreeMap.getElem?_insert_self
  have hmade : Piece now [] [] T e₁ (({ e₁ with jobs := e₁.jobs.insert id j } : Engine).modTube
      j.tube fun t => { t with jobRefCt := t.jobRefCt + 1 }) :=
    (Piece.file (.inl hmakes) fun i hi => TreeMap.getElem?_insert_ne (Ne.symm hi) j).andSilent rfl
  generalize ({ e₁ with jobs := e₁.jobs.insert id j } : Engine).modTube j.tube
    (fun t => { t with jobRefCt := t.jobRefCt + 1 }) = e₂ at hcore hj₂ hmade ⊢
  have hcore₃ : Core { owed := true } ((e₂.enqueueJob now j.tube id delay).journalPut id) :=
    journalWith_core (enqueueJob_core hcore hj₂ rfl)
  have hplaced : Piece now [] [] T (e.clearPut c)
      ((e₂.enqueueJob now j.tube id delay).journalPut id) := by
    refine ((Piece.silent htake).trans hmade).andSilent ?_
    rw [journalPut, journalWith_around, enqueueJob_around]
  exact Piece.andReply ((hplaced.trans (.dispatch hcore₃)).andSilent rfl) fun _ => rfl

theorem cmdReserve_piece (h : Core {} e) (hc : e.conns[c]? = some k) (hk : k.waiting = false) :
    Piece now (e.reserveDispatches now c timeout) [c] T e (e.cmdReserve now c timeout) := by
  unfold cmdReserve reserveDispatches
  simp only
  generalize hset : connsetworker _ c = e₂
  have h₂ : Core {} e₂ := hset ▸ connsetworker_core (countOp_core h)
  have hready : e₂.around = e.around := by
    rw [← hset, connsetworker_around, countOp_around]
  obtain ⟨k₂, hc₂, hk₂⟩ : ∃ k₂, e₂.conns[c]? = some k₂ ∧ k₂.waiting = false :=
    hset ▸ connsetworker_conn hc hk
  split
  · exact .silentReply hready fun _ => rfl
  generalize hwait : e₂.enqueueWaitingConn c _ = e₃
  have h₃ : Core { owed := true } e₃ := hwait ▸ enqueueWaitingConn_core h₂ hc₂ hk₂
  have hasked : Piece now [] [c] T e₂ e₃ := hwait ▸ Piece.wait hc₂ hk₂ _
  have hserved : Piece now [e₃] [c] T e (e₃.processQueue now) :=
    ((Piece.silent hready).trans hasked).trans (.dispatch h₃)
  split
  · next hzero =>
    -- a zero timeout: who still waits is answered on the spot
    rw [Bool.and_eq_true] at hzero
    exact hserved.trans (.relief hzero.2 (by split <;> rfl))
  · exact hserved

theorem cmdReserveJob_piece (hT : ¬ T.paced) : Piece now [] [c] T e (e.cmdReserveJob now c id) := by
  unfold cmdReserveJob
  cases hj : e.jobs[id]? with
  | none => exact .reply e c fun _ => rfl
  | some j =>
    simp only
    split
    · exact .reply e c fun _ => rfl
    · exact .silentReply (by simp) fun hp => absurd hp hT

theorem finishDelete_piece (h : e'.around = e.around) (hid : T.removes id) :
    Piece now [] [c] T e (e'.finishDelete c tube id) := by
  have hforget : Piece now [] [] T e' (e'.forgetJob tube id) :=
    (Piece.file (.inr ⟨hid, ExtTreeMap.getElem?_erase_self⟩) fun i hi =>
      TreeMap.getElem?_erase_ne (Ne.symm hi)).andSilent rfl
  refine (((Piece.silent h).trans hforget).andSilent ?_).andReply fun _ => rfl
  rw [gcTubeIfOrphan_around, journalDelete_around]

theorem cmdDelete_piece (hremoves : (∀ j, e.jobs[id]? = some j → j.state = .reserved →
    j.reserver = some c) → T.removes id) : Piece now [] [c] T e (e.cmdDelete c id) := by
  unfold cmdDelete
  simp only
  cases hj : (e.countOp fun o => { o with delete := inc64 o.delete }).jobs[id]? with
  | none => exact .silentReply rfl fun _ => rfl
  | some j =>
    have hself (j' : JobRec) (hj' : e.jobs[id]? = some j') : j = j' := Option.some.inj (hj ▸ hj')
    simp only
    split
    · split
      · next hres =>
        refine finishDelete_piece (by simp) (hremoves fun j' hj' _ => ?_)
        exact hself j' hj' ▸ hres
      · exact .silentReply rfl fun _ => rfl
    · next hfree =>
      refine finishDelete_piece (by simp) (hremoves fun j' hj' hst => ?_)
      exact absurd hst (hself j' hj' ▸ hfree)

theorem cmdRelease_piece {pri delay : Nat} (h : Core {} e) :
    Piece now (e.releaseDispatches now c id pri delay) [c] T e
      (e.cmdRelease now c id pri delay) := by
  unfold cmdRelease releaseDispatches
  simp only
  cases hr : (e.countOp fun o => { o with release := inc64 o.release }).reservedBy c id with
  | none => exact .silentReply rfl fun _ => rfl
  | some t =>
    obtain ⟨h₁, j, hj, ht⟩ := unreserve_mod (countOp_core h) hr
      (f := fun j => { j with pri := pri, delay := delay, releaseCt := inc32 j.releaseCt })
      fun _ => rfl
    have hcore : Core { owed := true } (enqueueJob _ now t id delay) := enqueueJob_core h₁ hj ht
    simp only
    generalize hplaced : enqueueJob _ now t id delay = e₁ at hcore ⊢
    have haround : e₁.around = e.around := by
      rw [← hplaced, enqueueJob_around, modJob_around, doUnreserve_around, countOp_around]
      exact fun _ => rfl
    refine .andReply ?_ fun _ => rfl
    split
    · refine .trans (.silent ?_) (.dispatch (journalWith_core hcore))
      rw [journalUpdate, journalWith_around, haround]
    · exact .trans (.silent haround) (.dispatch hcore)

theorem cmdBury_piece {pri : Nat} : Piece now [] [c] T e (e.cmdBury c id pri) := by
  unfold cmdBury
  simp only
  split
  · exact .silentReply rfl fun _ => rfl
  refine .silentReply ?_ fun _ => rfl
  rw [journalUpdate, journalWith_around, insertBuried_around, modJob_around, doUnreserve_around,
    countOp_around]
  exact fun _ => rfl

theorem cmdTouch_piece : Piece now [] [c] T e (e.cmdTouch now c id) := by
  unfold cmdTouch
  simp only
  split
  · refine .silentReply ?_ fun _ => rfl
    rw [refreshConnTick_around, modConn_around, modJob_around, countOp_around]
    · exact fun _ => by simp only [JobRec.fixed]
    · exact fun _ => ⟨rfl, rfl⟩
  · exact .silentReply rfl fun _ => rfl

theorem reviveBuried_around (h : Core {} e) (hstep : reviveBuried tube e = some e') :
    e'.around = e.around := by
  obtain ⟨⟨id, e₁⟩, hpop, rfl⟩ := Option.map_eq_some_iff.mp hstep
  obtain ⟨j, -, -, -, rfl⟩ := popBuriedFront_spec h hpop
  exact revive_around (e.unbury tube j.listSeq) tube id

theorem reviveDelayed_around (hstep : reviveDelayed tube e = some e') : e'.around = e.around := by
  obtain ⟨⟨d, id⟩, -, rfl⟩ := Option.map_eq_some_iff.mp hstep
  rw [revive_around]
  exact removeFrom_around e tube id .delayed

theorem kickLoop_loop (step : Engine → Option Engine) (n : Nat) (e : Engine) (count : Nat) :
    (kickLoop step n e count).1 = Loop.loop n step e := by
  induction n generalizing e count with
  | zero => rfl
  | succ n ih =>
    unfold kickLoop
    cases hs : step e with
    | none => rw [Loop.loop_none hs]
    | some e₁ => rw [Loop.loop_some hs]; exact ih e₁ (count + 1)

theorem cmdKick_piece {n : Nat} (h : Core {} e) :
    Piece now (e.kickDispatches now c n) [c] T e (e.cmdKick now c n) := by
  unfold cmdKick kickDispatches
  simp only
  have h₁ : Core {} (e.countOp fun o => { o with kick := inc64 o.kick }) := countOp_core h
  have hcount : Piece now [] [] T e (e.countOp fun o => { o with kick := inc64 o.kick }) :=
    .silent rfl
  refine .andReply ?_ fun _ => rfl
  rw [kickLoop_loop]
  split
  · exact hcount.trans (Piece.dispatchLoop (fun a => kickBuried_eq a now _) reviveBuried_core
      reviveBuried_around n h₁).2
  · exact hcount.trans (Piece.dispatchLoop (fun a => kickDelayed_eq a now _) reviveDelayed_core
      (fun _ => reviveDelayed_around) n h₁).2

/-- A job that was taken out of its tube is kicked. -/
theorem kickToReady_piece (hj : e.jobs[id]? = some j) (hs : Same e e₁)
    (h : Core { limbo := some id } e₁) (haround : e₁.around = e.around) :
    Piece now [e₁.revive j.tube id] [] T e (e₁.kickToReady j.tube id now) := by
  obtain ⟨j', hj', hfix⟩ := hs.job_some hj
  have hcore : Core { owed := true } (e₁.revive j.tube id) :=
    revive_core h hj' (congrArg JobCore.tube hfix)
  exact (Piece.silent ((revive_around e₁ j.tube id).trans haround)).trans (.dispatch hcore)

theorem cmdKickJob_piece (h : Core {} e) :
    Piece now (e.kickJobDispatches id) [c] T e (e.cmdKickJob now c id) := by
  unfold cmdKickJob kickJobDispatches
  cases hj : e.jobs[id]? with
  | none => exact .reply e c fun _ => rfl
  | some j =>
    cases hst : j.state with
    | buried =>
      simp only [hst]
      exact (kickToReady_piece hj (removeBuried_same e j.tube id) (removeBuried_core h hj hst rfl)
        (removeFrom_around e j.tube id .buried)).andReply fun _ => rfl
    | delayed =>
      simp only [hst]
      exact (kickToReady_piece hj (removeDelayed_same e j.tube id) (removeDelayed_core h hj hst rfl)
        (removeFrom_around e j.tube id .delayed)).andReply fun _ => rfl
    | ready | reserved =>
      simp only [hst]
      exact .reply e c fun _ => rfl

theorem cmdUse_piece {name : TubeName} : Piece now [] [c] T e (e.cmdUse c name) := by
  unfold cmdUse dropUse
  simp only
  generalize hr : findOrMakeTube _ name = r
  have hmake : r.1.around = e.around := hr ▸ findOrMakeTube_around _ name
  refine .silentReply (Eq.trans ?_ hmake) fun _ => rfl
  split
  · rw [modConn_around, modTube_around, gcTubeIfOrphan_around, modTube_around]
    exact fun _ => ⟨rfl, rfl⟩
  · rfl

theorem cmdWatch_piece {name : TubeName} : Piece now [] [c] T e (e.cmdWatch c name) := by
  unfold cmdWatch
  simp only
  generalize hr : findOrMakeTube _ name = r
  have hmake : r.1.around = e.around := hr ▸ findOrMakeTube_around _ name
  refine .silentReply (Eq.trans ?_ hmake) fun _ => rfl
  split
  · rw [modTube_around]
    exact modConn_around _ c fun _ => ⟨rfl, rfl⟩
  · rfl

theorem cmdIgnore_piece {name : TubeName} : Piece now [] [c] T e (e.cmdIgnore c name) := by
  unfold cmdIgnore dropWatch
  simp only
  split
  · exact .silentReply rfl fun _ => rfl
  split
  · exact .silentReply rfl fun _ => rfl
  refine .silentReply ?_ fun _ => rfl
  rw [gcTubeIfOrphan_around, modTube_around]
  exact modConn_around _ c fun _ => ⟨rfl, rfl⟩

theorem cmdPauseTube_piece {name : TubeName} {delay : Nat} (h : Core {} e) :
    Piece now [] [c] T e (e.cmdPauseTube now c name delay) := by
  unfold cmdPauseTube
  simp only
  split
  · exact .silentReply rfl fun _ => rfl
  next t hname =>
  split
  · next hnone =>
    -- the directory lists live tubes only
    obtain ⟨p, hsig⟩ := h.dir.ids hname
    obtain ⟨ts, hts, -⟩ := Slab.view_eq_some_iff.mp hsig
    cases hnone.symm.trans hts
  · exact .silentReply rfl fun _ => rfl

theorem peekUsedTube_quiet (e : Engine) (c : ConnId) (pick : TubeState → Option JobId) :
    servedIn [(c, e.peekUsedTube c pick)] = [] := by
  unfold peekUsedTube
  split <;> rfl

theorem clearPut_eq (h : ∀ k, e.conns[c]? = some k → k.pendingPut = none) : e.clearPut c = e := by
  have hsame : e.conns.modify c (fun k => { k with pendingPut := none }) = e.conns :=
    TreeMap.modify_eq fun k hk => by rw [← h k hk]
  rw [clearPut, modConn, hsame]

theorem handle_piece {cmd : Command} (h : Inv e) (hc : e.conns[c]? = some k)
    (hmay : ClientMay k (.command c cmd)) (hcmd : cmd ≠ .quit) :
    Piece now (e.dispatches now (.command c cmd)) [c] (e.terms now (.command c cmd)) (e.clearPut c)
      (e.handle now c cmd) := by
  have hin : e.conns.contains c = true := TreeMap.contains_of hc
  -- nothing but a put may end a put
  have hclear (hcmd : ∀ p, ¬Completes p (.command c cmd)) : e.clearPut c = e := by
    refine clearPut_eq fun k' hk' => Option.eq_none_iff_forall_ne_some.mpr fun p hp => ?_
    cases hc.symm.trans hk'
    exact hcmd p (hmay.2 p hp)
  simp only [handle, dispatches, hin, if_true]
  by_cases hput : ∃ p, Completes p (.command c cmd)
  · cases cmd with
    | put pri delay ttr body => exact cmdPut_piece h hc rfl
    | _ => exact hput.elim fun _ hp => hp.elim
  rw [hclear fun p hp => hput ⟨p, hp⟩]
  cases cmd with
  | put => exact absurd ⟨⟨some 0, 0⟩, rfl⟩ hput
  | use tube => exact cmdUse_piece
  | reserve | reserveWithTimeout => exact cmdReserve_piece h.core hc hmay.1
  | reserveJob id => exact cmdReserveJob_piece fun hp => hp c id rfl
  | delete id => exact cmdDelete_piece fun hfree => ⟨rfl, hfree⟩
  | release id pri delay => exact cmdRelease_piece h.core
  | bury id pri => exact cmdBury_piece
  | touch id => exact cmdTouch_piece
  | watch tube => exact cmdWatch_piece
  | ignore tube => exact cmdIgnore_piece
  | kick n => exact cmdKick_piece h.core
  | kickJob id => exact cmdKickJob_piece h.core
  | quit => exact absurd rfl hcmd
  | pauseTube tube delay => exact cmdPauseTube_piece h.core
  | peekReady | peekDelayed | peekBuried =>
    exact .silentReply rfl fun _ => peekUsedTube_quiet ..
  | peek | statsJob | statsTube => exact .silentReply rfl fun _ => by split <;> rfl
  | _ => exact .silentReply rfl fun _ => rfl

theorem foldl_dropWatch_around (l : List TubeId) : (l.foldl dropWatch e).around = e.around := by
  induction l generalizing e with
  | nil => rfl
  | cons t l ih =>
    rw [List.foldl_cons, ih, dropWatch, gcTubeIfOrphan_around, modTube_around]

/-- A connection that does not wait goes. -/
theorem removeConn_piece (hown : T.own c) (hidle : e.isWaiting c = false) :
    Piece now [] [] T e (e.removeConn c) := by
  cases hc : e.conns[c]? with
  | none =>
    rw [removeConn, hc]
    exact .silent rfl
  | some k =>
    rw [removeConn, hc]
    refine .relink hown rfl rfl rfl ?_ fun d hd => ?_
    · have hself : (e.conns.erase c)[c]? = none := ExtTreeMap.getElem?_erase_self
      rw [hidle]
      exact congrArg (·.any ConnState.waiting) hself
    · exact TreeMap.getElem?_erase_ne (Ne.symm hd)

theorem giveBacks_piece {l : List JobId} (h : Leaving c l e) (hnd : l.Nodup) :
    Piece now (giveBacks now c l e) [] T e (l.foldl (releaseOne now c) e) := by
  induction l generalizing e with
  | nil => exact .silent rfl
  | cons id l ih =>
    rw [List.nodup_cons] at hnd
    have hback : (giveBack c e id).around = e.around := by
      unfold giveBack
      simp only
      split <;> simp
    have hfirst : Piece now [giveBack c e id] [] T e (releaseOne now c e id) :=
      (Piece.silent hback).trans (.dispatch (giveBack_spec h).core)
    exact hfirst.trans (ih (releaseOne_leaving h hnd.1) hnd.2)

/-- A connection closes: it no longer waits, and its jobs are given back. -/
theorem disconnect_piece (h : Inv e) (hc : e.conns[c]? = some k) (hown : T.own c) :
    Piece now (e.disconnectDispatches now c) [] T (e.doRemoveWaitingConn c)
      (e.disconnect now c) := by
  have hin : e.conns.contains c = true := TreeMap.contains_of hc
  obtain ⟨k₁, k₂, e₂, hd⟩ := disconnect_spec now h hc
  have hback : Piece now (e.disconnectDispatches now c) [] T (e.doRemoveWaitingConn c) e₂ := by
    rw [disconnectDispatches, if_pos hin, hd.released]
    simp only [hd.stopped]
    exact giveBacks_piece hd.leaving hd.nodup
  rw [hd.eq]
  generalize hleft : dropUse _ _ = e₃
  have haround : e₃.around = e₂.around := by
    rw [← hleft, dropUse, gcTubeIfOrphan_around, modTube_around, foldl_dropWatch_around]
    exact modConn_around _ c fun _ => ⟨rfl, rfl⟩
  have hidle : e₃.isWaiting c = false := by
    rw [← hd.free.idle]
    exact congrFun (congrArg (fun x => x.2.2.1) haround) c
  simpa using (hback.andSilent haround).trans (removeConn_piece hown hidle)

theorem expire_around (h : Core {} e) (hstep : expire c now e = some e') :
    e'.around = e.around := by
  unfold expire at hstep
  split at hstep
  · cases hstep
  next d id hs =>
  obtain ⟨k, hc, hf⟩ := Option.bind_eq_some_iff.mp hs
  obtain ⟨j, hj, -⟩ := reserved_job h hc (TreeMap.first_eq_some_iff.mp hf).1
  split at hstep
  · cases hstep
  simp only [hj, Option.map_some, Option.some.injEq] at hstep
  subst hstep
  rw [insertReady_around, modJob_around]
  · exact doUnreserve_around e c id
  · exact fun _ => rfl

theorem timeoutOne_piece {s s' : Engine × ExtTreeSet ConnId} (h : Core {} s.1)
    (hstep : timeoutOne now s = some s') :
    Piece now (timeoutDispatches now s) [] T s.1 s'.1 := by
  unfold timeoutOne at hstep
  unfold timeoutDispatches
  cases hdue : s.1.nextDue now s.2 with
  | none =>
    rw [hdue] at hstep
    cases hstep
  | some c =>
    rw [hdue] at hstep
    cases hstep
    have hdrain := (Piece.dispatchLoop (T := T) (fun a => expireOne_eq c now a) expire_core
      expire_around (s.1.jobs.size + 2) h).2
    simp only [connTimeout]
    generalize Loop.loop (s.1.jobs.size + 2) (expireOne c now) s.1 = e₁ at hdrain ⊢
    have hanswer (hw : e₁.isWaiting c = true) {r : Response} (hr : servedIn [(c, r)] = []) :=
      hdrain.trans (.relief hw hr)
    rw [List.append_nil] at hanswer
    split
    · next hw =>
      rw [Bool.and_eq_true] at hw
      exact hanswer hw.1 rfl
    split
    · next hw =>
      rw [Bool.and_eq_true] at hw
      exact hanswer hw.1 rfl
    · exact hdrain

theorem wake_around (hstep : wake now e = some e') : e'.around = e.around := by
  unfold wake at hstep
  split at hstep
  · cases hstep
  next d tube id hs =>
  split at hstep
  · cases hstep
  cases hstep
  rw [insertReady_around]
  exact removeFrom_around e tube id .delayed

theorem tick_piece (h : Core {} e) : Piece now (e.tickDispatches now) [] T e (e.tick now) := by
  unfold tick tickDispatches runTimers
  split
  · obtain ⟨h₁, hwake⟩ := Piece.dispatchLoop (fun a => wakeOne_eq now a) wake_core
      (fun _ => wake_around) (e.jobs.size + 1) h
    simp only
    generalize Loop.loop (e.jobs.size + 1) (wakeOne now) e = e₁ at h₁ hwake ⊢
    generalize (TreeMap.first e₁.pauses).any _ = b
    obtain ⟨h₂, hpause⟩ : Core {} (if b then e₁.processQueue now else e₁) ∧
        Piece now (if b then [e₁] else []) [] T e₁ (if b then e₁.processQueue now else e₁) := by
      cases b with
      | true => exact ⟨processQueue_core h₁, .dispatch h₁⟩
      | false => exact ⟨h₁, .silent rfl⟩
    generalize (if b then e₁.processQueue now else e₁) = e₂ at h₂ hpause ⊢
    have hturn (a b : Engine × ExtTreeSet ConnId) (ha : Core {} a.1)
        (hab : timeoutOne now a = some b) :
        Core {} b.1 ∧ Piece now (timeoutDispatches now a) [] T a.1 b.1 :=
      ⟨timeoutOne_core ha hab, timeoutOne_piece ha hab⟩
    have hrest := Piece.loop Prod.fst hturn (e₂.conns.size + 1) (s := (e₂, ∅)) h₂
    exact (hwake.trans hpause).trans hrest.2
  · exact .silent rfl

theorem connect_piece (hown : T.own c) (hc : e.conns[c]? = none) :
    Piece now [] [] T e (e.connect c) := by
  refine .relink hown rfl rfl rfl ?_ fun d hd => TreeMap.getElem?_insert_ne (Ne.symm hd) _
  have hself : (e.connect c).conns[c]? = some (ConnState.new defaultTubeId) :=
    ExtTreeMap.getElem?_insert_self
  rw [isWaiting, isWaiting, hc, hself]
  rfl

theorem putStarted_piece {tooBig : Bool} (hown : T.own c) :
    Piece now [] [] T e (e.putStarted now c tooBig) := by
  unfold putStarted
  split
  · have hset (a : Engine) (p : PendingPut) :
        Piece now [] [] T a (a.modConn c fun k => { k with pendingPut := some p }) :=
      .relink hown rfl rfl rfl (isWaiting_congr (TreeMap.modify_map a.conns c c fun _ => rfl))
        fun _ hd => TreeMap.getElem?_modify_ne hd
    refine Piece.trans (.silent ?_) (hset _ _)
    cases tooBig with
    | true => rfl
    | false => exact connsetproducer_around (e.countOp _) c
  · exact .silent rfl

theorem putRejected_piece {why : PutRejection} (hc : e.conns[c]? = some k) :
    Piece now [] [c] T (e.clearPut c) (e.putRejected c why) := by
  unfold putRejected
  simp only [hc]
  refine .silentReply ?_ fun _ => by cases why <;> rfl
  split
  · rfl
  split
  · exact connsetproducer_around (Engine.countOp _ _) c
  · rfl

end Calls

/-! ## A call as a whole -/

section Whole

variable {input : EngineInput}

/-- The connection that becomes due a reply. -/
def asks (e : Engine) : EngineInput → List ConnId
  | .command c _ | .putRejected c _ => (e.conns[c]?.map fun _ => c).toList
  | _ => []

/-- Every call is a piece. -/
theorem call_piece (now : Nanos) (h : Inv e) (hadm : e.Admissible input) :
    Piece now (e.dispatches now input) (e.asks input) (e.terms now input) (e.begun input)
      (e.call now input) := by
  cases input with
  | connect c => exact connect_piece rfl hadm
  | disconnect c =>
    show Piece now (e.disconnectDispatches now c) [] _ (e.doRemoveWaitingConn c)
      (e.disconnect now c)
    cases hc : e.conns[c]? with
    | some k => exact disconnect_piece h hc rfl
    | none =>
      have hin : ¬e.conns.contains c = true := TreeMap.not_contains_of hc
      rw [disconnect_none now hc, doRemoveWaitingConn, hc, disconnectDispatches, if_neg hin]
      exact .silent rfl
  | halfClose c =>
    show Piece now [] [] _ e (e.halfClose c)
    unfold halfClose
    split
    · next hw => exact .relief hw rfl
    · exact .silent rfl
  | putStarted c tooBig => exact putStarted_piece rfl
  | putRejected c why =>
    show Piece now [] (e.conns[c]?.map fun _ => c).toList _ (e.clearPut c) (e.putRejected c why)
    cases hc : e.conns[c]? with
    | some k => exact putRejected_piece hc
    | none =>
      rw [putRejected, hc, clearPut_eq (by simp [hc])]
      exact .silent rfl
  | command c cmd =>
    show Piece now (e.dispatches now (.command c cmd)) (e.conns[c]?.map fun _ => c).toList _
      (e.clearPut c) (e.handle now c cmd)
    cases hc : e.conns[c]? with
    | some k => exact handle_piece h hc (hadm.2 k hc) hadm.1
    | none =>
      have hin : ¬e.conns.contains c = true := TreeMap.not_contains_of hc
      rw [clearPut_eq (by simp [hc])]
      simp only [handle, dispatches, hin]
      exact .silent rfl
  | tick => exact tick_piece h.core
  | setDraining on => exact .silent rfl

/-- What an input may make of the jobs: a put adds at most one, under a number that was not
in use, a delete takes away at most the one it names, if that is not reserved by another
connection, and otherwise the jobs are what they were. -/
def Conserves (e : Engine) (after : JobId → Option JobCore) : EngineInput → Prop
  | .command _ (.put ..) => ∃ new, e.jobCore new = none ∧ ∀ id, id ≠ new → after id = e.jobCore id
  | .command c (.delete named) => (∀ id, id ≠ named → after id = e.jobCore id) ∧
    (after named = e.jobCore named ∨ after named = none ∧
      ∀ j, e.jobs[named]? = some j → j.state = .reserved → j.reserver = some c)
  | _ => after = e.jobCore

theorem begun_frame (e : Engine) (input : EngineInput) :
    (e.begun input).localConns = e.localConns ∧ (e.begun input).out = e.out ∧
      (e.begun input).jobCore = e.jobCore := by
  unfold begun
  split
  · next c =>
    obtain ⟨_, _, _, _, _, hf⟩ := doRemoveWaitingConn_frame e c
    rw [hf]
    exact ⟨rfl, rfl, rfl⟩
  all_goals exact ⟨rfl, rfl, rfl⟩

theorem call_conserves (now : Nanos) (h : Inv e) (hadm : e.Admissible input) :
    e.Conserves (e.call now input).jobCore input := by
  have hcores := (call_piece now h hadm).cores
  rw [(begun_frame e input).2.2] at hcores
  unfold Conserves
  split
  · next c _ _ _ _ =>
    refine ⟨(e.takePutId now c).2.1, takePutId_unused h, fun id hid => ?_⟩
    exact (hcores id).resolve_right fun hmade => hmade.elim hid (·.1)
  · next c named =>
    refine ⟨fun id hid => (hcores id).resolve_right fun hgone => ?_, ?_⟩
    · exact hgone.elim (fun hmade => hmade) fun hgone => hid hgone.1.1
    refine (hcores named).imp_right fun hgone => ?_
    obtain ⟨⟨-, hfree⟩, hnone⟩ := hgone.resolve_left fun hmade => hmade
    exact ⟨hnone, hfree⟩
  · next hput hdelete =>
    refine funext fun id => (hcores id).resolve_right fun hchanged => ?_
    cases input with
    | command c cmd =>
      cases cmd with
      | put pri delay ttr body => exact hput c pri delay ttr body rfl
      | delete i => exact hdelete c i rfl
      | _ => exact hchanged.elim (fun h => h) (·.1)
    | _ => exact hchanged.elim (fun h => h) (·.1)

/-- One call, for a client that does not close. -/
theorem call_account (now : Nanos) (h : Inv e) (hadm : e.Admissible input)
    (hall : e.localConns = none) (hopen : input ≠ .disconnect d) :
    (e.call now input).account d = e.account d + (e.asks input).count d := by
  have hp := call_piece now h hadm
  obtain ⟨howners, hout, -⟩ := begun_frame e input
  have hd : (e.begun input).wantsReply d = true := by rw [wantsReply, howners, hall]
  have hwait : (e.begun input).isWaiting d = e.isWaiting d := by
    unfold begun
    split
    · next c =>
      have hc : d ≠ c := fun hdc => hopen (hdc ▸ rfl)
      exact congrArg (·.any ConnState.waiting) (doRemoveWaitingConn_conn hc)
    · exact isWaiting_congr (TreeMap.modify_map e.conns _ d fun _ => rfl)
    · exact isWaiting_congr (TreeMap.modify_map e.conns _ d fun _ => rfl)
    · rfl
  rw [hp.account d hd, account, account, hout, hwait]

end Whole

end Engine

end Beanstalkd
