import Beanstalkd.Engine.Timers

/-!
# Jobs come and go

`put` allocates an id, files a new job and counts a reference to its tube;
`delete` does the reverse. An id is allocated when the body of a put is about
to be read (`put_started`) and belongs to that connection's pending put until
the put completes, so a job is always filed under an id that no job has and no
other pending put holds.

A job just created or just about to go is in limbo, so the moves of
`Moves.lean` apply on one side and a plain insertion into, or removal from, the
job table on the other.
-/

open Std

namespace Beanstalkd

open Slab (setAt)

namespace Engine

variable {e e' : Engine} {c : ConnId} {k : ConnState} {tube : TubeId} {id : JobId} {j : JobRec}
  {now : Nanos} {o : List TubeId} {U : ExtTreeMap ConnId TubeId}
  {W : ExtTreeMap ConnId (List TubeId)}

/-! ## What `Same` keeps -/

theorem uses_same (h : Same e e') : e'.uses = e.uses :=
  TreeMap.map_of_map h.conns ConnCore.useTube

theorem watches_same (h : Same e e') : e'.watches = e.watches :=
  TreeMap.map_of_map h.conns fun k => k.watch.items

theorem homes_same (h : Same e e') : e'.homes = e.homes := TreeMap.map_of_map h.jobs JobCore.tube

theorem Refs.same (h : Refs o U W e) (hs : Same e e') : Refs o U W e' :=
  RefsOk.congr h (Slab.view_of_view hs.tubes Prod.snd) rfl rfl (homes_same hs)

/-- Moving jobs and waiters is nobody's business but `Core`'s. -/
theorem Inv.of_same (h : Inv e) (hc : Core {} e') (hs : Same e e') : Inv e' where
  core := hc
  refs := by
    have hr : Refs [] e.uses e.watches e' := Refs.same h.refs hs
    rw [← uses_same hs, ← watches_same hs] at hr
    exact hr
  watching := by
    rw [watches_same hs]
    exact h.watching
  allocated := by
    rw [hs.nextJobId]
    exact h.allocated

/-- The references depend on the counts, the uses, the watches and the homes. -/
theorem Inv.of_frame (h : Inv e) (hc : Core {} e')
    (ht : Slab.view TubeState.refCts e'.tubes = Slab.view TubeState.refCts e.tubes)
    (hu : e'.uses = e.uses) (hw : e'.watches = e.watches) (hh : e'.homes = e.homes)
    (hn : e.nextJobId ≤ e'.nextJobId) : Inv e' where
  core := hc
  refs := h.refs.congr ht hu hw hh
  watching := by
    rw [hw]
    exact h.watching
  allocated := Nat.le_trans h.allocated hn

theorem reply_inv {r : Response} (h : Inv e) : Inv (e.reply c r) :=
  h.of_same (reply_core h.core) (reply_same e c r)

theorem useTubeOf_eq (e : Engine) (c : ConnId) :
    e.useTubeOf c = e.uses[c]?.getD defaultTubeId := by
  rw [useTubeOf, uses, ExtTreeMap.getElem?_map]
  cases e.conns[c]? <;> rfl

/-! ## Job ids -/

/-- `id` is allocated, and neither a job's nor a pending put's. -/
structure FreshId (e : Engine) (id : JobId) : Prop where
  below : id < e.nextJobId
  unused : e.jobs[id]? = none
  unheld : ∀ c : ConnId, (e.conns.map fun _ k => ConnState.pendingId k)[c]? ≠ some (some id)

/-- The next id, once allocated, is fresh. -/
theorem alloc_core (h : Core {} e) : Core {} { e with nextJobId := e.nextJobId + 1 } ∧
    FreshId { e with nextJobId := e.nextJobId + 1 } e.nextJobId := by
  refine ⟨{ h with
    jobs := fun i j hj => { h.jobs i j hj with below := Nat.lt_succ_of_lt (h.jobs i j hj).below }
    pending := ⟨fun hc => Nat.lt_succ_of_lt (h.pending.below hc), h.pending.unused,
      h.pending.distinct⟩ }, Nat.lt_succ_self _, ?_, fun c hc => ?_⟩
  · cases hj : e.jobs[e.nextJobId]? with
    | none => rfl
    | some j => exact absurd (h.jobs _ j hj).below (Nat.lt_irrefl _)
  · exact absurd (h.pending.below hc) (Nat.lt_irrefl _)

/-- A pending put is replaced by `p`, whose id, if any, is fresh. -/
theorem setPending_core {p : Option PendingPut} (h : Core {} e)
    (hp : ∀ i, p.bind PendingPut.id = some i → FreshId e i) :
    Core {} (e.modConn c fun k => { k with pendingPut := p }) := by
  cases hc : e.conns[c]? with
  | none =>
    rw [modConn, TreeMap.modify_of_none hc]
    exact h
  | some k =>
    have hpend : PendOk ((e.conns.map fun _ k => ConnState.pendingId k).insert c
        (p.bind PendingPut.id)) e.jobs e.nextJobId := by
      refine ⟨fun hi => ?_, fun hi => ?_, fun hi hi' => ?_⟩
      · rw [ExtTreeMap.getElem?_insert] at hi
        split at hi
        · exact (hp _ (Option.some.inj hi)).below
        · exact h.pending.below hi
      · rw [ExtTreeMap.getElem?_insert] at hi
        split at hi
        · exact (hp _ (Option.some.inj hi)).unused
        · exact h.pending.unused hi
      · rw [ExtTreeMap.getElem?_insert] at hi hi'
        split at hi <;> split at hi'
        · next h₁ h₂ =>
          rw [← LawfulEqOrd.eq_of_compare h₁, ← LawfulEqOrd.eq_of_compare h₂]
        · exact absurd hi' ((hp _ (Option.some.inj hi)).unheld _)
        · exact absurd hi ((hp _ (Option.some.inj hi')).unheld _)
        · exact h.pending.distinct hi hi'
    exact { h with
      placed := h.placed.congr rfl (TreeMap.map_modify fun _ => rfl) rfl
      pending := hpend.congr (TreeMap.map_modify_at hc _ _) fun _ hj => hj
      watched := h.watched.congr rfl (TreeMap.map_modify fun _ => rfl)
      queued := h.queued.congr rfl (TreeMap.map_modify fun _ => rfl)
      ticks := h.ticks.congr (TreeMap.map_modify fun _ => rfl)
      conns := h.conns.congr (TreeMap.map_modify fun _ => rfl)
        (TreeMap.map_modify fun _ => rfl) }

/-! ## The job table -/

/-- A new job, not yet filed. -/
theorem insertJob_core (h : Core {} e) (hid : FreshId e id) (hj : j.id = id) (ht : 1 ≤ j.ttr)
    (hlive : ∃ ts, Slab.get e.tubes j.tube = some ts) :
    Core { limbo := some id } { e with jobs := e.jobs.insert id j } := by
  have hplaces : places (some id) (e.jobs.insert id j) = places none e.jobs := by
    ext i : 1
    rw [getElem?_places, places_none, ExtTreeMap.getElem?_insert]
    by_cases hi : id = i
    · subst hi
      simp [hid.unused]
    · simp [hi]
  exact { h with
    placed := h.placed.congr rfl rfl hplaces
    jobs := by
      intro i j' hj'
      rcases (TreeMap.insert_eq_some_iff hid.unused).mp hj' with ⟨rfl, rfl⟩ | hj'
      · exact ⟨hj, hid.below, ht, fun hne => absurd rfl hne⟩
      · exact { h.jobs i j' hj' with holder := fun _ => (h.jobs i j' hj').holder nofun }
    pending := by
      refine ⟨h.pending.below, fun {c i} hc => ?_, h.pending.distinct⟩
      rw [ExtTreeMap.getElem?_insert]
      split
      · next he =>
        rw [← LawfulEqOrd.eq_of_compare he] at hc
        exact absurd hc (hid.unheld c)
      · exact h.pending.unused hc
    housed := by
      intro i j' hj'
      rcases (TreeMap.insert_eq_some_iff hid.unused).mp hj' with ⟨rfl, rfl⟩ | hj'
      · obtain ⟨ts, hts⟩ := hlive
        exact ⟨_, Slab.view_of_get hts⟩
      · exact h.housed i j' hj' }

/-- A job in limbo goes. -/
theorem eraseJob_core {w : Bool} (h : Core { limbo := some id, owed := w } e) :
    Core { owed := w } { e with jobs := e.jobs.erase id } := by
  have hplaces : places none (e.jobs.erase id) = places (some id) e.jobs := by
    ext i : 1
    rw [places_none, getElem?_places, ExtTreeMap.getElem?_erase]
    by_cases hi : id = i
    · subst hi
      simp
    · simp [hi]
  exact { h with
    placed := h.placed.congr rfl rfl hplaces
    jobs := by
      intro i j hj
      obtain ⟨hi, hj⟩ := TreeMap.erase_eq_some_iff.mp hj
      exact { h.jobs i j hj with
        holder := fun _ => (h.jobs i j hj).holder fun he => hi (Option.some.inj he).symm }
    pending := h.pending.congr rfl fun i hi => by
      rw [ExtTreeMap.getElem?_erase]
      split
      · rfl
      · exact hi
    housed := fun i j hj => h.housed i j (TreeMap.erase_eq_some_iff.mp hj).2 }

/-! ## Reference counts of jobs -/

theorem homes_insert (e : Engine) (id : JobId) (j : JobRec) :
    ({ e with jobs := e.jobs.insert id j } : Engine).homes = e.homes.insert id j.tube :=
  TreeMap.map_insert ..

theorem homes_erase (e : Engine) (id : JobId) :
    ({ e with jobs := e.jobs.erase id } : Engine).homes = e.homes.erase id := TreeMap.map_erase ..

/-! ## Putting -/

theorem pendingId_of_conn (hc : e.conns[c]? = some k) :
    (e.conns.map fun _ k => ConnState.pendingId k)[c]? = some k.pendingId := TreeMap.map_of hc

/-- Completing a pending put frees its id for the job. -/
theorem clearPending_inv (h : Inv e) : Inv (e.modConn c fun k => { k with pendingPut := none }) :=
  h.of_frame (setPending_core h.core nofun) rfl (TreeMap.map_modify fun _ => rfl)
    (TreeMap.map_modify fun _ => rfl) rfl (Nat.le_refl _)

theorem clearPending_fresh (h : Inv e) (hc : e.conns[c]? = some k) (hp : k.pendingId = some id) :
    FreshId (e.modConn c fun k => { k with pendingPut := none }) id := by
  have hpend := pendingId_of_conn hc
  rw [hp] at hpend
  refine ⟨h.core.pending.below hpend, h.core.pending.unused hpend, fun c' hc' => ?_⟩
  rw [modConn, TreeMap.map_modify_at hc, ExtTreeMap.getElem?_insert] at hc'
  split at hc'
  · cases hc'
  next hne =>
  have := h.core.pending.distinct hpend hc'
  rw [this, ReflOrd.compare_self] at hne
  exact hne rfl

/-- A newly allocated id. -/
theorem alloc_inv (h : Inv e) : Inv { e with nextJobId := e.nextJobId + 1 } :=
  h.of_frame (alloc_core h.core).1 rfl rfl rfl rfl (Nat.le_succ _)

/-- A put completes under a fresh id, with its connection using what it used. -/
theorem takePutId_spec (now : Nanos) (c : ConnId) (h : Inv e) :
    Inv (e.takePutId now c).1 ∧ FreshId (e.takePutId now c).1 (e.takePutId now c).2.1 ∧
      (e.takePutId now c).1.uses = e.uses := by
  have h₁ : Inv (e.modConn c fun k => { k with pendingPut := none }) := clearPending_inv h
  have hu : (e.modConn c fun k => { k with pendingPut := none }).uses = e.uses :=
    TreeMap.map_modify fun _ => rfl
  unfold takePutId
  simp only
  split
  · next id createdAt hp =>
    obtain ⟨k, hc, hk⟩ := Option.bind_eq_some_iff.mp hp
    exact ⟨h₁, clearPending_fresh h hc (by rw [ConnState.pendingId, hk]; rfl), hu⟩
  have hsame := (countOp_same (e.modConn c fun k => { k with pendingPut := none })
    fun o => { o with put := inc64 o.put }).trans (connsetproducer_same _ c)
  have h₂ := h₁.of_same (connsetproducer_core (countOp_core h₁.core)) hsame
  exact ⟨alloc_inv h₂, (alloc_core h₂.core).2, (uses_same hsame).trans hu⟩

/-- A put files a new job in a tube that exists. -/
theorem putJob_ok (h : Inv e) (hid : FreshId e id) (hj : j.id = id) (ht : 1 ≤ j.ttr)
    {ts : TubeState} (hlive : Slab.get e.tubes j.tube = some ts) :
    Core { limbo := some id } (({ e with jobs := e.jobs.insert id j } : Engine).modTube j.tube
        fun t => { t with jobRefCt := t.jobRefCt + 1 }) ∧
      Refs [] e.uses e.watches (({ e with jobs := e.jobs.insert id j } : Engine).modTube j.tube
        fun t => { t with jobRefCt := t.jobRefCt + 1 }) := by
  refine ⟨modTube_core (insertJob_core h.core hid hj ht ⟨ts, hlive⟩) fun _ => rfl, ?_⟩
  have hhome : e.homes[id]? = none := by
    rw [homes, ExtTreeMap.getElem?_map, hid.unused]
    rfl
  have hr : RefsOk [] _ _ _ _ := RefsOk.home h.refs (Slab.view_of_get hlive) hhome (by simp)
  exact hr.congr (Slab.view_modify_at _ _ hlive) rfl rfl (homes_insert ..)

/-- A new job is queued, handed out and counted. -/
theorem finishPut_core {delay : Nat} (h : Core { limbo := some id } e) (hj : e.jobs[id]? = some j)
    (ht : j.tube = tube) : Core {} (e.finishPut now c tube id delay) := by
  have h₁ : Core {} (((e.enqueueJob now tube id delay).journalPut id).processQueue now) :=
    processQueue_core (journalWith_core (enqueueJob_core h hj ht))
  exact reply_core (modTube_core { h₁ with } fun _ => rfl)

theorem finishPut_same (e : Engine) (now : Nanos) (c : ConnId) (t : TubeId) (i : JobId)
    (delay : Nat) : Same e (e.finishPut now c t i delay) := by
  refine Same.trans ?_ (reply_same _ c _)
  refine Same.trans ?_ (modTube_same _ t fun _ => rfl)
  have h : Same e (((e.enqueueJob now t i delay).journalPut i).processQueue now) :=
    ((enqueueJob_same e now t i delay).trans (journalWith_same _ i _)).trans
      (processQueue_same _ now)
  exact { h with }

/-- The tube of a put exists. -/
theorem putTube_live {e₁ : Engine} (h : Inv e₁) (hu : e₁.uses = e.uses)
    (hc : e.conns[c]? = some k) : ∃ ts, Slab.get e₁.tubes (e₁.useTubeOf c) = some ts := by
  have hu₁ : e₁.uses[c]? = some (e₁.useTubeOf c) := by
    rw [useTubeOf_eq, hu, uses, ExtTreeMap.getElem?_map, hc]
    rfl
  obtain ⟨r, hr⟩ := h.refs.use_live hu₁
  obtain ⟨ts, hlive, -⟩ := Slab.view_eq_some_iff.mp hr
  exact ⟨ts, hlive⟩

theorem cmdPut_inv {pri delay ttr : Nat} {body : Bytes} (h : Inv e) (hc : e.conns[c]? = some k) :
    Inv (e.cmdPut now c pri delay ttr body) := by
  obtain ⟨h₁, hid, hu⟩ := takePutId_spec now c h
  unfold cmdPut
  generalize e.takePutId now c = r at h₁ hid hu ⊢
  obtain ⟨e₁, id, createdAt⟩ := r
  simp only at h₁ hid hu ⊢
  split
  · exact reply_inv h₁
  obtain ⟨ts, hlive⟩ := putTube_live h₁ hu hc
  generalize hjob : e₁.newJob id (e₁.useTubeOf c) pri delay ttr body createdAt = j
  have hj : j.id = id ∧ j.tube = e₁.useTubeOf c ∧ 1 ≤ j.ttr := by
    subst hjob
    exact ⟨rfl, rfl, Nat.le_max_right ..⟩
  rw [← hj.2.1] at hlive ⊢
  obtain ⟨hcore, hrefs⟩ := putJob_ok h₁ hid hj.1 hj.2.2 hlive
  have hsame := finishPut_same (({ e₁ with jobs := e₁.jobs.insert id j } : Engine).modTube j.tube
    fun t => { t with jobRefCt := t.jobRefCt + 1 }) now c j.tube id delay
  have hrefs' := Refs.same hrefs hsame
  refine ⟨finishPut_core hcore ExtTreeMap.getElem?_insert_self rfl, ?_, ?_, ?_⟩
  · rw [uses_same hsame, watches_same hsame]
    exact hrefs'
  · rw [watches_same hsame]
    exact h₁.watching
  · rw [hsame.nextJobId]
    exact h₁.allocated

theorem putStarted_inv {tooBig : Bool} (h : Inv e) : Inv (e.putStarted now c tooBig) := by
  unfold putStarted
  split
  · have h₁ : Inv (e.countOp fun o => { o with put := inc64 o.put }) :=
      h.of_same (countOp_core h.core) (countOp_same e _)
    cases tooBig with
    | true =>
      exact h₁.of_frame (setPending_core h₁.core nofun) rfl (TreeMap.map_modify fun _ => rfl)
        (TreeMap.map_modify fun _ => rfl) rfl (Nat.le_refl _)
    | false =>
      have h₂ := h₁.of_same (connsetproducer_core h₁.core) (connsetproducer_same _ c)
      obtain ⟨hcore, hid⟩ := alloc_core h₂.core
      refine (alloc_inv h₂).of_frame (setPending_core hcore fun i hi => ?_) rfl
        (TreeMap.map_modify fun _ => rfl) (TreeMap.map_modify fun _ => rfl) rfl
        (Nat.le_refl _)
      cases hi
      exact hid
  · exact h

theorem putRejected_inv {why : PutRejection} (h : Inv e) : Inv (e.putRejected c why) := by
  unfold putRejected
  split
  · exact h
  next k _ =>
  have h₁ : Inv (e.modConn c fun k => { k with pendingPut := none }) := clearPending_inv h
  apply reply_inv
  split
  · exact h₁
  have h₂ : Inv ((e.modConn c fun k => { k with pendingPut := none }).countOp
      fun o => { o with put := inc64 o.put }) :=
    h₁.of_same (countOp_core h₁.core) (countOp_same _ _)
  split
  · exact alloc_inv (h₂.of_same (connsetproducer_core h₂.core) (connsetproducer_same _ c))
  · exact h₂

/-! ## Deleting -/

/-- A tube that may be an orphan is looked at, and the references are settled. -/
theorem collect_inv (h : Core {} e) (hr : Refs [tube] e.uses e.watches e)
    (hw : ∀ (c : ConnId) (w : List TubeId), e.watches[c]? = some w → w ≠ [])
    (hn : 1 ≤ e.nextJobId) : Inv (e.gcTubeIfOrphan tube) := by
  obtain ⟨hc, hr'⟩ := gcTubeIfOrphan_ok h hr fun c w hw hm => ⟨c, w, hw, hm⟩
  obtain ⟨_, _, _, _, _, _, _, hf⟩ := gcTubeIfOrphan_frame e tube
  rw [hf] at hc hr' ⊢
  exact ⟨hc, hr', hw, hn⟩

theorem forgetJob_core (h : Core { limbo := some id } e) : Core {} (e.forgetJob tube id) := by
  have h₁ : Core { limbo := some id } (e.modTube tube fun t =>
      { t with stat := { t.stat with totalDeleteCt := inc64 t.stat.totalDeleteCt }
               jobRefCt := t.jobRefCt - 1 }) :=
    modTube_core h fun _ => rfl
  exact eraseJob_core h₁

/-- A job taken out of its container goes, and maybe its tube with it. -/
theorem finishDelete_inv (h : Inv e) (hs : Same e e') (hcore : Core { limbo := some id } e')
    (hj : e.jobs[id]? = some j) : Inv (e'.finishDelete c j.tube id) := by
  obtain ⟨j', hj', hfix⟩ := hs.job_some hj
  have htube : j'.tube = j.tube := congrArg JobCore.tube hfix
  obtain ⟨ts, hts⟩ := hcore.home hj' htube
  have hrefs : Refs [] e'.uses e'.watches e' := by
    rw [uses_same hs, watches_same hs]
    exact Refs.same h.refs hs
  have hhome : e'.homes[id]? = some j.tube := htube ▸ homes_of_job hj'
  have hcore₁ : Core {} (e'.forgetJob j.tube id) := forgetJob_core hcore
  have hrefs₁ : Refs [j.tube] e'.uses e'.watches (e'.forgetJob j.tube id) :=
    (RefsOk.unhome hrefs (Slab.view_of_get hts) hhome).congr (Slab.view_modify_at _ _ hts) rfl rfl
      (homes_erase e' id)
  have hwatch := h.watching
  have hnext := h.allocated
  rw [← watches_same hs] at hwatch
  rw [← hs.nextJobId] at hnext
  unfold finishDelete
  simp only
  obtain ⟨_, hf⟩ := journalDelete_frame (e'.forgetJob j.tube id) id
  rw [hf]
  exact reply_inv (collect_inv { hcore₁ with } hrefs₁ hwatch hnext)

theorem cmdDelete_inv (h : Inv e) : Inv (e.cmdDelete c id) := by
  unfold cmdDelete
  have h₁ : Inv (e.countOp fun o => { o with delete := inc64 o.delete }) :=
    h.of_same (countOp_core h.core) (countOp_same e _)
  simp only
  split
  · exact reply_inv h₁
  next j hj =>
  split
  · next hst =>
    split
    · next hres =>
      exact finishDelete_inv h₁ (doUnreserve_same _ c id)
        (doUnreserve_core h₁.core hj hst hres) hj
    · exact reply_inv h₁
  · next hst =>
    exact finishDelete_inv h₁ (removeFrom_same _ _ _ id) (removeFrom_core h₁.core hj hst) hj

end Engine

end Beanstalkd
