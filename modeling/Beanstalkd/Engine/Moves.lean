import Beanstalkd.Engine.Invariant

/-!
# Moving a job keeps the invariant

One lemma for each primitive of `Queue.lean` that takes a job out of a
container, changes it in limbo, or files it again. A removal leads from
`Core {}` to `Core {limbo := some id}`, an insertion back; the `refresh_*`
helper at the end of each restores the index it is about. A job that becomes
ready leaves a dispatch owed; nothing else does, and only the dispatch loop
pays it off.
-/

open Std

namespace Beanstalkd

/-! ## One job's record changes -/

section Jobs

variable {jobs : ExtTreeMap JobId JobRec} {id : JobId} {f : JobRec → JobRec} {n : Nat}

theorem modify_place_ne (jobs : ExtTreeMap JobId JobRec) (id : JobId) (f : JobRec → JobRec)
    (i : JobId) (h : i ≠ id) :
    (jobs.modify id f)[i]?.map JobRec.place = jobs[i]?.map JobRec.place := by
  rw [TreeMap.getElem?_modify_ne h]

theorem modify_none (i : JobId) (h : jobs[i]? = none) : (jobs.modify id f)[i]? = none := by
  rw [ExtTreeMap.getElem?_modify]
  split
  · next he =>
    rw [LawfulEqOrd.eq_of_compare he, h]
    rfl
  · exact h

theorem JobsOk.modify {limbo limbo' : Option JobId} (h : JobsOk limbo jobs n)
    (hf : ∀ j, JobOk limbo n id j → JobOk limbo' n id (f j))
    (hl : ∀ i, i ≠ id → limbo' ≠ some i → limbo ≠ some i) : JobsOk limbo' (jobs.modify id f) n := by
  intro i j hj
  by_cases hi : i = id
  · subst hi
    rw [ExtTreeMap.getElem?_modify_self] at hj
    obtain ⟨j₀, hj₀, rfl⟩ := Option.map_eq_some_iff.mp hj
    exact hf j₀ (h i j₀ hj₀)
  · rw [TreeMap.getElem?_modify_ne hi] at hj
    have hj' := h i j hj
    exact ⟨hj'.id, hj'.below, hj'.ttr, fun hlim => hj'.holder (hl i hi hlim)⟩

/-- A job goes into limbo. -/
theorem JobsOk.take (h : JobsOk none jobs n) : JobsOk (some id) jobs n :=
  fun i j hj => { h i j hj with holder := fun _ => (h i j hj).holder nofun }

/-- A job in limbo is filed again. -/
theorem JobsOk.file (h : JobsOk (some id) jobs n)
    (hf : ∀ j, (f j).id = j.id ∧ (f j).ttr = j.ttr ∧
      ((f j).reserver.isSome ↔ (f j).state = .reserved))
    : JobsOk none (jobs.modify id f) n :=
  h.modify (fun j hj => ⟨(hf j).1.trans hj.id, hj.below, (hf j).2.1 ▸ hj.ttr, fun _ => (hf j).2.2⟩)
    fun _ hi _ he => hi (Option.some.inj he).symm

end Jobs

/-! ## A tube's mark or delay head becomes stale -/

/-- Taking a ready job away gives a tube nothing to hand out. -/
theorem TubeState.busy_of_erase {t : TubeState} {x : Nat × JobId} {stat : TubeStat}
    (h : { t with ready := t.ready.erase x, stat := stat }.busy = true) : t.busy = true := by
  have hr : (t.ready.erase x).isEmpty = false → t.ready.isEmpty = false := by
    intro hne
    cases he : t.ready.isEmpty with
    | false => rfl
    | true =>
      have hx : t.ready.erase x = ∅ :=
        ExtTreeSet.erase_eq_empty_iff.mpr (.inl (ExtTreeSet.isEmpty_iff.mp he))
      rw [hx] at hne
      simp at hne
  simp only [TubeState.busy, TubeState.wantsDispatch, Bool.and_eq_true, Bool.not_eq_true'] at h ⊢
  exact ⟨⟨h.1.1, hr h.1.2⟩, h.2⟩

section Touch

variable {tubes : List (Option TubeState)} {t : TubeId} {f : TubeState → TubeState}

theorem disp_touch {s : ExtTreeSet TubeId}
    (h : Index.Marked none (Slab.view TubeState.disp tubes) s)
    (hf : ∀ t, (f t).dispatchable = t.dispatchable) :
    Index.Marked (some t) (Slab.view TubeState.disp (Slab.modify tubes t f)) s := by
  refine h.touch ?_ fun k => Slab.view_modify_ne
  rw [Slab.view, Slab.get_modify_self, Slab.view]
  cases Slab.get tubes t with
  | none => rfl
  | some ts => simp [TubeState.disp, hf ts]

theorem heads_touch {s : ExtTreeSet (Nanos × TubeId)}
    (h : Index.Current none (Slab.view TubeState.heads tubes) s)
    (hf : ∀ t, (f t).delayHead = t.delayHead) :
    Index.Current (some t) (Slab.view TubeState.heads (Slab.modify tubes t f)) s := by
  refine h.touch ?_ fun k => Slab.view_modify_ne
  rw [Slab.view, Slab.get_modify_self, Slab.view]
  cases Slab.get tubes t with
  | none => rfl
  | some ts => simp [TubeState.heads, hf ts]

/-- Nothing to hand out, and no more of it. -/
theorem calm_modify {o : Bool} (h : Calm o (Slab.view TubeState.busy tubes))
    (hf : ∀ t, (f t).busy = true → t.busy = true) :
    Calm o (Slab.view TubeState.busy (Slab.modify tubes t f)) := by
  intro ho k
  rw [Slab.view, Slab.get_modify]
  have hk := h ho k
  rw [Slab.view] at hk
  split
  · cases hg : Slab.get tubes k with
    | none => simp
    | some ts =>
      rw [hg] at hk
      intro hb
      exact hk (congrArg some (hf ts (Option.some.inj hb)))
  · exact hk

/-- Everything of a tube that `Core` reads, but for its pause. -/
def TubeState.outlook (t : TubeState) := (t.sig, t.queues, t.waits, t.heads, t.disp)

/-- A tube's pause may change, if the index of pauses knows of it. -/
theorem Engine.Core.retube {s : Slack} {e : Engine} {pauses : ExtTreeSet (Nanos × TubeId)}
    (h : Core s e) (hf : ∀ ts, (f ts).outlook = ts.outlook)
    (hpauses : PausesOk (Slab.view TubeState.pauseKey (Slab.modify e.tubes t f)) pauses)
    (hcalm : Calm s.owed (Slab.view TubeState.busy (Slab.modify e.tubes t f))) :
    Core s { e with tubes := Slab.modify e.tubes t f, pauses := pauses } := by
  have hp (ts : TubeState) := hf ts
  simp only [TubeState.outlook, Prod.mk.injEq] at hp
  exact { h with
    dir := h.dir.congr (Slab.length_modify ..) (Slab.view_modify fun ts => (hp ts).1)
    placed := h.placed.congr (Slab.view_modify fun ts => (hp ts).2.1) rfl rfl
    housed := h.housed.congr (Slab.view_modify fun ts => (hp ts).1) rfl
    watched := h.watched.congr (Slab.view_modify fun ts => (hp ts).1) rfl
    queued := h.queued.congr (Slab.view_modify fun ts => (hp ts).2.2.1) rfl
    heads := h.heads.congr (Slab.view_modify fun ts => (hp ts).2.2.2.1)
    pauses := hpauses
    disp := h.disp.congr (Slab.view_modify fun ts => (hp ts).2.2.2.2)
    calm := hcalm }

/-- A connection's tick key becomes stale. -/
theorem ticks_touch {conns : ExtTreeMap ConnId ConnState} {c : ConnId} {f : ConnState → ConnState}
    {s : ExtTreeSet (Nanos × ConnId)} (h : TicksOk none (conns.map fun _ k => ConnState.ticks k) s)
    (hf : ∀ c, (f c).tickKey = c.tickKey) :
    TicksOk (some c) ((conns.modify c f).map fun _ k => ConnState.ticks k) s := by
  refine Index.Current.touch h ?_ fun k hk => ?_
  · rw [ExtTreeMap.getElem?_map, ExtTreeMap.getElem?_map, ExtTreeMap.getElem?_modify_self]
    cases conns[c]? with
    | none => rfl
    | some k => simp [ConnState.ticks, hf k]
  · rw [ExtTreeMap.getElem?_map, ExtTreeMap.getElem?_map, TreeMap.getElem?_modify_ne hk]

end Touch

/-! ## What a move leaves alone -/

/-- Name, waiters and pause of a tube. -/
def TubeState.still (t : TubeState) : (TubeName × Nat) × (List ConnId × Nat) × Option Nanos :=
  (t.sig, t.waits, t.pauseKey)

/-- All of a connection but its reservations and its tick key. -/
def ConnState.still (c : ConnState) : ConnCore × (Bool × Option Nanos) × (Bool × Bool) :=
  (c.fixed, c.wait, c.roles)

namespace Engine

/-- The groups that moving a job is about. -/
structure Core.Moved (s : Slack) (e : Engine) : Prop where
  placed : Placed (Slab.view TubeState.queues e.tubes) (e.conns.map fun _ c => c.resv)
    (places s.limbo e.jobs) e.tally e.nextListSeq
  jobs : JobsOk s.limbo e.jobs e.nextJobId
  ticks : TicksOk s.tick (e.conns.map fun _ c => c.ticks) e.connTicks
  heads : Index.Current s.head (Slab.view TubeState.heads e.tubes) e.delayHeads
  disp : Index.Marked s.disp (Slab.view TubeState.disp e.tubes) e.dispatchable
  calm : Calm s.owed (Slab.view TubeState.busy e.tubes)

variable {s : Slack} {c : ConnId}

/-- The other groups read nothing that a move changes. -/
theorem Core.move {e e' : Engine} {s' : Slack} (h : Core s e)
    (hlen : e'.tubes.length = e.tubes.length)
    (htubes : Slab.view TubeState.still e'.tubes = Slab.view TubeState.still e.tubes)
    (hconns : (e'.conns.map fun _ c => ConnState.still c) =
      e.conns.map fun _ c => ConnState.still c)
    (hjobs : e'.homes = e.homes)
    (hrest : (e'.toDirectory, e'.toCensus, e'.nextJobId, e'.pauses, e'.waitingCt, s'.early,
      s'.queue) =
      (e.toDirectory, e.toCensus, e.nextJobId, e.pauses, e.waitingCt, s.early, s.queue))
    (hm : Core.Moved s' e') : Core s' e' := by
  simp only [Prod.mk.injEq] at hrest
  obtain ⟨hdir, hcensus, hnext, hpauses, hwaiting, hearly, hqueue⟩ := hrest
  have hsig : Slab.view TubeState.sig e'.tubes = _ := Slab.view_of_view htubes Prod.fst
  have hnone (i : JobId) (hi : e.jobs[i]? = none) : e'.jobs[i]? = none := by
    have hh := congrArg (fun m => m[i]?) hjobs
    simp only [homes, ExtTreeMap.getElem?_map, hi] at hh
    simpa using hh
  exact { hm with
    dir := hdir ▸ h.dir.congr hlen hsig
    pending := hnext ▸ h.pending.congr
      (TreeMap.map_of_map hconns fun c => c.1.pendingPut.bind PendingPut.id)
      hnone
    housed := h.housed.congr hsig hjobs
    watched := h.watched.congr hsig (TreeMap.map_of_map hconns fun c => c.1.watch.items)
    queued := by
      rw [hearly, hqueue]
      exact h.queued.congr (Slab.view_of_view htubes fun t => t.2.1) (congrArg (effective s.queue)
        (TreeMap.map_of_map hconns fun c => if c.2.1.1 then c.1.watch.items else []))
    pauses := hpauses ▸ h.pauses.congr (Slab.view_of_view htubes fun t => t.2.2)
    conns := by
      rw [hcensus, hwaiting]
      exact h.conns.congr (TreeMap.map_of_map hconns fun c => c.2.1)
        (TreeMap.map_of_map hconns fun c => c.2.2) }

/-! ## Refreshing an index -/

theorem refreshDispatchable_core {e : Engine} {t : TubeId} (h : Core { s with disp := some t } e) :
    Core { s with disp := none } (e.refreshDispatchable t) := by
  unfold refreshDispatchable tube
  cases ht : Slab.get e.tubes t with
  | none =>
    have hd := h.disp.of_eq fun p hp => by
      rw [Slab.view, ht] at hp
      cases hp
    exact { h with disp := hd }
  | some ts =>
    simp only
    split
    · have hd := h.disp.refresh (b := ts.wantsDispatch)
        (fun j hj => (Option.some.inj hj).symm)
        (Slab.setAt_self (Slab.view TubeState.disp e.tubes) t _)
        fun j hj => Slab.setAt_ne (Ne.symm hj)
      exact h.move (Slab.length_modify ..) (Slab.view_modify fun _ => rfl) rfl
        rfl rfl { h with
          placed := h.placed.congr (Slab.view_modify fun _ => rfl) rfl rfl
          calm := h.calm.congr (Slab.view_modify fun _ => rfl)
          heads := h.heads.congr (Slab.view_modify fun _ => rfl)
          disp := hd.congr (Slab.view_modify_at _ _ ht) }
    · next hne =>
      have hd := h.disp.of_eq fun p hp => by
        rw [Slab.view_of_get ht] at hp
        cases hp
        simpa [TubeState.disp] using hne
      exact { h with disp := hd }

theorem refreshDelayHead_core {e : Engine} {t : TubeId} (h : Core { s with head := some t } e) :
    Core { s with head := none } (e.refreshDelayHead t) := by
  unfold refreshDelayHead tube
  cases ht : Slab.get e.tubes t with
  | none =>
    have hd := h.heads.of_eq fun p hp => by
      rw [Slab.view, ht] at hp
      cases hp
    exact { h with heads := hd }
  | some ts =>
    simp only
    split
    · have hd := h.heads.refresh (Slab.view_of_get ht)
        (Slab.setAt_self (Slab.view TubeState.heads e.tubes) t _)
        fun j hj => Slab.setAt_ne (Ne.symm hj)
      exact h.move (Slab.length_modify ..) (Slab.view_modify fun _ => rfl) rfl
        rfl rfl { h with
          placed := h.placed.congr (Slab.view_modify fun _ => rfl) rfl rfl
          calm := h.calm.congr (Slab.view_modify fun _ => rfl)
          heads := hd.congr (Slab.view_modify_at _ _ ht)
          disp := h.disp.congr (Slab.view_modify fun _ => rfl) }
    · next hne =>
      have hd := h.heads.of_eq fun p hp => by
        rw [Slab.view_of_get ht] at hp
        cases hp
        simpa [TubeState.heads] using hne
      exact { h with heads := hd }

theorem refreshConnTick_core {e : Engine} (h : Core { s with tick := some c } e) :
    Core { s with tick := none } (e.refreshConnTick c) := by
  unfold refreshConnTick
  cases hc : e.conns[c]? with
  | none =>
    have hd := Index.Current.of_eq h.ticks fun p hp => by
      rw [ExtTreeMap.getElem?_map, hc] at hp
      cases hp
    exact { h with ticks := hd }
  | some k =>
    simp only
    split
    · have hd : TicksOk none ((e.conns.modify c fun k' => { k' with tickKey := k.tickat }).map
          fun _ k => k.ticks) (Index.rekey e.connTicks c k.tickKey k.tickat) := by
        refine Index.Current.refresh h.ticks ?_ ?_ ?_
        · rw [ExtTreeMap.getElem?_map, hc]
          rfl
        · rw [ExtTreeMap.getElem?_map, ExtTreeMap.getElem?_modify_self, hc]
          rfl
        · intro j hj
          rw [ExtTreeMap.getElem?_map, ExtTreeMap.getElem?_map, TreeMap.getElem?_modify_ne hj]
      exact h.move rfl rfl (TreeMap.map_modify fun _ => rfl) rfl rfl { h with
          placed := h.placed.congr rfl (TreeMap.map_modify fun _ => rfl) rfl
          ticks := hd }
    · next hne =>
      have hd := Index.Current.of_eq h.ticks fun p hp => by
        rw [ExtTreeMap.getElem?_map, hc] at hp
        cases hp
        simpa [ConnState.ticks] using hne
      exact { h with ticks := hd }

/-- The tube a job lives in. -/
theorem Core.home {e : Engine} {id : JobId} {j : JobRec} {tube : TubeId} (h : Core s e)
    (hj : e.jobs[id]? = some j) (ht : j.tube = tube) : ∃ ts, Slab.get e.tubes tube = some ts := by
  obtain ⟨_, hs⟩ := h.housed id j hj
  exact ht ▸ Slab.exists_of_view hs

/-! ## The ready set -/

variable {e : Engine} {tube : TubeId} {id : JobId} {j : JobRec} {o : Bool}

theorem insertReady_core (h : Core { limbo := some id, owed := o } e) (hj : e.jobs[id]? = some j)
    (htube : j.tube = tube) : Core { owed := true } (e.insertReady tube id) := by
  obtain ⟨ts, ht⟩ := h.home hj htube
  unfold insertReady
  simp only [hj]
  have hp := h.placed.put (p := ⟨tube, .ready j.pri⟩)
    (w := { ts.queues with ready := ts.ready.insert (j.pri, id)
                           urgentCt := ts.stat.urgentCt + urgentBit j.pri })
    (places_self _ _) (Slab.view_of_get ht)
    (filed_insert_ready (Slab.view_of_get ht) rfl rfl rfl) rfl (Nat.le_refl _)
    (by simp [Place.seq?])
  have hjobs := TreeMap.getElem?_modify_of
      (f := fun j => { j with state := .ready, reserver := none }) hj
  refine refreshDispatchable_core (s := { owed := true }) (h.move (Slab.length_modify ..)
    (Slab.view_modify fun _ => rfl) rfl (TreeMap.map_modify fun _ => rfl) rfl { h with
      placed := hp.congr (Slab.view_modify_at _ _ ht) rfl
        ((places_put (modify_place_ne _ _ _) hjobs).trans (by simp only [JobRec.place, htube]))
      jobs := h.jobs.file fun _ => ⟨rfl, rfl, by simp⟩
      calm := nofun
      heads := h.heads.congr (Slab.view_modify fun _ => rfl)
      disp := disp_touch h.disp fun _ => rfl })

/-- The place of a job that is not in limbo. -/
theorem place_of_job {e : Engine} (hj : e.jobs[id]? = some j) :
    (places none e.jobs)[id]? = some j.place := by
  rw [places_none, hj]
  rfl

/-- What a container holds is a job that says so. -/
theorem job_of_filed {e : Engine} {l : Loc} (h : Core s e)
    (hl : Filed (Slab.view TubeState.queues e.tubes) (e.conns.map fun _ c => c.resv) l id) :
    ∃ j, e.jobs[id]? = some j ∧ l ∈ j.place.locs := by
  obtain ⟨p, hp, hmem⟩ := h.placed.boxed.place_of_filed hl
  rw [getElem?_places] at hp
  split at hp
  · cases hp
  · obtain ⟨j, hj, rfl⟩ := Option.map_eq_some_iff.mp hp
    exact ⟨j, hj, hmem⟩

theorem filed_of_job {e : Engine} {l : Loc} (h : Core s e) (hs : s.limbo ≠ some id)
    (hj : e.jobs[id]? = some j) (hl : l ∈ j.place.locs) :
    Filed (Slab.view TubeState.queues e.tubes) (e.conns.map fun _ c => c.resv) l id := by
  refine h.placed.boxed.filed ?_ hl
  rw [getElem?_places, if_neg hs, hj]
  rfl

theorem removeReady_core (h : Core { owed := o } e) (hj : e.jobs[id]? = some j)
    (hst : j.state = .ready)
    (htube : j.tube = tube) : Core { limbo := some id, owed := o } (e.removeReady tube id) := by
  have hpl : (places none e.jobs)[id]? = some ⟨tube, .ready j.pri⟩ := by
    rw [place_of_job hj, JobRec.place, hst, htube]
  obtain ⟨q, hq, -⟩ := h.placed.boxed.filed (l := .ready tube j.pri) hpl (by simp [Place.locs])
  obtain ⟨ts, ht, rfl⟩ := Slab.view_eq_some_iff.mp hq
  unfold removeReady
  simp only [hj]
  have hp := h.placed.take
    (w := { ts.queues with ready := ts.ready.erase (j.pri, id)
                           urgentCt := ts.stat.urgentCt - urgentBit j.pri })
    hpl hq (filed_erase_ready hq rfl rfl rfl) rfl
  refine refreshDispatchable_core (s := { limbo := some id, owed := o }) (h.move
    (Slab.length_modify ..) (Slab.view_modify fun _ => rfl) rfl rfl rfl { h with
      placed := hp.congr (Slab.view_modify_at _ _ ht) rfl (places_take fun _ _ => rfl)
      jobs := h.jobs.take
      calm := calm_modify h.calm fun _ => TubeState.busy_of_erase
      heads := h.heads.congr (Slab.view_modify fun _ => rfl)
      disp := disp_touch h.disp fun _ => rfl })

/-! ## The delayed set -/

theorem insertDelayed_core {d : Nanos} (h : Core { limbo := some id, owed := o } e)
    (hj : e.jobs[id]? = some j) (htube : j.tube = tube) :
    Core { owed := o } (e.insertDelayed tube id d) := by
  obtain ⟨ts, ht⟩ := h.home hj htube
  have hfresh : (e.tube tube).any (fun t => !t.delayed.contains (d, id)) = true := by
    -- an entry of the delayed set would give the job a place
    rw [Engine.tube, ht, Option.any_some, Bool.not_eq_true', ← Bool.not_eq_true]
    intro hc
    obtain ⟨p, hp, -⟩ := h.placed.boxed.place_of_filed (l := .delayed tube d)
      ⟨ts.queues, Slab.view_of_get ht, ExtTreeSet.mem_iff_contains.mpr hc⟩
    rw [places_self] at hp
    cases hp
  unfold insertDelayed
  simp only [hfresh]
  have hp := h.placed.put (p := ⟨tube, .delayed d⟩)
    (w := { ts.queues with delayed := ts.delayed.insert (d, id) }) (places_self _ _)
    (Slab.view_of_get ht)
    (filed_insert_delayed (Slab.view_of_get ht) rfl rfl rfl) rfl (Nat.le_refl _)
    (by simp [Place.seq?])
  have hjobs := TreeMap.getElem?_modify_of
    (f := fun j => { j with state := .delayed, reserver := none, deadlineAt := d }) hj
  refine refreshDelayHead_core (s := { owed := o }) (h.move (Slab.length_modify ..)
    (Slab.view_modify fun _ => rfl) rfl (TreeMap.map_modify fun _ => rfl) rfl { h with
      placed := hp.congr (Slab.view_modify_at _ _ ht) rfl
        ((places_put (modify_place_ne _ _ _) hjobs).trans (by simp only [JobRec.place, htube]))
      jobs := h.jobs.file fun _ => ⟨rfl, rfl, by simp⟩
      calm := h.calm.congr (Slab.view_modify fun _ => rfl)
      heads := heads_touch h.heads fun _ => rfl
      disp := h.disp.congr (Slab.view_modify fun _ => rfl) })

theorem removeDelayed_core (h : Core { owed := o } e) (hj : e.jobs[id]? = some j)
    (hst : j.state = .delayed)
    (htube : j.tube = tube) : Core { limbo := some id, owed := o } (e.removeDelayed tube id) := by
  have hpl : (places none e.jobs)[id]? = some ⟨tube, .delayed j.deadlineAt⟩ := by
    rw [place_of_job hj, JobRec.place, hst, htube]
  obtain ⟨q, hq, hmem⟩ := h.placed.boxed.filed (l := .delayed tube j.deadlineAt) hpl
    (by simp [Place.locs])
  obtain ⟨ts, ht, rfl⟩ := Slab.view_eq_some_iff.mp hq
  have hpresent : (e.tube tube).any (fun t => t.delayed.contains (j.deadlineAt, id)) = true := by
    rw [Engine.tube, ht]
    exact ExtTreeSet.mem_iff_contains.mp hmem
  unfold removeDelayed
  simp only [hj, hpresent]
  have hp := h.placed.take
    (w := { ts.queues with delayed := ts.delayed.erase (j.deadlineAt, id) })
    hpl hq (filed_erase_delayed hq rfl rfl rfl) rfl
  refine refreshDelayHead_core (s := { limbo := some id, owed := o }) (h.move
    (Slab.length_modify ..) (Slab.view_modify fun _ => rfl) rfl rfl rfl { h with
      placed := hp.congr (Slab.view_modify_at _ _ ht) rfl (places_take fun _ _ => rfl)
      jobs := h.jobs.take
      calm := h.calm.congr (Slab.view_modify fun _ => rfl)
      heads := heads_touch h.heads fun _ => rfl
      disp := h.disp.congr (Slab.view_modify fun _ => rfl) })

/-! ## The buried list -/

theorem insertBuried_core (h : Core { limbo := some id, owed := o } e) (hj : e.jobs[id]? = some j)
    (htube : j.tube = tube) : Core { owed := o } (e.insertBuried tube id) := by
  obtain ⟨ts, ht⟩ := h.home hj htube
  have hp := h.placed.put (p := ⟨tube, .buried e.nextListSeq⟩)
    (w := { ts.queues with buried := ts.buried.insert e.nextListSeq id
                           buriedCt := ts.stat.buriedCt + 1 })
    (places_self _ _) (Slab.view_of_get ht)
    (filed_insert_buried (Slab.view_of_get ht) (h.placed.buried_fresh (Slab.view_of_get ht))
      rfl rfl rfl)
    rfl (Nat.le_succ _) (by simp [Place.seq?])
  have hjobs := TreeMap.getElem?_modify_of (f := fun j =>
    { j with state := .buried, reserver := none, buryCt := inc32 j.buryCt
             listSeq := e.nextListSeq }) hj
  exact h.move (Slab.length_modify ..) (Slab.view_modify fun _ => rfl) rfl
    (TreeMap.map_modify fun _ => rfl) rfl { h with
      placed := hp.congr (Slab.view_modify_at _ _ ht) rfl
        ((places_put (modify_place_ne _ _ _) hjobs).trans (by simp only [JobRec.place, htube]))
      jobs := h.jobs.file fun _ => ⟨rfl, rfl, by simp⟩
      calm := h.calm.congr (Slab.view_modify fun _ => rfl)
      heads := h.heads.congr (Slab.view_modify fun _ => rfl)
      disp := h.disp.congr (Slab.view_modify fun _ => rfl) }

theorem unbury_core {seq : Nat} (h : Core { owed := o } e) (hj : e.jobs[id]? = some j)
    (hst : j.state = .buried) (htube : j.tube = tube) (hseq : j.listSeq = seq) :
    Core { limbo := some id, owed := o } (e.unbury tube seq) := by
  have hpl : (places none e.jobs)[id]? = some ⟨tube, .buried seq⟩ := by
    rw [place_of_job hj, JobRec.place, hst, htube, hseq]
  obtain ⟨q, hq, hmem⟩ := h.placed.boxed.filed (l := .buried tube seq) hpl (by simp [Place.locs])
  obtain ⟨ts, ht, rfl⟩ := Slab.view_eq_some_iff.mp hq
  have hp := h.placed.take
    (w := { ts.queues with buried := ts.buried.erase seq, buriedCt := ts.stat.buriedCt - 1 })
    hpl hq (filed_erase_buried hq hmem rfl rfl rfl) rfl
  exact h.move (Slab.length_modify ..) (Slab.view_modify fun _ => rfl) rfl rfl rfl { h with
    placed := hp.congr (Slab.view_modify_at _ _ ht) rfl (places_take fun _ _ => rfl)
    jobs := h.jobs.take
    calm := h.calm.congr (Slab.view_modify fun _ => rfl)
    heads := h.heads.congr (Slab.view_modify fun _ => rfl)
    disp := h.disp.congr (Slab.view_modify fun _ => rfl) }

theorem removeBuried_core (h : Core { owed := o } e) (hj : e.jobs[id]? = some j)
    (hst : j.state = .buried)
    (htube : j.tube = tube) : Core { limbo := some id, owed := o } (e.removeBuried tube id) := by
  have hpl : (places none e.jobs)[id]? = some ⟨tube, .buried j.listSeq⟩ := by
    rw [place_of_job hj, JobRec.place, hst, htube]
  obtain ⟨q, hq, hmem⟩ := h.placed.boxed.filed (l := .buried tube j.listSeq) hpl
    (by simp [Place.locs])
  obtain ⟨ts, ht, rfl⟩ := Slab.view_eq_some_iff.mp hq
  have hmem' : ts.buried[j.listSeq]? = some id := hmem
  unfold removeBuried
  simp only [hj, Engine.tube, ht, if_pos hmem']
  exact unbury_core h hj hst htube rfl

/-- The record of a job in a buried list. -/
theorem buried_job {e : Engine} {ts : TubeState} {seq : Nat} (h : Core s e)
    (ht : Slab.get e.tubes tube = some ts) (hb : ts.buried[seq]? = some id) :
    ∃ j, e.jobs[id]? = some j ∧ j.state = .buried ∧ j.tube = tube ∧ j.listSeq = seq := by
  obtain ⟨j, hj, hl⟩ := job_of_filed (l := .buried tube seq) h
    ⟨ts.queues, Slab.view_of_get ht, hb⟩
  exact ⟨j, hj, mem_locs_buried.mp hl⟩

/-- The oldest buried job of a tube is a buried job of that tube. -/
theorem popBuriedFront_spec {e' : Engine} (h : Core { owed := o } e)
    (hpop : e.popBuriedFront tube = some (id, e')) :
    ∃ j, e.jobs[id]? = some j ∧ j.state = .buried ∧ j.tube = tube ∧
      e' = e.unbury tube j.listSeq := by
  unfold popBuriedFront at hpop
  cases ht : Slab.get e.tubes tube with
  | none => simp [Engine.tube, ht] at hpop
  | some ts =>
    cases hb : TreeMap.firstEntry ts.buried with
    | none => simp [Engine.tube, ht, hb] at hpop
    | some p =>
      obtain ⟨seq, i⟩ := p
      simp only [Engine.tube, ht, Option.bind_some, hb, Option.some.injEq, Prod.mk.injEq] at hpop
      obtain ⟨rfl, rfl⟩ := hpop
      obtain ⟨j, hj, hst, htube, rfl⟩ :=
        buried_job h ht (TreeMap.firstEntry_eq_some_iff.mp hb).1
      exact ⟨j, hj, hst, htube, rfl⟩

/-! ## Reservations -/

theorem doReserve_core {k : ConnState} {now : Nanos} (h : Core { limbo := some id, owed := o } e)
    (hj : e.jobs[id]? = some j) (hc : e.conns[c]? = some k) :
    Core { owed := o } (e.doReserve c id now) := by
  obtain ⟨ts, ht⟩ := h.home hj rfl
  have hr : (e.conns.map fun _ k => k.resv)[c]? = some k.resv := TreeMap.map_of hc
  unfold doReserve
  simp only [hj]
  have hp := h.placed.put
    (p := ⟨j.tube, .reserved c (satAdd now (j.ttr * nanosPerSec)) e.nextListSeq⟩) (w := { ts.queues with reservedCt := ts.stat.reservedCt + 1 })
    (places_self _ _) (Slab.view_of_get ht)
    (filed_insert_resv (Slab.view_of_get ht) rfl rfl rfl hr (h.placed.reserved_fresh hr))
    rfl (Nat.le_succ _) (by simp [Place.seq?])
  have hjobs := TreeMap.getElem?_modify_of (f := fun j' =>
    { j' with state := .reserved, reserver := some c
              deadlineAt := satAdd now (j.ttr * nanosPerSec)
              reserveCt := inc32 j'.reserveCt, listSeq := e.nextListSeq }) hj
  refine refreshConnTick_core (s := { owed := o }) (h.move (Slab.length_modify ..)
    (Slab.view_modify fun _ => rfl) (TreeMap.map_modify fun _ => rfl)
    (TreeMap.map_modify fun _ => rfl) rfl { h with
      placed := hp.congr (Slab.view_modify_at _ _ ht) (TreeMap.map_modify_at hc _ _)
        (places_put (modify_place_ne _ _ _) hjobs)
      jobs := h.jobs.file fun _ => ⟨rfl, rfl, by simp⟩
      calm := h.calm.congr (Slab.view_modify fun _ => rfl)
      ticks := ticks_touch h.ticks fun _ => rfl
      heads := h.heads.congr (Slab.view_modify fun _ => rfl)
      disp := h.disp.congr (Slab.view_modify fun _ => rfl) })

theorem doUnreserve_core (h : Core { owed := o } e) (hj : e.jobs[id]? = some j)
    (hst : j.state = .reserved) (hres : j.reserver = some c) :
    Core { limbo := some id, owed := o } (e.doUnreserve c id) := by
  obtain ⟨ts, ht⟩ := h.home hj rfl
  have hpl : (places none e.jobs)[id]? = some ⟨j.tube, .reserved c j.deadlineAt j.listSeq⟩ := by
    rw [place_of_job hj, JobRec.place, hst, hres]
    rfl
  obtain ⟨r, hr, hmem⟩ := h.placed.boxed.filed (l := .held c j.listSeq) hpl (by simp [Place.locs])
  obtain ⟨k, hc, rfl⟩ : ∃ k, e.conns[c]? = some k ∧ k.resv = r := by
    exact TreeMap.map_eq_some_iff.mp hr
  have hp := h.placed.take
    (w := { ts.queues with reservedCt := ts.stat.reservedCt - 1 }) hpl (Slab.view_of_get ht)
    (filed_erase_resv (Slab.view_of_get ht) rfl rfl rfl hr hmem) rfl
  have hmem' : k.reserved[j.listSeq]? = some id := hmem
  have hlist := TreeMap.map_modify_at hc (fun c =>
    { c with reserved := if c.reserved[j.listSeq]? = some id then c.reserved.erase j.listSeq
                         else c.reserved
             reservedByDeadline := c.reservedByDeadline.erase (j.deadlineAt, id) }) ConnState.resv
  simp only [ConnState.resv, if_pos hmem'] at hlist
  unfold doUnreserve
  simp only [hj]
  refine refreshConnTick_core (s := { limbo := some id, owed := o }) (h.move (Slab.length_modify ..)
    (Slab.view_modify fun _ => rfl) (TreeMap.map_modify fun _ => rfl)
    (TreeMap.map_modify fun _ => rfl) rfl { h with
      placed := hp.congr (Slab.view_modify_at _ _ ht) hlist (places_take (modify_place_ne _ _ _))
      jobs := h.jobs.modify (fun j hj => ⟨hj.id, hj.below, hj.ttr, fun hne => absurd rfl hne⟩)
        fun i _ _ he => by cases he
      calm := h.calm.congr (Slab.view_modify fun _ => rfl)
      ticks := ticks_touch h.ticks fun _ => rfl
      heads := h.heads.congr (Slab.view_modify fun _ => rfl)
      disp := h.disp.congr (Slab.view_modify fun _ => rfl) })

/-! ## Changes that no group reads -/

/-- The record of a job in limbo may change, except for what makes it that job. -/
theorem modJob_core {f : JobRec → JobRec} (h : Core { limbo := some id, owed := o } e)
    (hf : ∀ j, (f j).fixed = j.fixed) :
    Core { limbo := some id, owed := o } (e.modJob id f) := by
  have hp (j : JobRec) := hf j
  simp only [JobRec.fixed, JobCore.mk.injEq] at hp
  exact { h with
    placed := h.placed.congr rfl rfl (places_limbo (modify_place_ne _ _ _))
    jobs := h.jobs.modify
      (fun j hj => ⟨(hp j).1.trans hj.id, hj.below, (hp j).2.2.1 ▸ hj.ttr,
        fun hne => absurd rfl hne⟩)
      fun i _ hl => hl
    pending := h.pending.congr rfl modify_none
    housed := h.housed.congr rfl (TreeMap.map_modify fun j => (hp j).2.1) }

end Engine

end Beanstalkd
