import Beanstalkd.Engine.References

/-!
# Commands that only move jobs and waiters

Reserving, releasing, burying, touching, kicking, pausing and reporting change
where jobs and waiters are, and nothing else: each of these commands keeps
`Core` and is `Same` as no command at all for the references.

The moves of `Moves.lean` compose here: take a job out of its container, change
its record while it is in limbo, file it again, dispatch.
-/

open Std

namespace Beanstalkd

namespace Engine

variable {e e' : Engine} {c : ConnId} {k : ConnState} {tube : TubeId} {id : JobId} {j : JobRec}
  {now : Nanos} {o : Bool} {s : Slack} {delay : Nat}

/-! ## Changes no group reads -/

theorem countOp_core {f : OpCounts → OpCounts} (h : Core s e) : Core s (e.countOp f) := { h with }

theorem countOp_same (e : Engine) (f : OpCounts → OpCounts) : Same e (e.countOp f) :=
  { Same.refl e with }

theorem journalWith_core {f : JobRec → JournalEntry} (h : Core s e) :
    Core s (e.journalWith id f) := by
  obtain ⟨_, hf⟩ := journalWith_frame e id f
  rw [hf]
  exact { h with }

/-- Everything of a tube that `Core` reads. -/
def face (t : TubeState) := (t.outlook, t.pauseKey, t.busy)

theorem modTube_core {f : TubeState → TubeState} (h : Core s e) (hf : ∀ ts, face (f ts) = face ts) :
    Core s (e.modTube tube f) :=
  h.retube (fun ts => congrArg (·.1) (hf ts))
    (h.pauses.congr (Slab.view_modify fun ts => congrArg (·.2.1) (hf ts)))
    (h.calm.congr (Slab.view_modify fun ts => congrArg (·.2.2) (hf ts)))

/-! ## Producers and workers -/

/-- The count of a role after one connection's changed. -/
theorem count_role {conns : ExtTreeMap ConnId ConnState} {r : ConnState → Bool}
    {f : ConnState → ConnState} (hc : conns[c]? = some k) :
    TreeMap.count (fun _ k => r k) (conns.modify c f) + (r k).toNat =
      TreeMap.count (fun _ k => r k) conns + (r (f k)).toNat := by
  have hcount := TreeMap.count_off (p := fun _ k => r k) (m := conns)
    (n := conns.modify c f) c (by
      intro c' hne
      rw [TreeMap.getElem?_modify_ne hne])
  rw [ExtTreeMap.getElem?_modify_self, hc] at hcount
  exact hcount

theorem count_roles (conns : ExtTreeMap ConnId ConnState) (p : Bool × Bool → Bool) :
    TreeMap.count (fun _ r => p r) (conns.map fun _ k => ConnState.roles k) =
      TreeMap.count (fun _ k => p (ConnState.roles k)) conns := by
  refine TreeMap.count_congr fun c => ?_
  rw [ExtTreeMap.getElem?_map]
  cases conns[c]? <;> rfl

/-- A connection takes on a role, and the census counts it. -/
theorem setRole_core {p w : Bool → Bool} (census : Census) (h : Core s e)
    (hc : e.conns[c]? = some k) (hcur : census.curConns = e.curConns)
    (hp : census.curProducers + k.isProducer.toNat = e.curProducers + (p k.isProducer).toNat)
    (hw : census.curWorkers + k.isWorker.toNat = e.curWorkers + (w k.isWorker).toNat) :
    Core s { e with
      conns := e.conns.modify c fun k =>
        { k with isProducer := p k.isProducer, isWorker := w k.isWorker }
      toCensus := census } := by
  have hroles (r : Bool × Bool → Bool) := count_role (r := fun k => r k.roles)
    (f := fun k => { k with isProducer := p k.isProducer, isWorker := w k.isWorker }) hc
  have hconns : ConnsOk (e.conns.map fun _ k => ConnState.wait k)
      ((e.conns.modify c fun k =>
        { k with isProducer := p k.isProducer, isWorker := w k.isWorker }).map
          fun _ k => ConnState.roles k) census e.waitingCt := by
    have hprod := hroles Prod.fst
    have hwork := hroles Prod.snd
    rw [← count_roles, ← count_roles] at hprod hwork
    simp only [ConnState.roles] at hprod hwork
    refine ⟨?_, ?_, ?_, h.conns.waiting, h.conns.idle⟩
    · rw [hcur, h.conns.cur, ExtTreeMap.size_map, ExtTreeMap.size_map, ExtTreeMap.size_modify]
    · have := h.conns.producers
      simp only [ConnState.roles] at this ⊢
      omega
    have := h.conns.workers
    simp only [ConnState.roles] at this ⊢
    omega
  exact { h with
    placed := h.placed.congr rfl (TreeMap.map_modify fun _ => rfl) rfl
    pending := h.pending.congr (TreeMap.map_modify fun _ => rfl) fun _ => fun h => h
    watched := h.watched.congr rfl (TreeMap.map_modify fun _ => rfl)
    queued := h.queued.congr rfl
      (congrArg (effective s.queue) (TreeMap.map_modify fun _ => rfl))
    ticks := h.ticks.congr (TreeMap.map_modify fun _ => rfl)
    conns := hconns.congr (TreeMap.map_modify fun _ => rfl) rfl }

theorem connsetproducer_core (h : Core s e) : Core s (e.connsetproducer c) := by
  unfold connsetproducer
  cases hc : e.conns[c]? with
  | none => exact h
  | some k =>
    split
    · next hk =>
      exact setRole_core (p := fun _ => true) (w := fun b => b)
        { e.toCensus with curProducers := e.curProducers + 1 } h hc rfl
        (by simp at hk; simp [hk]) rfl
    · exact h

theorem connsetworker_core (h : Core s e) : Core s (e.connsetworker c) := by
  unfold connsetworker
  cases hc : e.conns[c]? with
  | none => exact h
  | some k =>
    split
    · next hk =>
      exact setRole_core (p := fun b => b) (w := fun _ => true)
        { e.toCensus with curWorkers := e.curWorkers + 1 } h hc rfl rfl
        (by simp at hk; simp [hk])
    · exact h

theorem connsetproducer_same (e : Engine) (c : ConnId) : Same e (e.connsetproducer c) := by
  unfold connsetproducer
  split
  · exact { Same.refl e with conns := TreeMap.map_modify fun _ => rfl }
  · exact .refl e

theorem connsetworker_same (e : Engine) (c : ConnId) : Same e (e.connsetworker c) := by
  unfold connsetworker
  split
  · exact { Same.refl e with conns := TreeMap.map_modify fun _ => rfl }
  · exact .refl e

/-! ## Taking a job out and filing it again -/

theorem enqueueJob_core (h : Core { limbo := some id, owed := o } e) (hj : e.jobs[id]? = some j)
    (ht : j.tube = tube) : Core { owed := true } (e.enqueueJob now tube id delay) := by
  unfold enqueueJob
  split
  · exact (insertDelayed_core h hj ht).owe
  · exact insertReady_core h hj ht

theorem enqueueJob_same (e : Engine) (now : Nanos) (t : TubeId) (i : JobId) (delay : Nat) :
    Same e (e.enqueueJob now t i delay) := by
  unfold enqueueJob
  split
  · exact insertDelayed_same e t i _
  · exact insertReady_same e t i

theorem removeFrom_core (h : Core { owed := o } e) (hj : e.jobs[id]? = some j)
    (hst : j.state ≠ .reserved) :
    Core { limbo := some id, owed := o } (e.removeFrom j.state j.tube id) := by
  cases hs : j.state with
  | ready => exact removeReady_core h hj hs rfl
  | buried => exact removeBuried_core h hj hs rfl
  | delayed => exact removeDelayed_core h hj hs rfl
  | reserved => exact absurd hs hst

theorem removeFrom_same (e : Engine) (st : JobState) (t : TubeId) (i : JobId) :
    Same e (e.removeFrom st t i) := by
  cases st with
  | ready => exact removeReady_same e t i
  | buried => exact removeBuried_same e t i
  | delayed => exact removeDelayed_same e t i
  | reserved => exact .refl e

/-- `kick_to_ready` up to its dispatch. -/
def revive (e : Engine) (tube : TubeId) (id : JobId) : Engine :=
  let e := e.modJob id fun j => { j with kickCt := inc32 j.kickCt }
  let e := e.insertReady tube id
  e.journalUpdate id

theorem kickToReady_eq (e : Engine) (t : TubeId) (i : JobId) (now : Nanos) :
    e.kickToReady t i now = (e.revive t i).processQueue now := rfl

theorem revive_core (h : Core { limbo := some id, owed := o } e) (hj : e.jobs[id]? = some j)
    (ht : j.tube = tube) : Core { owed := true } (e.revive tube id) := by
  obtain ⟨j', hj', hfix⟩ := (modJob_same e id (f := fun j => { j with kickCt := inc32 j.kickCt })
    fun _ => rfl).job_some hj
  have ht' : j'.tube = tube := (congrArg JobCore.tube hfix).trans ht
  exact journalWith_core (insertReady_core (modJob_core h fun _ => rfl) hj' ht')

theorem kickToReady_same (e : Engine) (t : TubeId) (i : JobId) (now : Nanos) :
    Same e (e.kickToReady t i now) := by
  refine Same.trans ?_ (processQueue_same _ now)
  refine Same.trans ?_ (journalWith_same _ i _)
  refine Same.trans ?_ (insertReady_same _ t i)
  exact modJob_same e i fun _ => rfl

/-! ## Reserving -/

/-- A worker waits or not as before. -/
theorem connsetworker_conn (hc : e.conns[c]? = some k) (hk : k.waiting = false) :
    ∃ k', (e.connsetworker c).conns[c]? = some k' ∧ k'.waiting = false := by
  unfold connsetworker
  split
  · exact ⟨_, TreeMap.getElem?_modify_of hc, hk⟩
  · exact ⟨k, hc, hk⟩

theorem cmdReserve_core {timeout : Option Nat} (h : Core {} e) (hc : e.conns[c]? = some k)
    (hk : k.waiting = false) : Core {} (e.cmdReserve now c timeout) := by
  unfold cmdReserve
  extract_lets e₁ e₂ wd e₃ e₄ soon
  have h₂ : Core {} e₂ := connsetworker_core (countOp_core h)
  obtain ⟨k₂, hc₂, hk₂⟩ := connsetworker_conn (show e₁.conns[c]? = some k from hc) hk
  split
  · exact reply_core h₂
  have h₄ : Core {} e₄ := processQueue_core (enqueueWaitingConn_core h₂ hc₂ hk₂)
  split
  · exact reply_core (stopWaiting_core h₄)
  · exact h₄

theorem cmdReserve_same (e : Engine) (now : Nanos) (c : ConnId) (timeout : Option Nat) :
    Same e (e.cmdReserve now c timeout) := by
  unfold cmdReserve
  extract_lets e₁ e₂ wd e₃ e₄ soon
  have h₂ : Same e e₂ := (countOp_same e _).trans (connsetworker_same _ c)
  split
  · exact h₂.trans (reply_same _ c _)
  have h₄ : Same e e₄ :=
    (h₂.trans (enqueueWaitingConn_same _ c wd)).trans (processQueue_same _ now)
  split
  · exact (h₄.trans (doRemoveWaitingConn_same _ c)).trans (reply_same _ c _)
  · exact h₄

theorem cmdReserveJob_core (h : Core {} e) (hc : e.conns[c]? = some k) :
    Core {} (e.cmdReserveJob now c id) := by
  unfold cmdReserveJob
  cases hj : e.jobs[id]? with
  | none => exact reply_core h
  | some j =>
    simp only
    split
    · exact reply_core h
    next hst =>
    have hsame := (removeFrom_same e j.state j.tube id).trans (connsetworker_same _ c)
    obtain ⟨j', hj', -⟩ := hsame.job_some hj
    obtain ⟨k', hc', -⟩ := hsame.conn_some hc
    exact reply_core (doReserve_core (connsetworker_core (removeFrom_core h hj hst)) hj' hc')

theorem cmdReserveJob_same (e : Engine) (now : Nanos) (c : ConnId) (i : JobId) :
    Same e (e.cmdReserveJob now c i) := by
  unfold cmdReserveJob
  split
  · exact reply_same e c _
  split
  · exact reply_same e c _
  · exact (((removeFrom_same e _ _ i).trans (connsetworker_same _ c)).trans
      (doReserve_same _ c i now)).trans (reply_same _ c _)

/-! ## Giving a reservation up -/

theorem reservedBy_eq_some {t : TubeId} (h : e.reservedBy c id = some t) :
    ∃ j, e.jobs[id]? = some j ∧ j.state = .reserved ∧ j.reserver = some c ∧ j.tube = t := by
  obtain ⟨j, hj, ht⟩ := Option.map_eq_some_iff.mp h
  obtain ⟨hj, hr⟩ := Option.filter_eq_some_iff.mp hj
  simp only [Bool.and_eq_true, beq_iff_eq] at hr
  exact ⟨j, hj, hr.2, hr.1, ht⟩

/-- A holder's job taken back and its record changed. -/
theorem unreserve_mod (h : Core {} e) (hr : e.reservedBy c id = some tube) {f : JobRec → JobRec}
    (hf : ∀ j, (f j).fixed = j.fixed) :
    Core { limbo := some id } ((e.doUnreserve c id).modJob id f) ∧
      ∃ j, ((e.doUnreserve c id).modJob id f).jobs[id]? = some j ∧ j.tube = tube := by
  obtain ⟨j, hj, hst, hres, rfl⟩ := reservedBy_eq_some hr
  refine ⟨modJob_core (doUnreserve_core h hj hst hres) hf, ?_⟩
  obtain ⟨j', hj', hfix⟩ := ((doUnreserve_same e c id).trans (modJob_same _ id hf)).job_some hj
  exact ⟨j', hj', congrArg JobCore.tube hfix⟩

theorem cmdRelease_core {pri : Nat} (h : Core {} e) :
    Core {} (e.cmdRelease now c id pri delay) := by
  unfold cmdRelease
  simp only
  split
  · exact reply_core (countOp_core h)
  next t hr =>
  obtain ⟨h₁, j, hj, ht⟩ := unreserve_mod (countOp_core h) hr
    (f := fun j => { j with pri := pri, delay := delay, releaseCt := inc32 j.releaseCt })
    fun _ => rfl
  refine reply_core (processQueue_core (o := true) ?_)
  split
  · exact journalWith_core (enqueueJob_core h₁ hj ht)
  · exact enqueueJob_core h₁ hj ht

theorem cmdRelease_same (e : Engine) (now : Nanos) (c : ConnId) (i : JobId) (pri delay : Nat) :
    Same e (e.cmdRelease now c i pri delay) := by
  unfold cmdRelease
  simp only
  split
  · exact (countOp_same e _).trans (reply_same _ c _)
  next t _ =>
  refine Same.trans ?_ (reply_same _ c _)
  refine Same.trans ?_ (processQueue_same _ now)
  have h₁ : Same e (((e.countOp fun o => { o with release := inc64 o.release }).doUnreserve c
      i).modJob i fun j =>
        { j with pri := pri, delay := delay, releaseCt := inc32 j.releaseCt }) := by
    refine Same.trans ?_ (modJob_same _ i fun _ => rfl)
    exact (countOp_same e _).trans (doUnreserve_same _ c i)
  have h₂ := h₁.trans (enqueueJob_same _ now t i delay)
  split
  · exact h₂.trans (journalWith_same _ i _)
  · exact h₂

theorem cmdBury_core {pri : Nat} (h : Core {} e) : Core {} (e.cmdBury c id pri) := by
  unfold cmdBury
  simp only
  split
  · exact reply_core (countOp_core h)
  next t hr =>
  obtain ⟨h₁, j, hj, ht⟩ := unreserve_mod (countOp_core h) hr
    (f := fun j => { j with pri := pri }) fun _ => rfl
  exact reply_core (journalWith_core (insertBuried_core h₁ hj ht))

theorem cmdBury_same (e : Engine) (c : ConnId) (i : JobId) (pri : Nat) :
    Same e (e.cmdBury c i pri) := by
  unfold cmdBury
  simp only
  split
  · exact (countOp_same e _).trans (reply_same _ c _)
  refine Same.trans ?_ (reply_same _ c _)
  refine Same.trans ?_ (journalWith_same _ i _)
  refine Same.trans ?_ (insertBuried_same _ _ i)
  refine Same.trans ?_ (modJob_same _ i fun _ => rfl)
  exact (countOp_same e _).trans (doUnreserve_same _ c i)

/-! ## Touching -/

/-- A reserved job gets a new deadline, in its record and in its holder's index. -/
theorem touch_core {d : Nanos} (h : Core {} e) (hj : e.jobs[id]? = some j)
    (hst : j.state = .reserved) (hres : j.reserver = some c) :
    Core {} (((e.modJob id fun j => { j with deadlineAt := d }).modConn c fun k =>
      { k with reservedByDeadline :=
          (k.reservedByDeadline.erase (j.deadlineAt, id)).insert (d, id) }).refreshConnTick c) := by
  have hpl : (places none e.jobs)[id]? = some ⟨j.tube, .reserved c j.deadlineAt j.listSeq⟩ := by
    rw [place_of_job hj, JobRec.place, hst, hres]
    rfl
  obtain ⟨r, hr, hheld⟩ := h.placed.boxed.filed (l := .held c j.listSeq) hpl (by simp [Place.locs])
  obtain ⟨r', hr', hdue⟩ := h.placed.boxed.filed (l := .due c j.deadlineAt) hpl
    (by simp [Place.locs])
  obtain rfl : r = r' := Option.some.inj (hr.symm.trans hr')
  obtain ⟨k, hc, rfl⟩ : ∃ k, e.conns[c]? = some k ∧ k.resv = r := by
    exact TreeMap.map_eq_some_iff.mp hr
  have hp := h.placed.refile (x := ⟨j.tube, .reserved c d j.listSeq⟩) hpl
    (filed_touch hr hheld hdue) rfl rfl rfl rfl rfl rfl rfl
  have hjobs : places none (e.jobs.modify id fun j => { j with deadlineAt := d }) =
      (places none e.jobs).insert id ⟨j.tube, .reserved c d j.listSeq⟩ := by
    ext i : 1
    rw [places_none, ExtTreeMap.getElem?_insert, places_none]
    by_cases hi : id = i
    · subst hi
      rw [TreeMap.getElem?_modify_of hj]
      simp [JobRec.place, hst, hres]
    · rw [TreeMap.getElem?_modify_ne (Ne.symm hi)]
      simp [hi]
  refine refreshConnTick_core (s := {}) { h with
    placed := hp.congr rfl (TreeMap.map_modify_at hc _ _) hjobs
    jobs := h.jobs.modify (fun j hj => ⟨hj.id, hj.below, hj.ttr, hj.holder⟩) fun _ _ hl => hl
    pending := h.pending.congr (TreeMap.map_modify fun _ => rfl) modify_none
    housed := h.housed.congr rfl (TreeMap.map_modify fun _ => rfl)
    watched := h.watched.congr rfl (TreeMap.map_modify fun _ => rfl)
    queued := h.queued.congr rfl (TreeMap.map_modify fun _ => rfl)
    ticks := ticks_touch h.ticks fun _ => rfl
    conns := h.conns.congr (TreeMap.map_modify fun _ => rfl)
      (TreeMap.map_modify fun _ => rfl) }

theorem cmdTouch_core (h : Core {} e) : Core {} (e.cmdTouch now c id) := by
  unfold cmdTouch
  simp only
  split
  · next t j hr hj =>
    obtain ⟨j', hj', hst, hres, -⟩ := reservedBy_eq_some hr
    obtain rfl : j' = j := Option.some.inj (hj'.symm.trans hj)
    exact reply_core (touch_core (countOp_core h) hj hst hres)
  · exact reply_core (countOp_core h)

theorem cmdTouch_same (e : Engine) (now : Nanos) (c : ConnId) (i : JobId) :
    Same e (e.cmdTouch now c i) := by
  unfold cmdTouch
  simp only
  split
  · refine Same.trans ?_ (reply_same _ c _)
    refine Same.trans ?_ (refreshConnTick_same _ c)
    refine Same.trans ?_ (modConn_same _ c fun _ => rfl)
    refine Same.trans ?_ (modJob_same _ i fun _ => by simp only [JobRec.fixed])
    exact countOp_same e _
  · exact (countOp_same e _).trans (reply_same _ c _)

/-! ## Kicking -/

/-- The job at the head of a tube's delayed set. -/
theorem delayed_job {ts : TubeState} {d : Nanos} (h : Core s e)
    (ht : Slab.get e.tubes tube = some ts) (hd : (d, id) ∈ ts.delayed) :
    ∃ j, e.jobs[id]? = some j ∧ j.state = .delayed ∧ j.tube = tube ∧ j.deadlineAt = d := by
  obtain ⟨j, hj, hl⟩ := job_of_filed (l := .delayed tube d) h ⟨ts.queues, Slab.view_of_get ht, hd⟩
  exact ⟨j, hj, mem_locs_delayed.mp hl⟩

/-- `kick` of the tube's oldest buried job, up to its dispatch. -/
def reviveBuried (tube : TubeId) (e : Engine) : Option Engine :=
  (e.popBuriedFront tube).map fun (id, e) => e.revive tube id

/-- `kick` of the tube's soonest delayed job, up to its dispatch. -/
def reviveDelayed (tube : TubeId) (e : Engine) : Option Engine :=
  ((e.tube tube).bind fun t => TreeMap.first t.delayed).map fun (_, id) =>
    (e.removeDelayed tube id).revive tube id

theorem kickBuried_eq (e : Engine) (now : Nanos) (t : TubeId) :
    kickBuried now t e = (reviveBuried t e).map fun e => e.processQueue now := by
  unfold kickBuried reviveBuried
  cases e.popBuriedFront t <;> rfl

theorem kickDelayed_eq (e : Engine) (now : Nanos) (t : TubeId) :
    kickDelayed now t e = (reviveDelayed t e).map fun e => e.processQueue now := by
  unfold kickDelayed reviveDelayed
  cases (e.tube t).bind fun t => TreeMap.first t.delayed <;> rfl

theorem reviveBuried_core (h : Core {} e) (hstep : reviveBuried tube e = some e') :
    Core { owed := true } e' := by
  obtain ⟨⟨id, e₁⟩, hpop, rfl⟩ := Option.map_eq_some_iff.mp hstep
  obtain ⟨j, hj, hst, ht, rfl⟩ := popBuriedFront_spec h hpop
  obtain ⟨j', hj', hfix⟩ := (unbury_same e tube j.listSeq).job_some hj
  exact revive_core (unbury_core h hj hst ht rfl) hj' ((congrArg JobCore.tube hfix).trans ht)

theorem reviveDelayed_core (h : Core {} e) (hstep : reviveDelayed tube e = some e') :
    Core { owed := true } e' := by
  obtain ⟨⟨d, id⟩, hhead, rfl⟩ := Option.map_eq_some_iff.mp hstep
  obtain ⟨ts, hts, hfirst⟩ := Option.bind_eq_some_iff.mp hhead
  obtain ⟨j, hj, hst, ht, -⟩ := delayed_job h hts (TreeMap.first_eq_some_iff.mp hfirst).1
  obtain ⟨j', hj', hfix⟩ := (removeDelayed_same e tube id).job_some hj
  exact revive_core (removeDelayed_core h hj hst ht) hj' ((congrArg JobCore.tube hfix).trans ht)

theorem kickBuried_core (h : Core {} e) (hstep : kickBuried now tube e = some e') :
    Core {} e' := by
  rw [kickBuried_eq] at hstep
  obtain ⟨e₁, he, rfl⟩ := Option.map_eq_some_iff.mp hstep
  exact processQueue_core (reviveBuried_core h he)

theorem kickDelayed_core (h : Core {} e) (hstep : kickDelayed now tube e = some e') :
    Core {} e' := by
  rw [kickDelayed_eq] at hstep
  obtain ⟨e₁, he, rfl⟩ := Option.map_eq_some_iff.mp hstep
  exact processQueue_core (reviveDelayed_core h he)

theorem kickBuried_same (hstep : kickBuried now tube e = some e') : Same e e' := by
  unfold kickBuried at hstep
  split at hstep
  · cases hstep
  next id e₁ hpop =>
  cases hstep
  refine Same.trans ?_ (kickToReady_same _ tube id now)
  unfold popBuriedFront at hpop
  split at hpop
  · cases hpop
  · cases hpop
    exact unbury_same e tube _

theorem kickDelayed_same (hstep : kickDelayed now tube e = some e') : Same e e' := by
  unfold kickDelayed at hstep
  split at hstep
  · cases hstep
  · cases hstep
    exact (removeDelayed_same e tube _).trans (kickToReady_same _ tube _ now)

/-- What every round of a kick preserves, the kick preserves. -/
theorem kickLoop_inv {P : Engine → Prop} {step : Engine → Option Engine}
    (hstep : ∀ e e', P e → step e = some e' → P e') (n : Nat) :
    ∀ {e : Engine} (count : Nat), P e → P (kickLoop step n e count).1 := by
  induction n with
  | zero => intro e count h; exact h
  | succ n ih =>
    intro e count h
    unfold kickLoop
    split
    · exact h
    · next e' he => exact ih (count + 1) (hstep e e' h he)

theorem cmdKick_core {n : Nat} (h : Core {} e) : Core {} (e.cmdKick now c n) := by
  refine reply_core (kickLoop_inv (fun e₁ e₂ h₁ hstep => ?_) n 0 (countOp_core h))
  split at hstep
  · exact kickBuried_core h₁ hstep
  · exact kickDelayed_core h₁ hstep

theorem cmdKick_same (e : Engine) (now : Nanos) (c : ConnId) (n : Nat) :
    Same e (e.cmdKick now c n) := by
  refine Same.trans ?_ (reply_same _ c _)
  refine kickLoop_inv (fun e₁ e₂ h₁ hstep => ?_) n 0 (countOp_same e _)
  split at hstep
  · exact h₁.trans (kickBuried_same hstep)
  · exact h₁.trans (kickDelayed_same hstep)

theorem kickToReady_core (h : Core { limbo := some id, owed := o } e) (hj : e.jobs[id]? = some j)
    (ht : j.tube = tube) : Core {} (e.kickToReady tube id now) :=
  processQueue_core (revive_core h hj ht)

theorem cmdKickJob_core (h : Core {} e) : Core {} (e.cmdKickJob now c id) := by
  unfold cmdKickJob
  split
  · exact reply_core h
  next j hj =>
  split
  · next hst =>
    obtain ⟨j', hj', hfix⟩ := (removeBuried_same e j.tube id).job_some hj
    exact reply_core (kickToReady_core (removeBuried_core h hj hst rfl) hj'
      (congrArg JobCore.tube hfix))
  · next hst =>
    obtain ⟨j', hj', hfix⟩ := (removeDelayed_same e j.tube id).job_some hj
    exact reply_core (kickToReady_core (removeDelayed_core h hj hst rfl) hj'
      (congrArg JobCore.tube hfix))
  · exact reply_core h
  · exact reply_core h

theorem cmdKickJob_same (e : Engine) (now : Nanos) (c : ConnId) (i : JobId) :
    Same e (e.cmdKickJob now c i) := by
  unfold cmdKickJob
  split
  · exact reply_same e c _
  split
  · exact ((removeBuried_same e _ i).trans (kickToReady_same _ _ i now)).trans (reply_same _ c _)
  · exact ((removeDelayed_same e _ i).trans (kickToReady_same _ _ i now)).trans (reply_same _ c _)
  · exact reply_same e c _
  · exact reply_same e c _

/-! ## Pausing -/

/-- A pause lasts at least a nanosecond. -/
theorem pauseNanos_pos (delay : Nat) : 0 < pauseNanos delay := by
  unfold pauseNanos nanosPerSec
  split
  · exact Nat.one_pos
  · show 0 < delay * 1000000000
    omega

theorem cmdPauseTube_core {name : TubeName} (h : Core {} e) :
    Core {} (e.cmdPauseTube now c name delay) := by
  unfold cmdPauseTube
  simp only
  split
  · exact reply_core (countOp_core h)
  next tid _ =>
  split
  · exact countOp_core h
  next t ht =>
  have ht' : Slab.get e.tubes tid = some t := ht
  refine reply_core ?_
  have hpauses : PausesOk (Slab.view TubeState.pauseKey (Slab.modify e.tubes tid fun t =>
      { t with pause := pauseNanos delay, unpauseAt := satAdd now (pauseNanos delay)
               stat := { t.stat with pauseCt := inc64 t.stat.pauseCt } }))
      (Index.rekey e.pauses tid t.pauseKey (some (satAdd now (pauseNanos delay)))) := by
    refine Index.Of.rekey h.pauses ?_ ?_ fun u hu => ?_
    · simp only [Slab.view_of_get ht']
      rfl
    · simp only [Slab.view_modify_at _ _ ht', Slab.setAt_self, TubeState.pauseKey,
        if_pos (pauseNanos_pos delay)]
      rfl
    · simp only [Slab.view_modify_at _ _ ht', Slab.setAt_ne (Ne.symm hu)]
  -- a tube that is paused has nothing to hand out
  have hcalm := calm_modify (t := tid) h.calm (f := fun t =>
    { t with pause := pauseNanos delay, unpauseAt := satAdd now (pauseNanos delay)
             stat := { t.stat with pauseCt := inc64 t.stat.pauseCt } }) (by
    intro ts hb
    simp only [TubeState.busy, Bool.and_eq_true, beq_iff_eq] at hb
    exact absurd hb.2 (Nat.ne_of_gt (pauseNanos_pos delay)))
  exact (countOp_core h).retube (fun _ => rfl) hpauses hcalm

theorem cmdPauseTube_same (e : Engine) (now : Nanos) (c : ConnId) (name : TubeName) (delay : Nat) :
    Same e (e.cmdPauseTube now c name delay) := by
  unfold cmdPauseTube
  simp only
  split
  · exact (countOp_same e _).trans (reply_same _ c _)
  split
  · exact countOp_same e _
  refine Same.trans ?_ (reply_same _ c _)
  exact { Same.refl e with
    slots := Slab.length_modify ..
    tubes := Slab.view_modify fun _ => rfl }

end Engine

end Beanstalkd
