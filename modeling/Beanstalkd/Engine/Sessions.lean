import Beanstalkd.Engine.Hand
import Beanstalkd.Engine.Subscriptions

/-!
# Opening and closing connections

`connect` adds a connection that uses and watches "default" and does nothing
else. `disconnect` undoes what the connection did, in the order of the source:
it leaves the wait lists, its reserved jobs go back to ready one by one with a
dispatch after each, and then the tubes it watched and the one it used lose
their references and may be collected.

Between the two ends the connection is still in the table with an empty watch
list, so the references are carried by what it *still has to give up* and not
by the table: `RefsOk` is stated for `watches.insert c rest` while `rest` is
left.
-/

open Std

namespace Beanstalkd

open Slab (setAt)

/-! ## A connection more, a connection less -/

section Groups

variable {Q : TubeId → Option Queues} {R : ExtTreeMap ConnId Resv} {P : ExtTreeMap JobId Place}
  {T : Tally} {n : Nat} {c : ConnId} {p : ExtTreeMap ConnId (Option JobId)}
  {J : ExtTreeMap JobId JobRec} {S : TubeId → Option (TubeName × Nat)}
  {W : ExtTreeMap ConnId (List TubeId)} {ticks : ExtTreeMap ConnId (Option Nanos × Option Nanos)}
  {s : ExtTreeSet (Nanos × ConnId)} {wait : ExtTreeMap ConnId (Bool × Option Nanos)}
  {roles : ExtTreeMap ConnId (Bool × Bool)} {census : Census}

/-- A connection without reservations appears. -/
theorem Placed.openConn (h : Placed Q R P T n) (hc : R[c]? = none) :
    Placed Q (R.insert c ⟨∅, ∅⟩) P T n where
  boxed := by
    intro l i
    rw [← h.boxed l i]
    cases l <;> simp only [Filed] <;> grind
  tally := h.tally
  tubes := h.tubes
  seqs := h.seqs

/-- The connection whose container a position is in. -/
def Loc.conn? : Loc → Option ConnId
  | .held c _ | .due c _ => some c
  | .ready .. | .delayed .. | .buried .. => none

theorem reserved_of_loc {l : Loc} {p : Place} (hl : l ∈ p.locs) (hc : l.conn? = some c) :
    ∃ d s, p.spot = .reserved c d s := by
  obtain ⟨tube, spot⟩ := p
  cases spot <;> simp [Place.locs] at hl
  case reserved => rcases hl with rfl | rfl <;> cases hc <;> exact ⟨_, _, rfl⟩
  all_goals
    subst hl
    cases hc

/-- A connection that holds no job disappears. -/
theorem Placed.closeConn (h : Placed Q R P T n)
    (hc : ∀ (i : JobId) (p : Place), P[i]? = some p → ∀ d s, p.spot ≠ .reserved c d s) :
    Placed Q (R.erase c) P T n where
  boxed := by
    intro l i
    rw [← h.boxed l i]
    have hno : l.conn? = some c → ¬Filed Q R l i := by
      intro hl hf
      obtain ⟨p, hp, hmem⟩ := h.boxed.place_of_filed hf
      obtain ⟨d, s, hs⟩ := reserved_of_loc hmem hl
      exact hc i p hp d s hs
    cases l <;> simp only [Filed, Loc.conn?] at hno ⊢ <;> grind
  tally := h.tally
  tubes := h.tubes
  seqs := h.seqs

/-- No other put is pending. -/
theorem PendOk.mono {p' : ExtTreeMap ConnId (Option JobId)} (h : PendOk p J n)
    (hold : ∀ {d : ConnId} {i : JobId}, p'[d]? = some (some i) → p[d]? = some (some i)) :
    PendOk p' J n :=
  ⟨fun hd => h.below (hold hd), fun hd => h.unused (hold hd),
    fun hd hd' => h.distinct (hold hd) (hold hd')⟩

theorem PendOk.openConn (h : PendOk p J n) : PendOk (p.insert c none) J n := by
  refine h.mono fun hd => ?_
  rw [ExtTreeMap.getElem?_insert] at hd
  split at hd
  · cases hd
  · exact hd

theorem PendOk.closeConn (h : PendOk p J n) : PendOk (p.erase c) J n :=
  h.mono fun hd => (TreeMap.erase_eq_some_iff.mp hd).2

theorem Watched.closeConn (h : Watched S W) : Watched S (W.erase c) :=
  ⟨fun hw => h.live (TreeMap.erase_eq_some_iff.mp hw).2,
    fun hw => h.nodup (TreeMap.erase_eq_some_iff.mp hw).2⟩

/-- A connection on no wait list comes or goes. -/
theorem Queued.idle {waits : TubeId → Option (List ConnId × Nat)}
    {K K' : ExtTreeMap ConnId (List TubeId)} (h : Queued none waits K)
    (hK : ∀ d t, WaitsOn K' d t ↔ WaitsOn K d t) : Queued none waits K' := by
  intro t l m ht
  obtain ⟨hnd, hmem, hlen⟩ := h t l m ht
  exact ⟨hnd, fun d => by rw [hmem d, hK], hlen⟩

theorem TicksOk.openConn (h : TicksOk none ticks s) (hc : ticks[c]? = none) :
    TicksOk none (ticks.insert c (none, none)) s :=
  Index.Current.add h hc ExtTreeMap.getElem?_insert_self fun d hd => by
    rw [ExtTreeMap.getElem?_insert, if_neg fun he => hd (LawfulEqOrd.eq_of_compare he).symm]

theorem TicksOk.closeConn {p : Option Nanos × Option Nanos} (h : TicksOk none ticks s)
    (hc : ticks[c]? = some p) : TicksOk none (ticks.erase c) (Index.rekey s c p.2 none) :=
  Index.Current.drop h hc ExtTreeMap.getElem?_erase_self fun d hd => by
    rw [ExtTreeMap.getElem?_erase, if_neg fun he => hd (LawfulEqOrd.eq_of_compare he).symm]

theorem ConnsOk.openConn (h : ConnsOk wait roles census n) (hw : wait[c]? = none)
    (hr : roles[c]? = none) :
    ConnsOk (wait.insert c (false, none)) (roles.insert c (false, false))
      { census with curConns := census.curConns + 1, totConns := inc32 census.totConns } n where
  cur := by
    have hc : ¬roles.contains c = true := TreeMap.not_contains_of hr
    rw [ExtTreeMap.size_insert, if_neg hc]
    exact congrArg (· + 1) h.cur
  producers := by
    rw [TreeMap.count_insert hr]
    exact h.producers
  workers := by
    rw [TreeMap.count_insert hr]
    exact h.workers
  waiting := by
    rw [TreeMap.count_insert hw]
    exact h.waiting
  idle := by
    intro d w hd
    rcases (TreeMap.insert_eq_some_iff hw).mp hd with ⟨-, hp⟩ | hd
    · exact congrArg Prod.snd hp
    · exact h.idle hd

theorem ConnsOk.closeConn {w : Option Nanos} {r : Bool × Bool} (h : ConnsOk wait roles census n)
    (hw : wait[c]? = some (false, w)) (hr : roles[c]? = some r) :
    ConnsOk (wait.erase c) (roles.erase c)
      { census with curConns := census.curConns - 1
                    curProducers := census.curProducers - r.1.toNat
                    curWorkers := census.curWorkers - r.2.toNat } n where
  cur := by
    have hc : roles.contains c = true := TreeMap.contains_of hr
    rw [ExtTreeMap.size_erase, if_pos hc]
    exact congrArg (· - 1) h.cur
  producers := by
    rw [h.producers, ← TreeMap.count_erase hr]
    exact Nat.add_sub_cancel ..
  workers := by
    rw [h.workers, ← TreeMap.count_erase hr]
    exact Nat.add_sub_cancel ..
  waiting := by
    rw [h.waiting, ← TreeMap.count_erase hw]
    rfl
  idle := fun hd => h.idle (TreeMap.erase_eq_some_iff.mp hd).2

section References

variable {o : List TubeId} {refs : TubeId → Option RefCts} {U : ExtTreeMap ConnId TubeId}
  {W : ExtTreeMap ConnId (List TubeId)} {H : ExtTreeMap JobId TubeId}

/-- A connection that watches nothing refers to nothing by it. -/
theorem RefsOk.openConn (h : RefsOk o refs U W H) (hc : W[c]? = none) :
    RefsOk o refs U (W.insert c []) H where
  counts := by
    intro i r hi
    rw [h.counts hi]
    simp [refsOf, TreeMap.count_insert hc]
  use_live := h.use_live
  referenced := h.referenced

/-- What counts of a watch list is which tubes are on it. -/
theorem RefsOk.rewatch {w w' : List TubeId} (h : RefsOk o refs U W H) (hc : W[c]? = some w)
    (hw : ∀ t, t ∈ w' ↔ t ∈ w) : RefsOk o refs U (W.insert c w') H where
  counts := by
    intro i r hi
    have hi' : w'.contains i = w.contains i := by
      rw [Bool.eq_iff_iff, List.contains_iff_mem, List.contains_iff_mem]
      exact hw i
    have hct := watching_insert (U := U) (H := H) hc w' i
    rw [hi'] at hct
    rw [h.counts hi]
    show RefCts.mk .. = RefCts.mk ..
    simp only [RefCts.mk.injEq, true_and, and_true]
    exact (Nat.add_right_cancel hct).symm
  use_live := h.use_live
  referenced := h.referenced

theorem RefsOk.closeConn (h : RefsOk o refs U W H) (hc : W[c]? = some []) :
    RefsOk o refs U (W.erase c) H where
  counts := by
    intro i r hi
    rw [h.counts hi]
    simp [refsOf, ← TreeMap.count_erase hc]
  use_live := h.use_live
  referenced := h.referenced

end References

end Groups

namespace Engine

variable {e e' : Engine} {c : ConnId} {k : ConnState} {now : Nanos} {l : List JobId}

/-! ## Connecting -/

theorem map_conns_none {β : Type} {a : ConnState → β} (hc : e.conns[c]? = none) :
    (e.conns.map fun _ k => a k)[c]? = none := by
  rw [ExtTreeMap.getElem?_map, hc]
  rfl

theorem connect_core (h : Core {} e) (hc : e.conns[c]? = none) : Core {} (e.connect c) := by
  have h₁ : Core {} (e.modTube defaultTubeId fun t =>
      { t with usingCt := t.usingCt + 1, watchingCt := t.watchingCt + 1 }) :=
    modTube_core h fun _ => rfl
  unfold connect
  generalize he₁ : (e.modTube defaultTubeId fun t =>
      { t with usingCt := t.usingCt + 1, watchingCt := t.watchingCt + 1 }) = e₁ at h₁ ⊢
  have hc₁ : e₁.conns[c]? = none := by rw [← he₁]; exact hc
  simp only [hc₁, Option.bind_none]
  have hK : ∀ d t, WaitsOn (e₁.waitQueues.insert c []) d t ↔ WaitsOn e₁.waitQueues d t := by
    intro d t
    unfold WaitsOn
    have hnone : e₁.waitQueues[c]? = none := map_conns_none hc₁
    grind
  exact { h₁ with
    placed := (h₁.placed.openConn (map_conns_none hc₁)).congr rfl
      (TreeMap.map_insert _ _ _ ConnState.resv) rfl
    pending := h₁.pending.openConn.congr (TreeMap.map_insert _ _ _ ConnState.pendingId)
      fun _ hj => hj
    watched := (h₁.watched.openConn (w := [defaultTubeId])
      (fun t ht => ⟨_, List.mem_singleton.mp ht ▸ h₁.dir.default⟩) (by simp)).congr rfl
      (TreeMap.map_insert _ _ _ fun k : ConnState => k.watch.items)
    queued := (h₁.queued.idle hK).congr rfl (TreeMap.map_insert _ _ _ ConnState.queue)
    ticks := (h₁.ticks.openConn (map_conns_none hc₁)).congr
      (TreeMap.map_insert _ _ _ ConnState.ticks)
    conns := (h₁.conns.openConn (map_conns_none hc₁) (map_conns_none hc₁)).congr
      (TreeMap.map_insert _ _ _ ConnState.wait) (TreeMap.map_insert _ _ _ ConnState.roles) }

theorem connect_inv (h : Inv e) (hc : e.conns[c]? = none) : Inv (e.connect c) := by
  obtain ⟨ts, hts, -⟩ := Slab.view_eq_some_iff.mp h.core.dir.default
  refine ⟨connect_core h.core hc, ?_, ?_, h.allocated⟩
  · -- the new connection refers to "default" twice
    have hr : RefsOk [] _ _ _ _ :=
      RefsOk.use h.refs (Slab.view_of_get hts) (map_conns_none hc) nofun
    have hr' : RefsOk [] _ _ _ _ :=
      RefsOk.watch (hr.openConn (map_conns_none hc)) (Slab.setAt_self ..)
      ExtTreeMap.getElem?_insert_self (List.not_mem_nil) nofun
    refine hr'.congr ?_ (TreeMap.map_insert _ _ _ ConnState.useTube) ?_ rfl
    · rw [Slab.setAt_setAt]
      exact Slab.view_modify_at _ _ hts
    · rw [TreeMap.insert_insert]
      exact TreeMap.map_insert _ _ _ fun k : ConnState => k.watch.items
  · intro d w hw
    have hW : (e.connect c).watches = e.watches.insert c [defaultTubeId] :=
      TreeMap.map_insert _ _ _ fun k : ConnState => k.watch.items
    rw [hW] at hw
    rcases (TreeMap.insert_eq_some_iff (map_conns_none hc)).mp hw with ⟨-, rfl⟩ | hd
    · simp
    · exact h.watching d w hd

/-! ## Giving back the jobs -/

/-- Connection `c` holds job `i`. -/
def Holds (e : Engine) (c : ConnId) (i : JobId) : Prop :=
  ∃ j, e.jobs[i]? = some j ∧ j.state = .reserved ∧ j.reserver = some c

/-- What a connection holds is what it lists. -/
theorem holds_iff (h : Core {} e) (hc : e.conns[c]? = some k) (i : JobId) :
    e.Holds c i ↔ ∃ s : Nat, k.reserved[s]? = some i := by
  have hr : (e.conns.map fun _ k => ConnState.resv k)[c]? = some k.resv := TreeMap.map_of hc
  constructor
  · rintro ⟨j, hj, hst, hres⟩
    have hp : (places none e.jobs)[i]? = some ⟨j.tube, .reserved c j.deadlineAt j.listSeq⟩ := by
      rw [place_of_job hj, JobRec.place, hst, hres]
      rfl
    obtain ⟨r, hr', hs⟩ := h.placed.boxed.filed (l := .held c j.listSeq) hp (by simp [Place.locs])
    rw [hr] at hr'
    cases hr'
    exact ⟨_, hs⟩
  · rintro ⟨s, hs⟩
    obtain ⟨p, hp, hl⟩ := h.placed.boxed.place_of_filed (l := .held c s) ⟨_, hr, hs⟩
    rw [places_none] at hp
    obtain ⟨j, hj, rfl⟩ := Option.map_eq_some_iff.mp hp
    refine ⟨j, hj, ?_⟩
    have hholder := (h.jobs i j hj).holder (by simp)
    cases hst : j.state <;> simp [JobRec.place, Place.locs, hst] at hl
    refine ⟨rfl, ?_⟩
    obtain ⟨d, hd⟩ := Option.isSome_iff_exists.mp (hholder.mpr hst)
    rw [hd] at hl ⊢
    simp at hl
    rw [hl.1]

/-- The list has no job twice: a job is filed under one key. -/
theorem nodup_reserved (h : Core {} e) (hc : e.conns[c]? = some k) :
    (TreeMap.values k.reserved).Nodup := by
  have hr : (e.conns.map fun _ k => ConnState.resv k)[c]? = some k.resv := TreeMap.map_of hc
  refine TreeMap.nodup_values fun s s' i hs hs' => ?_
  obtain ⟨p, hp, hl⟩ := h.placed.boxed.place_of_filed (l := .held c s) ⟨_, hr, hs⟩
  obtain ⟨p', hp', hl'⟩ := h.placed.boxed.place_of_filed (l := .held c s') ⟨_, hr, hs'⟩
  rw [hp] at hp'
  cases hp'
  obtain ⟨tube, spot⟩ := p
  cases spot <;> simp [Place.locs] at hl hl'
  exact hl.2.trans hl'.2.symm

/-- A connection that leaves: it does not wait and holds just the jobs of `l`. -/
structure Leaving (c : ConnId) (l : List JobId) (e : Engine) : Prop where
  core : Core {} e
  idle : e.isWaiting c = false
  holds : ∀ i, e.Holds c i ↔ i ∈ l

/-- A held job goes back to its tube, as a disconnect puts it there before it dispatches. -/
def giveBack (c : ConnId) (e : Engine) (id : JobId) : Engine :=
  let e := e.doUnreserve c id
  match e.jobs[id]? with
  | some j => e.insertReady j.tube id
  | none => e

theorem releaseOne_eq (now : Nanos) (c : ConnId) (e : Engine) (id : JobId) :
    releaseOne now c e id = (giveBack c e id).processQueue now := rfl

/-- What giving back one job comes to. -/
structure GivenBack (c : ConnId) (id : JobId) (e e' : Engine) : Prop where
  core : Core { owed := true } e'
  idle : e'.isWaiting c = false
  self : ∃ j, e'.jobs[id]? = some j ∧ j.state = .ready
  others : ∀ i, i ≠ id → e'.jobs[i]? = e.jobs[i]?

theorem giveBack_spec {id : JobId} (h : Leaving c (id :: l) e) :
    GivenBack c id e (giveBack c e id) := by
  obtain ⟨j, hj, hst, hres⟩ := (h.holds id).mpr List.mem_cons_self
  have hj₁ : (e.doUnreserve c id).jobs[id]? = some { j with reserver := none } := by
    rw [doUnreserve_jobs]
    exact TreeMap.getElem?_modify_of hj
  unfold giveBack
  simp only [hj₁]
  refine ⟨insertReady_core (doUnreserve_core h.core hj hst hres) hj₁ rfl, ?_,
    ⟨{ j with state := .ready, reserver := none }, ?_, rfl⟩, fun i hi => ?_⟩
  · rw [isWaiting, insertReady_conns]
    exact (isWaiting_congr (doUnreserve_wait e c id c)).trans h.idle
  · rw [insertReady_jobs, TreeMap.getElem?_modify_of hj₁]
  · rw [insertReady_jobs, TreeMap.getElem?_modify_ne hi, doUnreserve_jobs,
      TreeMap.getElem?_modify_ne hi]

/-- One job goes back; the dispatch gives the connection no other. -/
theorem releaseOne_leaving {id : JobId} (h : Leaving c (id :: l) e) (hid : id ∉ l) :
    Leaving c l (releaseOne now c e id) := by
  have hg := giveBack_spec h
  have hd : Dispatched now _ (processQueue _ now) := processQueue_dispatched hg.core now
  obtain ⟨j, hself, hready⟩ := hg.self
  rw [releaseOne_eq]
  refine ⟨processQueue_core hg.core, ?_, fun i => ?_⟩
  · rw [isWaiting, hd.idle hg.idle]
    exact hg.idle
  constructor
  · rintro ⟨j', hj', hst', hres'⟩
    have hj₂ := hd.gained hg.idle hj' hres'
    by_cases hi : i = id
    · subst hi
      rw [hself] at hj₂
      cases hj₂
      rw [hready] at hst'
      cases hst'
    · rw [hg.others i hi] at hj₂
      exact (List.mem_cons.mp ((h.holds i).mp ⟨j', hj₂, hst', hres'⟩)).resolve_left hi
  · intro hi
    have hne : i ≠ id := fun he => hid (he ▸ hi)
    obtain ⟨j', hj', hst', hres'⟩ := (h.holds i).mpr (List.mem_cons_of_mem _ hi)
    exact ⟨j', hd.kept (by rw [hg.others i hne, hj']) hst', hst', hres'⟩

theorem releaseAll_leaving (now : Nanos) (h : Leaving c l e) (hnd : l.Nodup) :
    Leaving c [] (l.foldl (releaseOne now c) e) := by
  induction l generalizing e with
  | nil => exact h
  | cons id l ih =>
    rw [List.nodup_cons] at hnd
    exact ih (releaseOne_leaving h hnd.1) hnd.2

theorem releaseOne_same (e : Engine) (c : ConnId) (id : JobId) :
    Same e (releaseOne now c e id) := by
  refine Same.trans ?_ (processQueue_same _ now)
  refine (doUnreserve_same e c id).trans ?_
  split
  · exact insertReady_same ..
  · exact .refl _

/-! ## Giving up the tubes -/

theorem deleteOrder_perm {α : Type} : ∀ (n : Nat) (l : List α), l.length ≤ n →
    (Ms.deleteOrder n l).Perm l := by
  intro n
  induction n with
  | zero =>
    intro l hl
    rw [List.length_eq_zero_iff.mp (Nat.le_zero.mp hl)]
    exact .refl _
  | succ n ih =>
    intro l hl
    cases l with
    | nil => exact .refl _
    | cons a l =>
      have hp : (a :: l).Perm (a :: SwapRemove.swapRemove (a :: l) 0) :=
        SwapRemove.swapRemove_perm rfl
      have hlen := hp.length_eq
      exact ((ih _ (by simp only [List.length_cons] at hl hlen; omega)).cons a).trans hp.symm

theorem clearInDeleteOrder_perm {α : Type} (m : Ms α) : m.clearInDeleteOrder.Perm m.items :=
  deleteOrder_perm _ _ (Nat.le_refl _)

theorem dropWatch_live {t u : TubeId} (hne : u ≠ t) (h : ∃ ts, Slab.get e.tubes u = some ts) :
    ∃ ts, Slab.get (e.dropWatch t).tubes u = some ts := by
  refine gcTubeIfOrphan_live hne ?_
  obtain ⟨ts, hts⟩ := h
  exact ⟨ts, by rw [modTube, Slab.get_modify_ne (Ne.symm hne), hts]⟩

/-- The watched tubes lose their watcher one by one; `rest` is what is left of
the watch list, which the table already shows as empty. -/
theorem dropWatches_ok {U : ExtTreeMap ConnId TubeId} {W : ExtTreeMap ConnId (List TubeId)} :
    ∀ (rest : List TubeId) {e : Engine}, Core {} e → Refs [] U (W.insert c rest) e →
      e.watches = W.insert c [] → rest.Nodup → (∀ t ∈ rest, ∃ ts, Slab.get e.tubes t = some ts) →
      Core {} (rest.foldl dropWatch e) ∧ Refs [] U (W.insert c []) (rest.foldl dropWatch e) ∧
        (rest.foldl dropWatch e).conns = e.conns ∧ (rest.foldl dropWatch e).jobs = e.jobs ∧
        (rest.foldl dropWatch e).nextJobId = e.nextJobId := by
  intro rest
  induction rest with
  | nil =>
    intro e h hr _ _ _
    exact ⟨h, hr, rfl, rfl, rfl⟩
  | cons t rest ih =>
    intro e h hr hW hnd hlive
    obtain ⟨ts, hts⟩ := hlive t List.mem_cons_self
    obtain ⟨h₁, hr₁⟩ := dropWatch_ok h hr ExtTreeMap.getElem?_insert_self hnd (.refl _) hts (by
      intro d v hv hm
      rw [hW, ExtTreeMap.getElem?_insert] at hv
      split at hv
      · cases hv
        cases hm
      next hne =>
      refine ⟨d, v, ?_, hm⟩
      rw [ExtTreeMap.getElem?_insert, if_neg hne, ExtTreeMap.getElem?_insert, if_neg hne, hv])
    rw [TreeMap.insert_insert] at hr₁
    obtain ⟨hconns, hjobs, hnext⟩ := dropWatch_frame e t
    rw [List.nodup_cons] at hnd
    have hlive₁ : ∀ u ∈ rest, ∃ ts, Slab.get (e.dropWatch t).tubes u = some ts := fun u hu =>
      dropWatch_live (fun he => hnd.1 (he ▸ hu)) (hlive u (List.mem_cons_of_mem _ hu))
    have hW₁ : (e.dropWatch t).watches = W.insert c [] := by
      rw [← hW, watches, watches, hconns]
    obtain ⟨h₂, hr₂, hconns₂, hjobs₂, hnext₂⟩ := ih h₁ hr₁ hW₁ hnd.2 hlive₁
    exact ⟨h₂, hr₂, hconns₂.trans hconns, hjobs₂.trans hjobs, hnext₂.trans hnext⟩

theorem foldl_dropWatch_conns (l : List TubeId) (e : Engine) :
    (l.foldl dropWatch e).conns = e.conns := by
  induction l generalizing e with
  | nil => rfl
  | cons t l ih => rw [List.foldl_cons, ih, (dropWatch_frame e t).1]

/-! ## Forgetting the connection -/

theorem removeConn_core (h : Core {} e) (hc : e.conns[c]? = some k) (hk : k.waiting = false)
    (hheld : ∀ i, ¬e.Holds c i) : Core {} (e.removeConn c) := by
  have hat {β : Type} (a : ConnState → β) : (e.conns.map fun _ k => a k)[c]? = some (a k) :=
    TreeMap.map_of hc
  unfold removeConn
  simp only [hc]
  have hK : ∀ d t, WaitsOn (e.waitQueues.erase c) d t ↔ WaitsOn e.waitQueues d t := by
    intro d t
    unfold WaitsOn
    have hnil : e.waitQueues[c]? = some [] := by
      rw [waitQueues_of_conn hc, ConnState.queue, hk]
      rfl
    grind
  have hw : (e.conns.map fun _ k => ConnState.wait k)[c]? = some (false, k.waitDeadline) := by
    rw [hat, ConnState.wait, hk]
  exact { h with
    placed := (h.placed.closeConn (by
      intro i p hp d s hspot
      rw [places_none] at hp
      obtain ⟨j, hj, rfl⟩ := Option.map_eq_some_iff.mp hp
      refine hheld i ⟨j, hj, ?_⟩
      have hholder := (h.jobs i j hj).holder (by simp)
      cases hst : j.state <;> simp [JobRec.place, hst] at hspot
      obtain ⟨d', hd'⟩ := Option.isSome_iff_exists.mp (hholder.mpr hst)
      rw [hd'] at hspot ⊢
      simp at hspot
      exact ⟨rfl, by rw [hspot.1]⟩)).congr rfl (TreeMap.map_erase _ _ ConnState.resv) rfl
    pending := h.pending.closeConn.congr (TreeMap.map_erase _ _ ConnState.pendingId) fun _ hj => hj
    watched := h.watched.closeConn.congr rfl
      (TreeMap.map_erase _ _ fun k : ConnState => k.watch.items)
    queued := (h.queued.idle hK).congr rfl (TreeMap.map_erase _ _ ConnState.queue)
    ticks := (h.ticks.closeConn (hat ConnState.ticks)).congr (TreeMap.map_erase _ _ ConnState.ticks)
    conns := (h.conns.closeConn hw (hat ConnState.roles)).congr
      (TreeMap.map_erase _ _ ConnState.wait) (TreeMap.map_erase _ _ ConnState.roles) }

/-- The second half of `disconnect`, from a connection that holds no job. -/
theorem giveUpTubes_inv (h : Inv e) (hl : Leaving c [] e) (hc : e.conns[c]? = some k) :
    Inv ((((k.watch.clearInDeleteOrder).foldl dropWatch
      (e.modConn c fun c => { c with watch := Ms.new })).dropUse k.useTube).removeConn c) := by
  have hk : k.waiting = false := by simpa [isWaiting, hc] using hl.idle
  have hperm := clearInDeleteOrder_perm k.watch
  have hnd := hperm.nodup_iff.mpr (h.core.watched.nodup (watches_of_conn hc))
  generalize k.watch.clearInDeleteOrder = rest at hperm hnd ⊢
  have h₁ : Core {} (e.modConn c fun c => { c with watch := Ms.new }) :=
    setWatch_core (f := fun _ => Ms.new) h.core hc hk List.nodup_nil
      fun i hi => absurd hi List.not_mem_nil
  have hW₁ : (e.modConn c fun c => { c with watch := Ms.new }).watches = e.watches.insert c [] :=
    TreeMap.map_modify_at hc _ fun k => k.watch.items
  have hU₁ : (e.modConn c fun c => { c with watch := Ms.new }).uses = e.uses :=
    TreeMap.map_modify fun _ => rfl
  have hc₁ : (e.modConn c fun c => { c with watch := Ms.new }).conns[c]? =
      some { k with watch := Ms.new } := TreeMap.getElem?_modify_of hc
  have hr₁ : Refs [] e.uses (e.watches.insert c rest)
      (e.modConn c fun c => { c with watch := Ms.new }) := by
    refine RefsOk.rewatch h.refs (watches_of_conn hc) fun t => ?_
    rw [hperm.mem_iff]
  have hlive₁ : ∀ t ∈ rest, ∃ ts,
      Slab.get (e.modConn c fun c => { c with watch := Ms.new }).tubes t = some ts := by
    intro t ht
    obtain ⟨s, hs⟩ := h.core.watched.live (watches_of_conn hc) t (hperm.mem_iff.mp ht)
    exact Slab.exists_of_view hs
  obtain ⟨h₂, hr₂, hconns₂, hjobs₂, hnext₂⟩ := dropWatches_ok rest h₁ hr₁ hW₁ hnd hlive₁
  generalize hmod : (e.modConn c fun c => { c with watch := Ms.new }) = e₁ at *
  have hjobs₁ : e₁.jobs = e.jobs := by rw [← hmod]; rfl
  have hnext₁ : e₁.nextJobId = e.nextJobId := by rw [← hmod]; rfl
  generalize rest.foldl dropWatch e₁ = e₂ at *
  have hW₂ : e₂.watches = e.watches.insert c [] := by rw [← hW₁, watches, watches, hconns₂]
  obtain ⟨h₃, hr₃⟩ := dropUse_ok h₂ hr₂ (uses_of_conn hc) fun d v hv hm => ⟨d, v, hW₂ ▸ hv, hm⟩
  obtain ⟨hconns₃, hjobs₃, hnext₃⟩ := dropUse_frame e₂ k.useTube
  generalize e₂.dropUse k.useTube = e₃ at *
  have hconns : e₃.conns = e₁.conns := hconns₃.trans hconns₂
  have hc₃ : e₃.conns[c]? = some { k with watch := Ms.new } := by rw [hconns, hc₁]
  have hheld : ∀ i, ¬e₃.Holds c i := by
    rintro i ⟨j, hj, hst⟩
    rw [hjobs₃, hjobs₂, hjobs₁] at hj
    cases (hl.holds i).mp ⟨j, hj, hst⟩
  have hU₃ : e₃.uses = e.uses := by rw [← hU₁, uses, uses, hconns]
  have hW₃ : e₃.watches = e.watches.insert c [] := by rw [← hW₁, watches, watches, hconns]
  have hrem : (e₃.removeConn c).conns = e₃.conns.erase c := by simp only [removeConn, hc₃]
  have hW₄ : (e₃.removeConn c).watches = (e.watches.insert c []).erase c := by
    rw [← hW₃, watches, hrem]
    exact TreeMap.map_erase _ _ fun k : ConnState => k.watch.items
  refine ⟨removeConn_core h₃ hc₃ hk hheld, ?_, ?_, ?_⟩
  · refine (RefsOk.closeConn hr₃ ExtTreeMap.getElem?_insert_self).congr ?_ ?_ hW₄ ?_
    · simp only [removeConn, hc₃]
    · rw [← hU₃, uses, hrem]
      exact TreeMap.map_erase _ _ ConnState.useTube
    · simp only [removeConn, hc₃, homes]
  · intro d w hw
    rw [hW₄, TreeMap.erase_eq_some_iff] at hw
    obtain ⟨hne, hw⟩ := hw
    rw [ExtTreeMap.getElem?_insert,
      if_neg fun he => hne (LawfulEqOrd.eq_of_compare he).symm] at hw
    exact h.watching d w hw
  · have : (e₃.removeConn c).nextJobId = e₃.nextJobId := by simp only [removeConn, hc₃]
    rw [this, hnext₃, hnext₂, hnext₁]
    exact h.allocated

/-- What a disconnect comes to: the connection stops waiting and gives its jobs
back (`e'` is the state then), leaves its tubes, and is forgotten. -/
structure Disconnected (now : Nanos) (c : ConnId) (e : Engine) (k k' : ConnState) (e' : Engine) :
    Prop where
  stopped : (e.doRemoveWaitingConn c).conns[c]? = some k
  leaving : Leaving c (TreeMap.values k.reserved) (e.doRemoveWaitingConn c)
  nodup : (TreeMap.values k.reserved).Nodup
  released : e' = (TreeMap.values k.reserved).foldl (releaseOne now c) (e.doRemoveWaitingConn c)
  inv : Inv e'
  free : Leaving c [] e'
  conn : e'.conns[c]? = some k'
  eq : e.disconnect now c =
    ((k'.watch.clearInDeleteOrder.foldl dropWatch
      (e'.modConn c fun c => { c with watch := Ms.new })).dropUse k'.useTube).removeConn c

theorem disconnect_spec (now : Nanos) (h : Inv e) (hc : e.conns[c]? = some k) :
    ∃ k₁ k₂ e₂, Disconnected now c e k₁ k₂ e₂ := by
  have h₁ : Core {} (e.doRemoveWaitingConn c) := doRemoveWaitingConn_core h.core nofun
  have hs₁ := doRemoveWaitingConn_same e c
  obtain ⟨k₁, hc₁, -⟩ := hs₁.conn_some hc
  have hl₁ : Leaving c (TreeMap.values k₁.reserved) (e.doRemoveWaitingConn c) :=
    ⟨h₁, doRemoveWaitingConn_idle e c, fun i => by rw [holds_iff h₁ hc₁, TreeMap.mem_values]⟩
  have hnd := nodup_reserved h₁ hc₁
  have hl₂ : Leaving c [] _ := releaseAll_leaving now hl₁ hnd
  have hs₂ := hs₁.trans (Same.foldl (f := releaseOne now c) (fun e i => releaseOne_same e c i)
    (TreeMap.values k₁.reserved) (e.doRemoveWaitingConn c))
  obtain ⟨k₂, hc₂, -⟩ := hs₂.conn_some hc
  refine ⟨k₁, k₂, _, hc₁, hl₁, hnd, rfl, h.of_same hl₂.core hs₂, hl₂, hc₂, ?_⟩
  have hin : e.conns.contains c = true := TreeMap.contains_of hc
  have hc₃ : (k₂.watch.clearInDeleteOrder.foldl dropWatch
      (((TreeMap.values k₁.reserved).foldl (releaseOne now c) (e.doRemoveWaitingConn c)).modConn c
        fun c => { c with watch := Ms.new })).conns[c]? = some { k₂ with watch := Ms.new } := by
    rw [foldl_dropWatch_conns]
    exact TreeMap.getElem?_modify_of hc₂
  unfold disconnect
  simp only [hin, if_true, hc₁, hc₂, hc₃]

/-- Disconnecting a connection that is not there does nothing. -/
theorem disconnect_none (now : Nanos) (hc : e.conns[c]? = none) : e.disconnect now c = e := by
  have hin : ¬e.conns.contains c = true := TreeMap.not_contains_of hc
  rw [disconnect, if_neg hin]

theorem disconnect_inv (h : Inv e) : Inv (e.disconnect now c) := by
  cases hc : e.conns[c]? with
  | none =>
    rw [disconnect_none now hc]
    exact h
  | some k =>
    obtain ⟨k₁, k₂, e₂, hd⟩ := disconnect_spec now h hc
    rw [hd.eq]
    exact giveUpTubes_inv hd.inv hd.free hd.conn

end Engine

end Beanstalkd
