import Beanstalkd.Engine.Holders

/-!
# The tubes a connection uses and watches

`use`, `watch` and `ignore` change what a connection refers to. The order of
their steps decides what is referenced when a tube is collected: `use` gives up
the old tube before it takes the new one, and a tube just made by `use` or
`watch` has no reference yet.
-/

open Std

namespace Beanstalkd

open Slab (setAt)

/-- A connection watches these tubes. -/
theorem Watched.openConn {S : TubeId → Option (TubeName × Nat)}
    {W : ExtTreeMap ConnId (List TubeId)} {c : ConnId} {w : List TubeId} (h : Watched S W)
    (hlive : ∀ t ∈ w, ∃ s, S t = some s) (hnd : w.Nodup) : Watched S (W.insert c w) := by
  refine ⟨fun hw => ?_, fun hw => ?_⟩ <;> rw [ExtTreeMap.getElem?_insert] at hw <;> split at hw
  · exact Option.some.inj hw ▸ hlive
  · exact h.live hw
  · exact Option.some.inj hw ▸ hnd
  · exact h.nodup hw

namespace Engine

variable {e e' : Engine} {c : ConnId} {k : ConnState} {tube : TubeId} {name : TubeName}
  {o : List TubeId} {U : ExtTreeMap ConnId TubeId} {W : ExtTreeMap ConnId (List TubeId)}

theorem uses_of_conn (hc : e.conns[c]? = some k) : e.uses[c]? = some k.useTube := TreeMap.map_of hc

/-! ## Opening a tube -/

/-- The tube of that name exists, possibly without a reference. -/
structure Opened (o : List TubeId) (name : TubeName) (e e' : Engine) (id : TubeId) : Prop where
  core : Core {} e'
  refs : Refs (id :: o) e'.uses e'.watches e'
  live : ∃ ts, Slab.get e'.tubes id = some ts
  named : e'.tubeIds[name]? = some id
  kept {n : TubeName} {i : TubeId} : e.tubeIds[n]? = some i → e'.tubeIds[n]? = some i
  conns : e'.conns = e.conns
  jobs : e'.jobs = e.jobs
  next : e'.nextJobId = e.nextJobId

theorem findOrMakeTube_opened (h : Core {} e) (hr : Refs o e.uses e.watches e) (name : TubeName) :
    Opened o name e (e.findOrMakeTube name).1 (e.findOrMakeTube name).2 := by
  rcases findOrMakeTube_spec h.dir name with ⟨id, hid, heq⟩ | hm
  · rw [heq]
    obtain ⟨p, hp⟩ := h.dir.ids hid
    obtain ⟨ts, hts, -⟩ := Slab.view_eq_some_iff.mp hp
    exact ⟨h, RefsOk.mono hr fun _ => List.mem_cons_of_mem _, ⟨ts, hts⟩, hid, fun hn => hn, rfl,
      rfl, rfl⟩
  · have hcore := hm.core h
    have hrefs := hm.refs h hr
    have hget := hm.get (e.findOrMakeTube name).2
    rw [if_pos rfl] at hget
    have hfresh := hm.fresh
    obtain ⟨tubes, free, hf⟩ := hm.frame
    refine ⟨hcore, hrefs, ⟨_, hget⟩, ?_, fun {n i} hn => ?_, by rw [hf], by rw [hf], by rw [hf]⟩
    · rw [hf]
      exact ExtTreeMap.getElem?_insert_self
    · rw [hf]
      exact (TreeMap.insert_eq_some_iff hfresh).mpr (.inr hn)

/-- The references are settled once something refers to the tube. -/
theorem Opened.inv {id : TubeId} (h : Inv e) (ho : Opened [] name e e' id)
    (hid : 0 < (refsOf e'.uses e'.watches e'.homes id).total) : Inv e' where
  core := ho.core
  refs := RefsOk.settle ho.refs hid
  watching := by
    have hw : e'.watches = e.watches := by rw [watches, watches, ho.conns]
    rw [hw]
    exact h.watching
  allocated := by
    rw [ho.next]
    exact h.allocated

/-- Collecting one tube leaves the others. -/
theorem gcTubeIfOrphan_live {t : TubeId} (hne : t ≠ tube)
    (h : ∃ ts, Slab.get e.tubes t = some ts) :
    ∃ ts, Slab.get (e.gcTubeIfOrphan tube).tubes t = some ts := by
  obtain ⟨ts, hts⟩ := h
  rcases gcTubeIfOrphan_spec e tube with ⟨heq, -⟩ | ⟨ts', hd⟩
  · exact ⟨ts, by rw [heq, hts]⟩
  rw [hd.get, if_neg hne, hts]
  split
  · exact ⟨_, rfl⟩
  · exact ⟨_, rfl⟩

/-! ## Using a tube -/

/-- A connection stops using its tube, which may go. -/
theorem dropUse_ok (h : Core {} e) (hr : Refs o U W e) (hc : U[c]? = some tube)
    (hW : ∀ (c : ConnId) w, e.watches[c]? = some w → tube ∈ w → ∃ (c' : ConnId) (w' : List TubeId),
      W[c']? = some w' ∧ tube ∈ w') :
    Core {} (e.dropUse tube) ∧ Refs o (U.erase c) W (e.dropUse tube) := by
  obtain ⟨r, hr'⟩ := hr.use_live hc
  obtain ⟨ts, hts, rfl⟩ := Slab.view_eq_some_iff.mp hr'
  have hcore : Core {} (e.modTube tube fun t => { t with usingCt := t.usingCt - 1 }) :=
    modTube_core h fun _ => rfl
  have hrefs : Refs (tube :: o) (U.erase c) W
      (e.modTube tube fun t => { t with usingCt := t.usingCt - 1 }) :=
    (RefsOk.unuse hr hr' hc).congr (Slab.view_modify_at _ _ hts) rfl rfl rfl
  exact gcTubeIfOrphan_ok hcore hrefs hW

/-- A tube that lost a reference is looked at. -/
theorem modTube_gc_frame (e : Engine) (t : TubeId) (f : TubeState → TubeState) :
    ((e.modTube t f).gcTubeIfOrphan t).conns = e.conns ∧
      ((e.modTube t f).gcTubeIfOrphan t).jobs = e.jobs ∧
      ((e.modTube t f).gcTubeIfOrphan t).nextJobId = e.nextJobId := by
  obtain ⟨_, _, _, _, _, _, _, hf⟩ := gcTubeIfOrphan_frame (e.modTube t f) t
  rw [hf]
  exact ⟨rfl, rfl, rfl⟩

theorem dropUse_frame (e : Engine) (t : TubeId) :
    (e.dropUse t).conns = e.conns ∧ (e.dropUse t).jobs = e.jobs ∧
      (e.dropUse t).nextJobId = e.nextJobId := modTube_gc_frame ..

/-- Which tube a connection uses concerns the references only. -/
theorem setUse_core {s : Slack} (h : Core s e) :
    Core s (e.modConn c fun k => { k with useTube := tube }) :=
  { h with
    placed := h.placed.congr rfl (TreeMap.map_modify fun _ => rfl) rfl
    pending := h.pending.congr (TreeMap.map_modify fun _ => rfl) fun _ hj => hj
    watched := h.watched.congr rfl (TreeMap.map_modify fun _ => rfl)
    queued := h.queued.congr rfl
      (congrArg (effective s.queue) (TreeMap.map_modify fun _ => rfl))
    ticks := h.ticks.congr (TreeMap.map_modify fun _ => rfl)
    conns := h.conns.congr (TreeMap.map_modify fun _ => rfl)
      (TreeMap.map_modify fun _ => rfl) }

theorem setUse_watches (e : Engine) (c : ConnId) (t : TubeId) :
    (e.modConn c fun k => { k with useTube := t }).watches = e.watches :=
  TreeMap.map_modify fun _ => rfl

theorem cmdUse_inv (h : Inv e) (hc : e.conns[c]? = some k) : Inv (e.cmdUse c name) := by
  unfold cmdUse
  have h₁ : Inv (e.countOp fun o => { o with use := inc64 o.use }) :=
    h.of_same (countOp_core h.core) (countOp_same e _)
  have ho := findOrMakeTube_opened h₁.core h₁.refs name
  simp only
  generalize (e.countOp fun o => { o with use := inc64 o.use }).findOrMakeTube name = r at ho ⊢
  obtain ⟨e₂, new⟩ := r
  simp only at ho ⊢
  have hc₂ : e₂.conns[c]? = some k := by rw [ho.conns]; exact hc
  have hold : e₂.useTubeOf c = k.useTube := by rw [useTubeOf, hc₂]
  apply reply_inv
  rw [hold]
  split
  · next hne =>
    have hne' : new ≠ k.useTube := fun he => by simp [he] at hne
    obtain ⟨h₃, hr₃⟩ := dropUse_ok ho.core ho.refs (uses_of_conn hc₂)
      fun c w hw hm => ⟨c, w, hw, hm⟩
    obtain ⟨hconns, hjobs, hnext⟩ := dropUse_frame e₂ k.useTube
    obtain ⟨ts, hts⟩ : ∃ ts, Slab.get (e₂.dropUse k.useTube).tubes new = some ts := by
      refine gcTubeIfOrphan_live hne' ?_
      obtain ⟨ts, hts⟩ := ho.live
      exact ⟨ts, by rw [modTube, Slab.get_modify_ne (Ne.symm hne'), hts]⟩
    have hc₃ : (e₂.dropUse k.useTube).conns[c]? = some k := by rw [hconns, hc₂]
    have hr₄ : RefsOk [] _ _ _ _ := RefsOk.use hr₃ (Slab.view_of_get hts)
      (c := c) (by simp) (by simp)
    have huses : (e₂.dropUse k.useTube).uses = e₂.uses := by rw [uses, uses, hconns]
    have hwatches : (e₂.dropUse k.useTube).watches = e₂.watches := by
      rw [watches, watches, hconns]
    have hkeep : e₂.watches = e.watches := by
      rw [watches, ho.conns]
      rfl
    refine ⟨setUse_core (modTube_core h₃ fun _ => rfl), ?_, ?_, ?_⟩
    · refine hr₄.congr (Slab.view_modify_at _ _ hts) ?_ ?_ rfl
      · rw [TreeMap.erase_insert, ← huses]
        exact TreeMap.map_modify_at hc₃ _ ConnState.useTube
      · rw [setUse_watches, ← hwatches]
        rfl
    · rw [setUse_watches]
      show ∀ (c : ConnId) (w : List TubeId), (e₂.dropUse k.useTube).watches[c]? = some w → w ≠ []
      rw [hwatches, hkeep]
      exact h.watching
    · show 1 ≤ (e₂.dropUse k.useTube).nextJobId
      rw [hnext, ho.next]
      exact h₁.allocated
  · next heq =>
    have heq' : k.useTube = new := by simpa using heq
    refine ho.inv h₁ ?_
    have : 0 < (refsOf e₂.uses e₂.watches e₂.homes new).usingCt :=
      TreeMap.count_pos_iff.mpr ⟨c, k.useTube, uses_of_conn hc₂, by simp [heq']⟩
    unfold RefCts.total
    omega

/-! ## Watching tubes -/

/-- A connection that does not wait changes its watch list. -/
theorem setWatch_core {f : Ms TubeId → Ms TubeId} (h : Core {} e) (hc : e.conns[c]? = some k)
    (hk : k.waiting = false) (hnd : (f k.watch).items.Nodup)
    (hlive : ∀ t ∈ (f k.watch).items, ∃ s, Slab.view TubeState.sig e.tubes t = some s) :
    Core {} (e.modConn c fun k => { k with watch := f k.watch }) := by
  have hW := TreeMap.map_modify_at hc (fun k => { k with watch := f k.watch })
    fun k => k.watch.items
  have hK : (e.modConn c fun k => { k with watch := f k.watch }).waitQueues = e.waitQueues := by
    refine TreeMap.map_modify_of fun k' hk' => ?_
    cases (hc.symm.trans hk')
    simp [ConnState.queue, hk]
  exact { h with
    placed := h.placed.congr rfl (TreeMap.map_modify fun _ => rfl) rfl
    pending := h.pending.congr (TreeMap.map_modify fun _ => rfl) fun _ hj => hj
    watched := (h.watched.openConn hlive hnd).congr rfl hW
    queued := h.queued.congr rfl hK
    ticks := h.ticks.congr (TreeMap.map_modify fun _ => rfl)
    conns := h.conns.congr (TreeMap.map_modify fun _ => rfl)
      (TreeMap.map_modify fun _ => rfl) }

theorem cmdWatch_inv (h : Inv e) (hc : e.conns[c]? = some k) (hk : k.waiting = false) :
    Inv (e.cmdWatch c name) := by
  unfold cmdWatch
  have h₁ : Inv (e.countOp fun o => { o with watch := inc64 o.watch }) :=
    h.of_same (countOp_core h.core) (countOp_same e _)
  have ho := findOrMakeTube_opened h₁.core h₁.refs name
  simp only
  generalize (e.countOp fun o => { o with watch := inc64 o.watch }).findOrMakeTube name = r at ho ⊢
  obtain ⟨e₂, tid⟩ := r
  simp only at ho ⊢
  have hc₂ : e₂.conns[c]? = some k := by rw [ho.conns]; exact hc
  obtain ⟨ts, hts⟩ := ho.live
  apply reply_inv
  rw [hc₂, Option.any_some]
  split
  · next hnot =>
    have hnot' : tid ∉ k.watch.items := by simpa using hnot
    have hcore := setWatch_core (f := fun m => m.append tid) ho.core hc₂ hk (by
      show (k.watch.items ++ [tid]).Nodup
      rw [List.nodup_append]
      refine ⟨ho.core.watched.nodup (watches_of_conn hc₂), by simp, ?_⟩
      rintro a ha b hb rfl
      exact hnot' (List.mem_singleton.mp hb ▸ ha)) (by
      intro t ht
      rcases List.mem_append.mp ht with ht | ht
      · exact ho.core.watched.live (watches_of_conn hc₂) t ht
      · rw [List.mem_singleton.mp ht]
        exact ⟨_, Slab.view_of_get hts⟩)
    have hr : RefsOk [] _ _ _ _ := RefsOk.watch ho.refs (Slab.view_of_get hts)
      (watches_of_conn hc₂) hnot' (by simp)
    have hW := TreeMap.map_modify_at hc₂ (fun k => { k with watch := k.watch.append tid })
      fun k => k.watch.items
    refine ⟨modTube_core hcore fun _ => rfl, ?_, ?_, ?_⟩
    · exact hr.congr (Slab.view_modify_at _ _ hts) (TreeMap.map_modify fun _ => rfl) hW rfl
    · intro c' w hw
      have hw' : (e₂.watches.insert c (k.watch.append tid).items)[c']? = some w :=
        hw ▸ (congrArg (fun m : ExtTreeMap ConnId (List TubeId) => m[c']?) hW).symm
      rw [ExtTreeMap.getElem?_insert] at hw'
      split at hw'
      · cases hw'
        simp [Ms.append]
      · refine h₁.watching c' w ?_
        rw [← hw', watches, watches, ho.conns]
    · show 1 ≤ e₂.nextJobId
      rw [ho.next]
      exact h₁.allocated
  · next hin =>
    have hin' : tid ∈ k.watch.items := by simpa using hin
    refine ho.inv h₁ ?_
    have : 0 < (refsOf e₂.uses e₂.watches e₂.homes tid).watchingCt :=
      TreeMap.count_pos_iff.mpr ⟨c, k.watch.items, watches_of_conn hc₂, by simpa using hin'⟩
    unfold RefCts.total
    omega

theorem dropWatch_frame (e : Engine) (t : TubeId) :
    (e.dropWatch t).conns = e.conns ∧ (e.dropWatch t).jobs = e.jobs ∧
      (e.dropWatch t).nextJobId = e.nextJobId := modTube_gc_frame ..

/-- A tube loses a watcher, and may go. -/
theorem dropWatch_ok {w w' : List TubeId} {ts : TubeState} (h : Core {} e) (hr : Refs o U W e)
    (hc : W[c]? = some w) (hnd : w.Nodup) (hw : w.Perm (tube :: w'))
    (hts : Slab.get e.tubes tube = some ts)
    (hW : ∀ (d : ConnId) v, e.watches[d]? = some v → tube ∈ v → ∃ (d' : ConnId) (v' : List TubeId),
      (W.insert c w')[d']? = some v' ∧ tube ∈ v') :
    Core {} (e.dropWatch tube) ∧ Refs o U (W.insert c w') (e.dropWatch tube) := by
  have hcore : Core {} (e.modTube tube fun t => { t with watchingCt := t.watchingCt - 1 }) :=
    modTube_core h fun _ => rfl
  have hrefs : Refs (tube :: o) U (W.insert c w')
      (e.modTube tube fun t => { t with watchingCt := t.watchingCt - 1 }) :=
    (RefsOk.unwatch hr (Slab.view_of_get hts) hc hnd hw).congr (Slab.view_modify_at _ _ hts)
      rfl rfl rfl
  exact gcTubeIfOrphan_ok hcore hrefs hW

theorem cmdIgnore_inv (h : Inv e) (hc : e.conns[c]? = some k) (hk : k.waiting = false) :
    Inv (e.cmdIgnore c name) := by
  unfold cmdIgnore
  have h₁ : Inv (e.countOp fun o => { o with ignore := inc64 o.ignore }) :=
    h.of_same (countOp_core h.core) (countOp_same e _)
  simp only
  generalize he : (e.countOp fun o => { o with ignore := inc64 o.ignore }) = e₁ at h₁ ⊢
  have hc₁ : e₁.conns[c]? = some k := by rw [← he]; exact hc
  split
  · exact reply_inv h₁
  next tid htid =>
  obtain ⟨-, hwatching⟩ := Option.filter_eq_some_iff.mp htid
  have hin : tid ∈ k.watch.items := by simpa [isWatching, hc₁] using hwatching
  split
  · exact reply_inv h₁
  next hcount =>
  apply reply_inv
  have hlen : 2 ≤ k.watch.items.length := by
    simp only [watchCount, hc₁] at hcount
    exact Nat.le_of_not_lt hcount
  have hnd := h₁.core.watched.nodup (watches_of_conn hc₁)
  have hperm : k.watch.items.Perm (tid :: (k.watch.remove tid).items) :=
    (List.perm_cons_erase hin).trans ((Ms.remove_perm k.watch tid).symm.cons tid)
  have hcore := setWatch_core (f := fun m => m.remove tid) h₁.core hc₁ hk
    (List.nodup_cons.mp (hperm.nodup_iff.mp hnd)).2
    (fun t ht => h₁.core.watched.live (watches_of_conn hc₁) t
      (hperm.mem_iff.mpr (List.mem_cons_of_mem _ ht)))
  obtain ⟨s, hs⟩ := h₁.core.watched.live (watches_of_conn hc₁) tid hin
  obtain ⟨ts, hts, -⟩ := Slab.view_eq_some_iff.mp hs
  have hW : (e₁.modConn c fun k => { k with watch := k.watch.remove tid }).watches =
      e₁.watches.insert c (k.watch.remove tid).items :=
    TreeMap.map_modify_at hc₁ _ fun k => k.watch.items
  have hU : (e₁.modConn c fun k => { k with watch := k.watch.remove tid }).uses = e₁.uses :=
    TreeMap.map_modify fun _ => rfl
  obtain ⟨h₂, hr₂⟩ := dropWatch_ok hcore h₁.refs (watches_of_conn hc₁) hnd hperm hts
    fun d v hv hm => ⟨d, v, hW ▸ hv, hm⟩
  obtain ⟨hconns, -, hnext⟩ := dropWatch_frame
    (e₁.modConn c fun k => { k with watch := k.watch.remove tid }) tid
  refine ⟨h₂, ?_, ?_, ?_⟩
  · refine RefsOk.congr hr₂ rfl ?_ ?_ rfl
    · rw [← hU, uses, uses, hconns]
    · rw [← hW, watches, watches, hconns]
  · intro c' w hw
    rw [watches, hconns] at hw
    change (e₁.modConn c fun k => { k with watch := k.watch.remove tid }).watches[c']? = _ at hw
    rw [hW, ExtTreeMap.getElem?_insert] at hw
    split at hw
    · cases hw
      intro hnil
      have := hperm.length_eq
      rw [hnil] at this
      simp at this
      omega
    · exact h₁.watching c' w hw
  · rw [hnext]
    exact h₁.allocated

end Engine

end Beanstalkd
