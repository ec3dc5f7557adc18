import Beanstalkd.Engine.Moves

/-!
# Wait queues keep the invariant

A connection that waits is on the wait list of every tube it watches. It joins
and leaves those lists one tube at a time, so in between it is on the lists of
*some* of them: the `queue` of a `Slack` says of which, and one step of either
loop moves one tube in or out of it.

`process_queue` takes a waiter off the list of the tube that serves it before
it takes it off the others. The tube still counts it until then, which is the
`early` of a `Slack`; the removal loop settles it when it comes to that tube.
-/

open Std

namespace Beanstalkd

/-! ## The multiset operations -/

namespace Ms

variable {α : Type} {m r : Ms α} {a : α}

theorem remove_perm [BEq α] [LawfulBEq α] (m : Ms α) (a : α) :
    (m.remove a).items.Perm (m.items.erase a) := by
  unfold remove
  cases h : m.items.idxOf? a with
  | none =>
    have hmem : a ∉ m.items := List.idxOf?_eq_none_iff.mp h
    rw [List.erase_of_not_mem hmem]
  | some i =>
    have hi : m.items[i]? = some a := by
      rw [List.idxOf?, List.findIdx?_eq_some_iff_getElem] at h
      obtain ⟨hlt, heq, -⟩ := h
      rw [List.getElem?_eq_getElem hlt, eq_of_beq heq]
    have hmem : a ∈ m.items := List.mem_of_getElem? hi
    exact List.Perm.cons_inv
      ((SwapRemove.swapRemove_perm hi).symm.trans (List.perm_cons_erase hmem))

/-- What `take` answers was there, and the rest is what is left. -/
theorem take_perm (h : m.take = some (a, r)) : m.items.Perm (a :: r.items) := by
  unfold take at h
  split at h
  · cases h
  obtain ⟨b, hb, heq⟩ := Option.map_eq_some_iff.mp h
  cases heq
  exact SwapRemove.swapRemove_perm hb

theorem take_isSome (h : m.items.isEmpty = false) : ∃ a r, m.take = some (a, r) := by
  unfold take
  rw [h, if_neg (by simp)]
  have hlen : 0 < m.items.length := by
    cases hi : m.items with
    | nil => rw [hi] at h; simp at h
    | cons => simp
  simp only [List.getElem?_eq_getElem (Nat.mod_lt _ hlen)]
  exact ⟨_, _, rfl⟩

end Ms

/-! ## One pair more or less -/

section Pairs

variable {w w' : TubeId → Option (List ConnId × Nat)} {K : ExtTreeMap ConnId (List TubeId)}
  {c : ConnId} {t : TubeId} {rest : List TubeId} {g : List ConnId → List ConnId}

theorem waitsOn_insert {l : List TubeId} {d : ConnId} {u : TubeId} :
    WaitsOn (K.insert c l) d u ↔ (d = c ∧ u ∈ l) ∨ (d ≠ c ∧ WaitsOn K d u) := by
  unfold WaitsOn
  rw [ExtTreeMap.getElem?_insert]
  by_cases hd : c = d
  · subst hd
    simp
  · simp [hd, Ne.symm hd]

/-- The connection joins the wait list of `t`. -/
theorem Queued.join {pre : List TubeId} (h : Queued none w (K.insert c pre)) (ht : t ∉ pre)
    (hw : w' t = (w t).map fun p => (p.1 ++ [c], p.2 + 1)) (hoff : ∀ u, u ≠ t → w' u = w u) :
    Queued none w' (K.insert c (pre ++ [t])) := by
  intro u l n hu
  by_cases hut : u = t
  · subst hut
    rw [hw] at hu
    obtain ⟨⟨l₀, n₀⟩, hl, heq⟩ := Option.map_eq_some_iff.mp hu
    cases heq
    obtain ⟨hnd, hmem, hn⟩ := h u l₀ n₀ hl
    have hc : c ∉ l₀ := by
      rw [hmem, waitsOn_insert]
      simp [ht]
    refine ⟨?_, fun d => ?_, ?_⟩
    · rw [List.nodup_append]
      refine ⟨hnd, by simp, ?_⟩
      rintro a ha b hb rfl
      exact hc (List.mem_singleton.mp hb ▸ ha)
    · have := hmem d
      rw [waitsOn_insert] at this ⊢
      by_cases hd : d = c <;> simp_all
    · simp at hn ⊢
      omega
  · rw [hoff u hut] at hu
    obtain ⟨hnd, hmem, hn⟩ := h u l n hu
    refine ⟨hnd, fun d => ?_, hn⟩
    rw [hmem d, waitsOn_insert, waitsOn_insert]
    simp [hut]

/-- The connection leaves the wait list of `t`. -/
theorem Queued.leave {early : Option (TubeId × ConnId)}
    (h : Queued early w (K.insert c (t :: rest))) (ht : t ∉ rest)
    (hearly : ∀ x, early = some x → x.1 ≠ t) (hg : ∀ l, (g l).Perm (l.erase c))
    (hw : w' t = (w t).map fun p => (g p.1, p.2 - 1)) (hoff : ∀ u, u ≠ t → w' u = w u) :
    Queued early w' (K.insert c rest) := by
  intro u l n hu
  by_cases hut : u = t
  · subst hut
    rw [hw] at hu
    obtain ⟨⟨l₀, n₀⟩, hl, heq⟩ := Option.map_eq_some_iff.mp hu
    cases heq
    obtain ⟨hnd, hmem, hn⟩ := h u l₀ n₀ hl
    have hne : ∀ d, early ≠ some (u, d) := fun d he => hearly _ he rfl
    have hany : (early.any fun x => x.1 == u) = false := by
      cases early with
      | none => rfl
      | some x => simpa using hearly x rfl
    have hc : c ∈ l₀ := (hmem c).mpr ⟨waitsOn_insert.mpr (by simp), hne c⟩
    refine ⟨(hg l₀).nodup_iff.mpr (hnd.erase c), fun d => ?_, ?_⟩
    · rw [(hg l₀).mem_iff, hnd.mem_erase_iff, hmem d, waitsOn_insert, waitsOn_insert]
      by_cases hd : d = c <;> simp [hd, ht, hne]
    · rw [(hg l₀).length_eq, List.length_erase_of_mem hc, hn, hany]
      simp
  · rw [hoff u hut] at hu
    obtain ⟨hnd, hmem, hn⟩ := h u l n hu
    refine ⟨hnd, fun d => ?_, hn⟩
    rw [hmem d, waitsOn_insert, waitsOn_insert]
    simp [hut]

/-- The same at the tube that took the connection off early: only the count is
left to settle. -/
theorem Queued.settle (h : Queued (some (t, c)) w (K.insert c (t :: rest))) (ht : t ∉ rest)
    (hg : ∀ l, (g l).Perm (l.erase c)) (hw : w' t = (w t).map fun p => (g p.1, p.2 - 1))
    (hoff : ∀ u, u ≠ t → w' u = w u) : Queued none w' (K.insert c rest) := by
  intro u l n hu
  by_cases hut : u = t
  · subst hut
    rw [hw] at hu
    obtain ⟨⟨l₀, n₀⟩, hl, heq⟩ := Option.map_eq_some_iff.mp hu
    cases heq
    obtain ⟨hnd, hmem, hn⟩ := h u l₀ n₀ hl
    have hc : c ∉ l₀ := by
      rw [hmem]
      simp
    have hp := hg l₀
    rw [List.erase_of_not_mem hc] at hp
    refine ⟨hp.nodup_iff.mpr hnd, fun d => ?_, ?_⟩
    · rw [hp.mem_iff, hmem d, waitsOn_insert, waitsOn_insert]
      by_cases hd : d = c
      · simp [hd, ht]
      · simp [hd, Ne.symm hd]
    · rw [hp.length_eq, hn]
      simp
  · rw [hoff u hut] at hu
    obtain ⟨hnd, hmem, hn⟩ := h u l n hu
    have hne : (t == u) = false := by simpa using Ne.symm hut
    refine ⟨hnd, fun d => ?_, ?_⟩
    · rw [hmem d, waitsOn_insert, waitsOn_insert]
      simp [hut, Ne.symm hut]
    · rw [hn, Option.any_some, hne]
      rfl

/-- A waiter is taken off the list of `t`; it is still counted there. -/
theorem Queued.take {l₀ l : List ConnId} {n : Nat} (h : Queued none w K) (hl : w t = some (l₀, n))
    (hp : l₀.Perm (c :: l)) (hw : w' t = some (l, n)) (hoff : ∀ u, u ≠ t → w' u = w u) :
    Queued (some (t, c)) w' K ∧ WaitsOn K c t := by
  obtain ⟨hnd, hmem, hn⟩ := h t l₀ n hl
  have hnd' := hp.nodup_iff.mp hnd
  refine ⟨?_, ((hmem c).mp (hp.mem_iff.mpr List.mem_cons_self)).1⟩
  intro u l' n' hu
  by_cases hut : u = t
  · subst hut
    rw [hw] at hu
    cases hu
    refine ⟨(List.nodup_cons.mp hnd').2, fun d => ?_, ?_⟩
    · have hd := hmem d
      rw [hp.mem_iff, List.mem_cons] at hd
      have hc := (List.nodup_cons.mp hnd').1
      by_cases hdc : d = c
      · subst hdc; simp [hc]
      · simp_all [Ne.symm hdc]
    · have := hp.length_eq
      simp at hn this ⊢
      omega
  · rw [hoff u hut] at hu
    obtain ⟨hnd, hmem, hn⟩ := h u l' n' hu
    refine ⟨hnd, fun d => ?_, ?_⟩
    · rw [hmem d]
      simp [Ne.symm hut]
    have hne : (t == u) = false := by simpa using Ne.symm hut
    rw [hn, Option.any_some, hne]
    rfl

end Pairs

namespace Engine

variable {e : Engine} {c : ConnId} {k : ConnState} {t : TubeId} {limbo : Option JobId}
  {early : Option (TubeId × ConnId)} {o : Bool} {s : Slack} {g : Ms ConnId → Ms ConnId}
  {l : List TubeId} {K : ExtTreeMap ConnId (List TubeId)} {d : Option Nanos}

/-! ## One tube's wait list -/

/-- Fewer waiters give a tube nothing to hand out. -/
theorem busy_of_waits {ts : TubeState} {m : Ms ConnId} {stat : TubeStat}
    (hm : m.items.isEmpty = false → ts.waitingConns.items.isEmpty = false)
    (h : { ts with waitingConns := m, stat := stat }.busy = true) : ts.busy = true := by
  simp only [TubeState.busy, TubeState.wantsDispatch, Bool.and_eq_true, Bool.not_eq_true'] at h ⊢
  exact ⟨⟨hm h.1.1, h.1.2⟩, h.2⟩

/-- A change of one tube's wait list, of which the queues take account. -/
theorem modWaits_core {f : Nat → Nat} {queue : Option (ConnId × List TubeId)}
    (h : Core { s with disp := none } e)
    (hbusy : s.owed = true ∨ ∀ m, (g m).items.isEmpty = false → m.items.isEmpty = false)
    (hq : Queued early (Slab.view TubeState.waits (Slab.modify e.tubes t fun ts =>
      { ts with stat := { ts.stat with waitingCt := f ts.stat.waitingCt }
                waitingConns := g ts.waitingConns })) (effective queue e.waitQueues)) :
    Core { s with early := early, queue := queue, disp := some t } (e.modTube t fun ts =>
      { ts with stat := { ts.stat with waitingCt := f ts.stat.waitingCt }
                waitingConns := g ts.waitingConns }) := by
  have hcalm : Calm s.owed (Slab.view TubeState.busy (Slab.modify e.tubes t fun ts =>
      { ts with stat := { ts.stat with waitingCt := f ts.stat.waitingCt }
                waitingConns := g ts.waitingConns })) := by
    rcases hbusy with ho | hg
    · intro hf
      rw [ho] at hf
      cases hf
    · exact calm_modify h.calm fun ts => busy_of_waits (hg ts.waitingConns)
  exact { h with
    dir := h.dir.congr (Slab.length_modify ..) (Slab.view_modify fun _ => rfl)
    placed := h.placed.congr (Slab.view_modify fun _ => rfl) rfl rfl
    housed := h.housed.congr (Slab.view_modify fun _ => rfl) rfl
    watched := h.watched.congr (Slab.view_modify fun _ => rfl) rfl
    queued := hq
    heads := h.heads.congr (Slab.view_modify fun _ => rfl)
    pauses := h.pauses.congr (Slab.view_modify fun _ => rfl)
    disp := disp_touch h.disp fun _ => rfl
    calm := hcalm }

/-- The wait list of the tube changed, seen as a list and a count. -/
theorem view_waits_self (tubes : List (Option TubeState)) {f : Nat → Nat}
    {l : List ConnId → List ConnId} (hl : ∀ m, (g m).items = l m.items) :
    Slab.view TubeState.waits (Slab.modify tubes t fun ts =>
      { ts with stat := { ts.stat with waitingCt := f ts.stat.waitingCt }
                waitingConns := g ts.waitingConns }) t =
      (Slab.view TubeState.waits tubes t).map fun p => (l p.1, f p.2) := by
  rw [Slab.view, Slab.get_modify_self, Slab.view, Option.map_map, Option.map_map]
  congr 1
  funext ts
  simp only [Function.comp, TubeState.waits, hl]

theorem joinQueue_core {pre : List TubeId}
    (h : Core { s with early := none, queue := some (c, pre), disp := none, owed := true } e)
    (ht : t ∉ pre) :
    Core { s with early := none, queue := some (c, pre ++ [t]), disp := none, owed := true }
      (e.joinQueue c t) := by
  refine refreshDispatchable_core
    (s := { s with early := none, queue := some (c, pre ++ [t]), owed := true }) ?_
  exact modWaits_core (s := { s with owed := true, early := none, queue := some (c, pre) })
    (g := fun m => m.append c) h (.inl rfl)
    (Queued.join h.queued ht (view_waits_self _ (g := fun m => m.append c)
      (l := fun l => l ++ [c]) fun _ => rfl) fun _ => Slab.view_modify_ne)

/-- What is left of a multiset depends on its items only. -/
theorem remove_items (m : Ms ConnId) (c : ConnId) :
    (m.remove c).items = ((⟨m.items, 0⟩ : Ms ConnId).remove c).items := by
  unfold Ms.remove
  cases m.items.idxOf? c <;> rfl

theorem isEmpty_of_remove {m : Ms ConnId} (h : (m.remove c).items.isEmpty = false) :
    m.items.isEmpty = false := by
  cases hm : m.items with
  | nil =>
    have hp := (Ms.remove_perm m c).length_eq
    rw [hm] at hp
    rw [List.isEmpty_iff_length_eq_zero.mpr hp] at h
    cases h
  | cons => rfl

/-- One round of `do_remove_waiting_conn`; the tube that took the connection
off its list early, if any, is among those still to come. -/
theorem leaveQueue_core {rest : List TubeId}
    (h : Core { s with early := early, queue := some (c, t :: rest), disp := none } e)
    (ht : t ∉ rest) (hearly : ∀ x, early = some x → x.2 = c) :
    Core { s with early := early.filter fun x => x.1 != t, queue := some (c, rest), disp := none }
      (e.leaveQueue c t) := by
  refine refreshDispatchable_core
    (s := { s with early := early.filter fun x => x.1 != t, queue := some (c, rest) }) ?_
  refine modWaits_core (s := { s with early := early, queue := some (c, t :: rest) }) (f := fun n => n - 1) h (.inr fun m => isEmpty_of_remove) ?_
  have hw := view_waits_self e.tubes (t := t) (f := fun n => n - 1) (l := fun l => ((⟨l, 0⟩ : Ms ConnId).remove c).items)
    fun m => remove_items m c
  have hg (l : List ConnId) := Ms.remove_perm (⟨l, 0⟩ : Ms ConnId) c
  cases early with
  | none => exact Queued.leave h.queued ht nofun hg hw fun _ => Slab.view_modify_ne
  | some x =>
    by_cases hx : x.1 = t
    · obtain rfl : x = (t, c) := Prod.ext hx (hearly x rfl)
      rw [Option.filter_some, if_neg (by simp)]
      exact Queued.settle h.queued ht hg hw fun _ => Slab.view_modify_ne
    rw [Option.filter_some, if_pos (by simpa using hx)]
    exact Queued.leave h.queued ht (fun y hy => Option.some.inj hy ▸ hx) hg hw fun _ =>
      Slab.view_modify_ne

/-! ## All the tubes a connection watches -/

theorem foldl_joinQueue_core (rest : List TubeId) :
    ∀ {e : Engine} {pre : List TubeId}, (pre ++ rest).Nodup →
      Core { s with early := none, queue := some (c, pre), disp := none, owed := true } e →
      Core { s with early := none, queue := some (c, pre ++ rest), disp := none, owed := true }
        (rest.foldl (joinQueue c) e) := by
  induction rest with
  | nil => intro e pre _ h; rw [List.append_nil]; exact h
  | cons t rest ih =>
    intro e pre hnd h
    have ht : t ∉ pre := fun hm =>
      (List.nodup_append.mp hnd).2.2 t hm t List.mem_cons_self rfl
    rw [List.append_cons] at hnd ⊢
    exact ih hnd (joinQueue_core h ht)

theorem foldl_leaveQueue_core (rest : List TubeId) :
    ∀ {e : Engine} {early : Option (TubeId × ConnId)}, rest.Nodup →
      (∀ x, early = some x → x.2 = c ∧ x.1 ∈ rest) →
      Core { s with early := early, queue := some (c, rest), disp := none } e →
      Core { s with early := none, queue := some (c, []), disp := none }
        (rest.foldl (leaveQueue c) e) := by
  induction rest with
  | nil =>
    intro e early _ hearly h
    cases early with
    | none => exact h
    | some x => exact absurd (hearly x rfl).2 List.not_mem_nil
  | cons t rest ih =>
    intro e early hnd hearly h
    obtain ⟨ht, hnd⟩ := List.nodup_cons.mp hnd
    refine ih hnd (fun x hx => ?_) (leaveQueue_core h ht fun x hx => (hearly x hx).1)
    obtain ⟨hx, hne⟩ := Option.filter_eq_some_iff.mp hx
    obtain ⟨hc, hmem⟩ := hearly x hx
    refine ⟨hc, (List.mem_cons.mp hmem).resolve_left ?_⟩
    simpa using hne

/-- The correction of a queue is not needed once it says what the connection
says. -/
theorem effective_self (h : K[c]? = some l) : effective (some (c, l)) K = K := by
  ext d : 1
  rw [effective, ExtTreeMap.getElem?_insert]
  split
  · next hd => rw [← LawfulEqOrd.eq_of_compare hd, h]
  · rfl

theorem effective_insert {l' : List TubeId} :
    effective (some (c, l)) (K.insert c l') = effective (some (c, l)) K := by
  ext d : 1
  simp only [effective, ExtTreeMap.getElem?_insert]
  split <;> rfl

theorem waitQueues_of_conn (hc : e.conns[c]? = some k) : e.waitQueues[c]? = some k.queue :=
  TreeMap.map_of hc

theorem watches_of_conn (hc : e.conns[c]? = some k) : e.watches[c]? = some k.watch.items :=
  TreeMap.map_of hc

/-- Flipping a connection's waiting flag: its queues are as they were, the count
follows, and its tick is stale. -/
theorem flipWaiting_core {b : Bool} {n : Nat} (h : Core { s with tick := none, queue := none } e)
    (hc : e.conns[c]? = some k) (hn : n + k.waiting.toNat = e.waitingCt + b.toNat)
    (hd : b = false → d = none) :
    Core { s with tick := some c, queue := some (c, k.queue) }
      { e with
        conns := e.conns.modify c fun c => { c with waiting := b, waitDeadline := d }
        waitingCt := n } := by
  have hK : ({ e with
      conns := e.conns.modify c fun c => { c with waiting := b, waitDeadline := d }
      waitingCt := n } : Engine).waitQueues =
        e.waitQueues.insert c (if b then k.watch.items else []) :=
    TreeMap.map_modify_at hc _ ConnState.queue
  have hwait := TreeMap.map_modify_at hc
    (fun c => { c with waiting := b, waitDeadline := d }) ConnState.wait
  have hold : (e.conns.map fun _ c => c.wait)[c]? = some k.wait := TreeMap.map_of hc
  have hcount := TreeMap.count_off (p := fun _ w => w.1) (q := fun _ w => w.1)
    (m := e.conns.map fun _ c => ConnState.wait c)
    (n := (e.conns.map fun _ c => ConnState.wait c).insert c (b, d)) c (by
      intro c' hne
      rw [ExtTreeMap.getElem?_insert]
      simp [Ne.symm hne])
  have hconns : ConnsOk ((e.conns.map fun _ c => ConnState.wait c).insert c (b, d))
      (e.conns.map fun _ c => ConnState.roles c) e.toCensus n :=
    { h.conns with
      waiting := by
        rw [hold, ExtTreeMap.getElem?_insert_self, ← h.conns.waiting] at hcount
        have hk : k.wait.1 = k.waiting := rfl
        rw [TreeMap.hit_some, TreeMap.hit_some, hk] at hcount
        simp only at hcount
        omega
      idle := by
        intro c' d' hc'
        rw [ExtTreeMap.getElem?_insert] at hc'
        split at hc'
        · cases hc'
          exact hd rfl
        · exact h.conns.idle hc' }
  exact { h with
    placed := h.placed.congr rfl (TreeMap.map_modify fun _ => rfl) rfl
    pending := h.pending.congr (TreeMap.map_modify fun _ => rfl) fun _ => id
    watched := h.watched.congr rfl (TreeMap.map_modify fun _ => rfl)
    queued := h.queued.congr rfl (by
      rw [hK, effective_insert, effective_self (waitQueues_of_conn hc)]
      rfl)
    ticks := ticks_touch h.ticks fun _ => rfl
    conns := hconns.congr hwait (TreeMap.map_modify fun _ => rfl) }

/-- The queues are complete: no correction is left. -/
theorem unqueue_core (h : Core { s with queue := some (c, l) } e) (hc : e.conns[c]? = some k)
    (hk : k.queue = l) : Core { s with queue := none } e := by
  exact { h with queued := h.queued.congr rfl (effective_self (hk ▸ waitQueues_of_conn hc)).symm }

theorem enqueueWaitingConn_core (h : Core { owed := o } e) (hc : e.conns[c]? = some k)
    (hk : k.waiting = false) : Core { owed := true } (e.enqueueWaitingConn c d) := by
  unfold enqueueWaitingConn
  simp only [hc]
  have hq : k.queue = [] := by rw [ConnState.queue, hk, if_neg (by simp)]
  have h₀ : Core { tick := some c, queue := some (c, k.queue), owed := true } (e.setWaiting c d) :=
    flipWaiting_core (s := { owed := true }) { h with calm := nofun } hc (by simp [hk]) nofun
  rw [hq] at h₀
  have h₁ := foldl_joinQueue_core (s := { tick := some c }) k.watch.items
    (h.watched.nodup (watches_of_conn hc)) h₀
  have hc' : (k.watch.items.foldl (joinQueue c) (e.setWaiting c d)).conns[c]? =
      some { k with waiting := true, waitDeadline := d } := by
    obtain ⟨_, _, hf⟩ := foldl_joinQueue_frame c k.watch.items (e.setWaiting c d)
    rw [hf]
    exact TreeMap.getElem?_modify_of hc
  exact refreshConnTick_core
    (unqueue_core (s := { tick := some c, owed := true }) h₁ hc' rfl)

theorem doRemoveWaitingConn_core (h : Core { limbo := limbo, early := early, owed := o } e)
    (hearly : ∀ x, early = some x → x.2 = c ∧ WaitsOn e.waitQueues c x.1) :
    Core { limbo := limbo, owed := o } (e.doRemoveWaitingConn c) := by
  -- a connection taken off a list early is waiting
  have hnone (hw : ∀ t, ¬WaitsOn e.waitQueues c t) : early = none := by
    cases early with
    | none => rfl
    | some x => exact absurd (hearly x rfl).2 (hw x.1)
  unfold doRemoveWaitingConn
  cases hc : e.conns[c]? with
  | none =>
    rw [hnone] at h
    · exact h
    rintro t ⟨l, hl, -⟩
    rw [waitQueues, ExtTreeMap.getElem?_map, hc] at hl
    cases hl
  | some k =>
    simp only
    cases hk : k.waiting with
    | false =>
      rw [hnone] at h
      · exact h
      rintro t ⟨l, hl, ht⟩
      rw [waitQueues_of_conn hc, ConnState.queue, hk, if_neg (by simp)] at hl
      cases hl
      cases ht
    | true =>
      have hq : k.queue = k.watch.items := by rw [ConnState.queue, hk, if_pos rfl]
      have hpos : 0 < e.waitingCt := by
        rw [h.conns.waiting, TreeMap.count_pos_iff]
        refine ⟨c, k.wait, ?_, hk⟩
        rw [ExtTreeMap.getElem?_map, hc]
        rfl
      have h₀ : Core { limbo := limbo, early := early, tick := some c, queue := some (c, k.queue)
                       owed := o } (e.clearWaiting c) :=
        flipWaiting_core (s := { limbo := limbo, early := early, owed := o }) h hc
          (by rw [hk]; simp; omega) fun _ => rfl
      rw [hq] at h₀
      have h₁ := foldl_leaveQueue_core (s := { limbo := limbo, tick := some c, owed := o })
        k.watch.items (h.watched.nodup (watches_of_conn hc)) (fun x hx => by
          obtain ⟨hx, l, hl, ht⟩ := hearly x hx
          rw [waitQueues_of_conn hc, hq] at hl
          cases hl
          exact ⟨hx, ht⟩) h₀
      have hc' : (k.watch.items.foldl (leaveQueue c) (e.clearWaiting c)).conns[c]? =
          some { k with waiting := false, waitDeadline := none } := by
        obtain ⟨_, _, hf⟩ := foldl_leaveQueue_frame c k.watch.items (e.clearWaiting c)
        rw [hf]
        exact TreeMap.getElem?_modify_of hc
      exact refreshConnTick_core
        (unqueue_core h₁ hc' rfl)

/-- Leaving the queues outside of a dispatch. -/
theorem stopWaiting_core (h : Core { owed := o } e) :
    Core { owed := o } (e.doRemoveWaitingConn c) :=
  doRemoveWaitingConn_core h nofun

/-- A tube with waiters serves one of them. -/
theorem takeWaiter_core {ts : TubeState} (h : Core { limbo := limbo, owed := true } e)
    (ht : Slab.get e.tubes t = some ts) (hw : ts.waitingConns.items.isEmpty = false) :
    ∃ c e', e.takeWaiter t = (some c, e') ∧ WaitsOn e.waitQueues c t ∧ e'.conns = e.conns ∧
      e'.jobs = e.jobs ∧
      Core { limbo := limbo, early := some (t, c), disp := some t, owed := true } e' := by
  obtain ⟨c, rest, htake⟩ := Ms.take_isSome hw
  have hview := Slab.view_modify_at TubeState.waits (fun ts => { ts with waitingConns := rest }) ht
  have hq : Queued (some (t, c)) (Slab.view TubeState.waits (Slab.modify e.tubes t
      fun ts => { ts with waitingConns := rest })) e.waitQueues ∧ WaitsOn e.waitQueues c t :=
    Queued.take h.queued (Slab.view_of_get ht) (Ms.take_perm htake)
      (by rw [hview, Slab.setAt_self]; rfl) fun _ => Slab.view_modify_ne
  refine ⟨c, e.modTube t fun ts => { ts with waitingConns := rest }, ?_, hq.2, rfl, rfl, ?_⟩
  · rw [takeWaiter, Engine.tube, ht, Option.bind_some, htake]
  · exact modWaits_core (s := { limbo := limbo, owed := true }) (g := fun _ => rest)
      (f := fun n => n) h (.inl rfl) hq.1

end Engine

end Beanstalkd
