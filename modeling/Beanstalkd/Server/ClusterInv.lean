import Beanstalkd.Server.Cluster
import Beanstalkd.Server.ForwardInv

/-!
# No input is lost or applied twice

The owner prunes its queue against a state that lags behind the log, while
copies of the pruned items may still be on their way. That is sound because the
numbering only moves forward (`Raft/Numbering.lean`): what is past in the lagging
state is past in every later one.

The invariant has three parts. `Numbered`: every number was given once, to a
connection of this process. `Settled`: what the state applied are inputs that
were given those numbers, each once and in turn. The third, `absent`, is the
point: whatever left the queue was applied or has a connection that is dead.
-/

open Std

namespace Beanstalkd.Server

open Raft World

variable {l : Launch} {w : World} {a a' : Actor} {core : Core} {conn c : ConnId}
  {seq s n nextLocal nextLocal' : Nat} {seqs seqs' : ExtTreeMap ConnId Nat} {input : EngineInput}
  {g : Nat × EngineInput} {generated accepted : List (Nat × EngineInput)}

/-! ## Messages -/

/-- What a message does to the queue and the numbers. -/
inductive Numbers (core : Core) (node : NodeId) (a a' : Actor) :
    Option (Nat × EngineInput) → Prop where
  | idle : a'.queue = a.queue → a'.seqs = a.seqs → Numbers core node a a' none
  | next {conn : ConnId} {seq : Nat} {input : EngineInput} :
    input.conn = some conn → a.seqs[conn]? = some seq →
    (a'.queue = a.queue.push conn seq input ∨
      a'.queue = a.queue ∧ Actor.gone core node conn = true) →
    (a'.seqs = a.seqs.insert conn (seq + 1) ∨ a'.seqs = a.seqs.erase conn) →
    Numbers core node a a' (some (seq, input))

theorem pushNext_numbers {node : NodeId} (hi : input.conn = some conn) :
    Numbers core node a (a.pushNext conn input) (a.seqs[conn]?.map (·, input)) := by
  unfold Actor.pushNext
  split
  · next hnone =>
    rw [hnone]
    exact .idle rfl rfl
  next seq hseq =>
  rw [hseq]
  exact .next hi hseq (.inl rfl) (.inl rfl)

theorem onMessage_numbers (core : Core) (node : NodeId) (a : Actor) (msg : EngineMsg)
    (hmsg : ∀ conn, msg ≠ .connect conn) :
    Numbers core node a (a.onMessage core node msg) (a.numbers msg) := by
  cases msg with
  | connect conn => exact absurd rfl (hmsg conn)
  | command conn cmd =>
    cases cmd with
    | put pri delay ttr body =>
      simp only [Actor.onMessage, Actor.numbers]
      split <;> exact pushNext_numbers rfl
    | _ => exact pushNext_numbers rfl
  | putStarted | putRejected | halfClose => exact pushNext_numbers rfl
  | disconnect conn =>
    simp only [Actor.onMessage, Actor.numbers]
    cases hseq : a.seqs[conn]? with
    | none => exact .idle rfl rfl
    | some seq =>
      simp only [Option.map_some]
      split
      · next hgone => exact .next rfl hseq (.inr ⟨rfl, hgone⟩) (.inr rfl)
      · exact .next rfl hseq (.inl rfl) (.inr rfl)
  | setDraining | snapshot | shutdown => exact .idle rfl rfl

/-! ## Numbers are given once -/

structure Numbered (l : Launch) (nextLocal : Nat) (seqs : ExtTreeMap ConnId Nat)
    (generated : List (Nat × EngineInput)) : Prop where
  first : l.first ≤ nextLocal
  /-- Open connections are of this process. -/
  opened : ∀ c n, seqs[c]? = some n → mine l c = true ∧ localOf c < nextLocal ∧ 1 ≤ n
  given : ∀ g ∈ generated, ∃ c, g.2.conn = some c ∧ mine l c = true ∧
    localOf c < nextLocal ∧ 1 ≤ g.1 ∧ ∀ n, seqs[c]? = some n → g.1 < n
  unique : ∀ c s i i', (s, i) ∈ generated → (s, i') ∈ generated → i.conn = some c →
    i'.conn = some c → i = i'

/-- Local numbers may be left out. -/
theorem Numbered.mono (h : Numbered l nextLocal seqs generated) (hle : nextLocal ≤ nextLocal') :
    Numbered l nextLocal' seqs generated where
  first := h.first.trans hle
  opened := fun c n hn =>
    let ⟨hm, hl, hpos⟩ := h.opened c n hn
    ⟨hm, hl.trans_le hle, hpos⟩
  given := fun g hg =>
    let ⟨c, hgc, hm, hl, hpos⟩ := h.given g hg
    ⟨c, hgc, hm, hl.trans_le hle, hpos⟩
  unique := h.unique

/-- A new number for `conn`, above those it had. -/
theorem Numbered.give (h : Numbered l nextLocal seqs generated) (hconn : input.conn = some conn)
    (hmine : mine l conn = true) (hlocal : localOf conn < nextLocal) (hseq : 1 ≤ seq)
    (hnew : ∀ g ∈ generated, g.2.conn = some conn → g.1 < seq)
    (hseqs : seqs' = seqs.insert conn (seq + 1) ∨ seqs' = seqs.erase conn) :
    Numbered l nextLocal seqs' (generated ++ [(seq, input)]) := by
  have hothers : ∀ c, c ≠ conn → seqs'[c]? = seqs[c]? := fun c hc => by
    rcases hseqs with rfl | rfl
    · exact TreeMap.getElem?_insert_ne hc.symm _
    · exact TreeMap.getElem?_erase_ne hc.symm
  have hself : ∀ n, seqs'[conn]? = some n → n = seq + 1 := fun n hn => by
    rcases hseqs with rfl | rfl
    · exact (Option.some.inj (ExtTreeMap.getElem?_insert_self.symm.trans hn)).symm
    · simp at hn
  refine ⟨h.first, fun c n hn => ?_, List.forall_mem_append.2 ⟨fun g hg => ?_,
    List.forall_mem_singleton.2 ⟨conn, hconn, hmine, hlocal, hseq, fun n hn => ?_⟩⟩,
    fun c s i i' hi hi' hic hic' => ?_⟩
  · by_cases hc : c = conn
    · subst hc
      exact ⟨hmine, hlocal, hself n hn ▸ Nat.le_add_left 1 seq⟩
    · exact h.opened c n (hothers c hc ▸ hn)
  · obtain ⟨c, hgc, hm, hl, hpos, hlt⟩ := h.given g hg
    refine ⟨c, hgc, hm, hl, hpos, fun n hn => ?_⟩
    by_cases hc : c = conn
    · subst hc
      exact hself n hn ▸ Nat.lt_succ_of_lt (hnew g hg hgc)
    · exact hlt n (hothers c hc ▸ hn)
  · exact hself n hn ▸ Nat.lt_succ_self seq
  · rcases List.mem_append.mp hi with hi | hi <;> rcases List.mem_append.mp hi' with hi' | hi'
    · exact h.unique c s i i' hi hi' hic hic'
    · cases List.mem_singleton.mp hi'
      have hc : c = conn := Option.some.inj (hic'.symm.trans hconn)
      exact absurd (hnew _ hi (hc ▸ hic)) (Nat.lt_irrefl _)
    · cases List.mem_singleton.mp hi
      have hc : c = conn := Option.some.inj (hic.symm.trans hconn)
      exact absurd (hnew _ hi' (hc ▸ hic')) (Nat.lt_irrefl _)
    cases List.mem_singleton.mp hi
    cases List.mem_singleton.mp hi'
    rfl

/-- The next number of an open connection. -/
theorem Numbered.next (h : Numbered l nextLocal seqs generated) (hseq : seqs[conn]? = some seq)
    (hi : input.conn = some conn)
    (hseqs : seqs' = seqs.insert conn (seq + 1) ∨ seqs' = seqs.erase conn) :
    Numbered l nextLocal seqs' (generated ++ [(seq, input)]) := by
  obtain ⟨hmine, hlt, hpos⟩ := h.opened conn seq hseq
  refine h.give hi hmine hlt hpos (fun x hx hxc => ?_) hseqs
  obtain ⟨c, hc, -, -, -, hlt⟩ := h.given x hx
  obtain rfl : conn = c := Option.some.inj (hxc.symm.trans hc)
  exact hlt seq hseq

/-! ## What an entry applies -/

theorem appliedEvents_append (es es' : List Event) :
    appliedEvents (es ++ es') = appliedEvents es ++ appliedEvents es' :=
  List.filterMap_append

/-- Every `Applied` event is about an input that was applied. -/
def Reports (events : List (ConnId × Nat)) (accepted : List (Nat × EngineInput)) : Prop :=
  ∀ c s, (c, s) ∈ events → ∃ i, (s, i) ∈ accepted ∧ i.conn = some c

theorem Reports.append {events events' : List (ConnId × Nat)}
    {accepted' : List (Nat × EngineInput)} (h : Reports events accepted)
    (h' : Reports events' accepted') : Reports (events ++ events') (accepted ++ accepted') := by
  intro c s hmem
  rcases List.mem_append.mp hmem with hmem | hmem
  · obtain ⟨i, hi, hc⟩ := h c s hmem
    exact ⟨i, List.mem_append_left _ hi, hc⟩
  · obtain ⟨i, hi, hc⟩ := h' c s hmem
    exact ⟨i, List.mem_append_right _ hi, hc⟩

def Reported (o : Outcome) : Prop := Reports (appliedEvents o.events) o.accepted

theorem Reported.idle (core : Core) : Reported (.idle core) := fun _ _ hmem => nomatch hmem

theorem Reported.quiet {o : Outcome} (h : appliedEvents o.events = []) : Reported o :=
  fun _ _ hmem => by rw [h] at hmem; cases hmem

theorem accepted_andThen (o o' : Outcome) :
    (o.andThen o').accepted = o.accepted ++ o'.accepted :=
  List.filterMap_append

theorem Reported.andThen {o o' : Outcome} (h : Reported o) (h' : Reported o') :
    Reported (o.andThen o') := by
  rw [Reported, accepted_andThen, Outcome.andThen, appliedEvents_append]
  exact h.append h'

theorem appliedEvents_route (node : NodeId) (out : Outbox) :
    appliedEvents (Core.route node out) = [] := by
  simp only [appliedEvents, Core.route, List.filterMap_filterMap, List.filterMap_eq_nil_iff]
  intro r _
  split <;> rfl

theorem applyConn_reported (core : Core) (node : NodeId) (now : Nanos) (s : Nat)
    (i : EngineInput) :
    Reported (core.applyConn node now s i) ∧ (core.applyConn node now s i).accepted ⊆ [(s, i)] := by
  unfold Core.applyConn
  split
  · exact ⟨.idle core, List.nil_subset _⟩
  next conn hconn =>
  split
  · exact ⟨.idle core, List.nil_subset _⟩
  refine ⟨fun c t hmem => ?_, List.Subset.refl _⟩
  rw [appliedEvents_append, appliedEvents_append] at hmem
  rcases List.mem_append.mp hmem with hmem | hmem
  · rcases List.mem_append.mp hmem with hmem | hmem
    · split at hmem
      · cases List.mem_singleton.mp hmem
        exact ⟨i, List.mem_singleton_self _, hconn⟩
      · cases hmem
    · rw [Core.feed, appliedEvents_route] at hmem
      cases hmem
  · split at hmem
    · split at hmem <;> cases hmem
    · cases hmem

theorem applyBatch_reported (node : NodeId) (now : Nanos) (items : List (Nat × EngineInput))
    (core : Core) :
    Reported (core.applyBatch node now items) ∧
      (core.applyBatch node now items).accepted ⊆ items := by
  induction items generalizing core with
  | nil => exact ⟨.idle core, List.nil_subset _⟩
  | cons item items ih =>
    obtain ⟨hrep, hsub⟩ := applyConn_reported core node now item.1 item.2
    obtain ⟨hrep', hsub'⟩ := ih (core.applyConn node now item.1 item.2).core
    refine ⟨hrep.andThen hrep', ?_⟩
    rw [Core.applyBatch, accepted_andThen]
    refine List.append_subset.mpr ⟨?_, List.subset_cons_of_subset _ hsub'⟩
    exact List.Subset.trans hsub (List.cons_subset_cons _ (List.nil_subset items))

theorem dropConns_reported (sh : Shared) (node : NodeId) (now : Nanos) (conns : List ConnId)
    (core : Core) :
    Reported (core.dropConns sh node now conns) ∧
      (core.dropConns sh node now conns).accepted = [] := by
  induction conns generalizing core with
  | nil => exact ⟨.idle core, rfl⟩
  | cons d conns ih =>
    obtain ⟨hrep, hacc⟩ := ih (core.dropConn sh node now d).core
    have hquiet : appliedEvents (core.dropConn sh node now d).events = [] := by
      simp only [Core.dropConn, Core.feed, appliedEvents_append, appliedEvents_route]
      split <;> rfl
    refine ⟨(Reported.quiet hquiet).andThen hrep, ?_⟩
    rw [Core.dropConns, accepted_andThen, hacc]
    rfl

theorem applyEntry_reported (sh : Shared) (core : Core) (ent : LogEntry) :
    Reported (core.applyEntry sh ent) ∧ (core.applyEntry sh ent).accepted ⊆ entryItems ent := by
  unfold Core.applyEntry
  split
  · exact ⟨.idle core, List.nil_subset _⟩
  obtain ⟨index, payload⟩ := ent
  cases payload with
  | blank | membership => exact ⟨.idle core, List.nil_subset _⟩
  | normal req =>
    obtain ⟨now, op⟩ := req
    cases op with
    | conn seq input => exact applyConn_reported _ sh.nodeId _ seq input
    | batch items => exact applyBatch_reported sh.nodeId _ items _
    | tick | setDraining => exact ⟨.quiet (appliedEvents_route ..), List.nil_subset _⟩
    | dropNode n upToLocal =>
      obtain ⟨hrep, hacc⟩ := dropConns_reported sh n _ _ _
      exact ⟨hrep, hacc.symm ▸ List.nil_subset _⟩

/-! ## What the state has applied -/

/-- The inputs applied since the start are those numbered here, once and in turn. -/
structure Settled (l : Launch) (core : Core) (accepted generated : List (Nat × EngineInput)) :
    Prop where
  ok : core.Ok
  wf : Wf core.smMeta.toNumbering
  ledger : Ledger (mine l · = true) accepted core.smMeta.toNumbering
  own : ∀ g ∈ accepted, ∀ c, g.2.conn = some c → mine l c = true → g ∈ generated

/-- The input was applied, or its connection is closed for good. -/
def Gone (core : Core) (accepted : List (Nat × EngineInput)) (g : Nat × EngineInput) : Prop :=
  g ∈ accepted ∨ ∃ c, g.2.conn = some c ∧ Dead core.smMeta.toNumbering c

/-- A number that the state has seen applied is that of the input it was given to. -/
theorem Settled.gone (h : Settled l core accepted generated)
    (hn : Numbered l nextLocal seqs generated) (hg : g ∈ generated)
    {i : EngineInput} (hi : (g.1, i) ∈ accepted) (hic : i.conn = some c)
    (hgc : g.2.conn = some c) : Gone core accepted g := by
  obtain ⟨d, hd, hmine, -⟩ := hn.given g hg
  obtain rfl : c = d := Option.some.inj (hgc.symm.trans hd)
  have hgen : (g.1, i) ∈ generated := h.own _ hi c hic hmine
  have : i = g.2 := hn.unique c g.1 i g.2 hgen hg hic hgc
  exact .inl (by rwa [this] at hi)

theorem highestLocal_seen (hc : mine l c = true) (hfirst : 0 < l.first)
    (hle : localOf c ≤ core.highestLocal l.shared.nodeId) :
    Seen core.smMeta.toNumbering c := by
  simp only [mine, Bool.and_eq_true, decide_eq_true_eq] at hc
  unfold Core.highestLocal at hle
  cases hh : core.smMeta.highestLocal[l.shared.nodeId]? with
  | none =>
    rw [hh] at hle
    simp only [Option.getD_none] at hle
    omega
  | some k =>
    rw [hh] at hle
    exact ⟨k, hc.1 ▸ hh, hle⟩

theorem gone_dead (hc : mine l c = true) (hfirst : 0 < l.first)
    (h : Actor.gone core l.shared.nodeId c = true) : Dead core.smMeta.toNumbering c := by
  simp only [Actor.gone, Bool.and_eq_true, decide_eq_true_eq, Core.appliedSeq,
    Option.isNone_map, Option.isNone_iff_eq_none] at h
  exact ⟨highestLocal_seen hc hfirst h.1, h.2⟩

/-- What `prune` removes is gone. -/
theorem Settled.pruned (h : Settled l core accepted generated)
    (hn : Numbered l nextLocal seqs generated) (hfirst : 0 < l.first) {item : Item}
    (hg : item.key ∈ generated) (hconn : item.input.conn = some item.conn)
    (hp : Actor.mayApply core l.shared.nodeId item = false) : Gone core accepted item.key := by
  obtain ⟨d, hd, hmine, -, hpos, -⟩ := hn.given _ hg
  obtain rfl : item.conn = d := Option.some.inj (hconn.symm.trans hd)
  unfold Actor.mayApply at hp
  split at hp
  · cases hp
  next hle =>
  have hseen : Seen core.smMeta.toNumbering item.conn :=
    highestLocal_seen hmine hfirst (Nat.not_lt.mp hle)
  cases hnext : core.smMeta.nextSeq[item.conn]? with
  | none => exact .inr ⟨item.conn, hconn, hseen, hnext⟩
  | some n =>
    simp only [Core.appliedSeq, hnext, Option.map_some, decide_eq_false_iff_not] at hp
    have hn2 := (h.wf item.conn n hnext).2
    have hlt : item.seq < n := by omega
    obtain ⟨i, hi, hic⟩ := h.ledger.turns item.conn n hmine hnext item.seq hpos hlt
    exact h.gone hn hg hi hic hconn

/-! ## The invariant -/

structure Inv (l : Launch) (w : World) : Prop where
  queue : w.actor.queue.Ok
  order : w.actor.queue.keys.Sublist w.generated
  numbered : Numbered l w.nextLocal w.actor.seqs w.generated
  sent : ∀ g ∈ w.sent, g ∈ w.generated
  log : ∀ ent ∈ w.log, ∀ g ∈ entryItems ent, ∀ c, g.2.conn = some c → mine l c = true →
    g ∈ w.generated
  settled : Settled l w.core w.accepted w.generated
  events : Reports w.events w.accepted
  absent : ∀ g ∈ w.generated, g ∉ w.actor.queue.keys → Gone w.core w.accepted g

theorem Launch.first_pos (l : Launch) :
    (start l).core.highestLocal l.shared.nodeId < l.first := by
  have h := l.numbered
  simp only [firstLocal] at h
  split at h
  · cases h
  split at h
  · cases h
  have hfirst := Except.ok.inj h
  rw [← hfirst]
  exact Nat.lt_of_lt_of_le (Nat.lt_succ_self _) ((le_max_right _ _).trans (le_max_left _ _))

theorem inv_start (l : Launch) : Inv l (start l) := by
  have hlt := l.first_pos
  have hlog := applyLog_booked l.shared l.before (Core.fresh_ok l.shared)
  have hwf : Wf (start l).core.smMeta.toNumbering := hlog.run.books_wf (wf_fresh l.shared)
  refine
    { queue := ForwardQueue.ok_empty
      order := List.Sublist.refl _
      numbered := ⟨le_rfl, fun c n hn => ?_, fun g hg => (nomatch hg),
        fun c s i i' hi => (nomatch hi)⟩
      sent := fun g hg => nomatch hg
      log := fun ent hent => nomatch hent
      settled := ⟨hlog.ok, hwf, ⟨List.nodup_nil, fun s i c hi => (nomatch hi), fun c n hc hn => ?_⟩,
        fun g hg => (nomatch hg)⟩
      events := fun c s hmem => nomatch hmem
      absent := fun g hg => nomatch hg }
  · simp [start] at hn
  -- a connection of this process is above all that the state has seen
  obtain ⟨⟨k, hk, hle⟩, -⟩ := hwf c n hn
  simp only [mine, Bool.and_eq_true, decide_eq_true_eq] at hc
  rw [hc.1] at hk
  simp only [Core.highestLocal, hk, Option.getD_some] at hlt
  omega

variable (h : Inv l w) {events : List (ConnId × Nat)}

include h

/-- Items may leave the queue if they are gone. -/
theorem Inv.leave (hevents : events ⊆ w.events) (hseqs : a'.seqs = w.actor.seqs)
    (hok : a'.queue.Ok) (hsub : a'.queue.keys.Sublist w.actor.queue.keys)
    (hgone : ∀ g ∈ w.actor.queue.keys, g ∉ a'.queue.keys → Gone w.core w.accepted g) :
    Inv l { w with actor := a', events := events } :=
  { h with
    queue := hok
    order := hsub.trans h.order
    numbered := hseqs ▸ h.numbered
    events := fun c s hmem => h.events c s (hevents hmem)
    absent := fun g hg hnot => by
      by_cases hq : g ∈ w.actor.queue.keys
      · exact hgone g hq hnot
      · exact h.absent g hg hq }

/-- The queue's items do not change. -/
theorem Inv.same_keys (hseqs : a'.seqs = w.actor.seqs) (hok : a'.queue.Ok)
    (hkeys : a'.queue.keys = w.actor.queue.keys) : Inv l { w with actor := a' } :=
  h.leave (List.Subset.refl w.events) hseqs hok (hkeys ▸ List.Sublist.refl _)
    fun _ hmem hnot => absurd (hkeys ▸ hmem) hnot

theorem Inv.rewind : Inv l { w with actor := w.actor.rewind } :=
  h.same_keys rfl h.queue.rewind rfl

theorem Inv.prune : Inv l { w with actor := w.actor.prune w.core l.shared.nodeId } := by
  refine h.leave (List.Subset.refl w.events) rfl (h.queue.retain _)
    (List.filter_sublist.map _) fun g hg hnot => ?_
  obtain ⟨item, hitem, rfl⟩ := List.mem_map.mp hg
  refine h.settled.pruned h.numbered (Nat.zero_lt_of_lt l.first_pos) (h.order.subset hg)
    (h.queue.conns item hitem) ?_
  rw [← Bool.not_eq_true]
  exact fun hkeep => hnot (List.mem_map.mpr ⟨item, List.mem_filter.mpr ⟨hitem, hkeep⟩, rfl⟩)

/-- An event takes its item off the queue. -/
theorem Inv.applied (hevents : w.events = (conn, seq) :: events) :
    Inv l { w with
      actor := { w.actor with queue := (w.actor.queue.applied conn seq).2 }
      events := events } := by
  have hsub : events ⊆ w.events := hevents ▸ List.subset_cons_self _ _
  obtain heq | ⟨pre, item, post, hitems, rfl, rfl, heq⟩ :=
    ForwardQueue.applied_cases w.actor.queue conn seq
  · refine h.leave hsub rfl h.queue.applied ?_ fun g hg hnot => absurd hg ?_
    · rw [heq]
    · rwa [heq] at hnot
  have hkeys : w.actor.queue.keys = pre.map Item.key ++ item.key :: post.map Item.key := by
    simp [ForwardQueue.keys, hitems]
  have hkeys' : (w.actor.queue.applied item.conn item.seq).2.keys =
      pre.map Item.key ++ post.map Item.key := by
    simp [heq, ForwardQueue.keys]
  refine h.leave hsub rfl h.queue.applied ?_ fun g hg hnot => ?_
  · simp only [hkeys, hkeys']
    exact (List.sublist_cons_self _ _).append_left _
  -- only the reported item left, and the state has applied it
  simp only [hkeys', List.mem_append, not_or] at hnot
  simp only [hkeys, List.mem_append, List.mem_cons, hnot, false_or, or_false] at hg
  subst hg
  have hq : item ∈ w.actor.queue.items := by simp [hitems]
  obtain ⟨i, hi, hic⟩ := h.events item.conn item.seq (by simp [hevents])
  exact h.settled.gone h.numbered (h.order.subset (List.mem_map_of_mem hq)) hi hic
    (h.queue.conns item hq)

/-- A new number keeps what is said of the queue, the log and the state. -/
theorem Inv.give (hnum : Numbered l nextLocal a'.seqs (w.generated ++ [g]))
    (hqueue : a'.queue.Ok) (hkeys : a'.queue.keys = w.actor.queue.keys ++ [g] ∨
      a'.queue.keys = w.actor.queue.keys ∧ Gone w.core w.accepted g) :
    Inv l { w with actor := a', generated := w.generated ++ [g], nextLocal := nextLocal } := by
  have hold : w.generated ⊆ w.generated ++ [g] := List.subset_append_left ..
  exact
    { h with
      queue := hqueue
      order := by
        obtain hk | ⟨hk, -⟩ := hkeys
        · exact hk ▸ h.order.append (List.Sublist.refl _)
        · exact hk ▸ h.order.trans (List.sublist_append_left _ _)
      numbered := hnum
      sent := fun x hx => hold (h.sent x hx)
      log := fun ent hent x hx c hc hm => hold (h.log ent hent x hx c hc hm)
      settled := { h.settled with
        own := fun x hx c hc hm => hold (h.settled.own x hx c hc hm) }
      absent := by
        refine List.forall_mem_append.2 ⟨fun x hx hnot => h.absent x hx fun hq => hnot ?_,
          List.forall_mem_singleton.2 fun hnot => ?_⟩ <;> obtain hk | ⟨hk, hgone⟩ := hkeys
        · exact hk ▸ List.mem_append_left _ hq
        · exact hk ▸ hq
        · exact absurd (hk ▸ List.mem_append_right _ (List.mem_singleton_self g)) hnot
        · exact hgone }

theorem Inv.message (msg : EngineMsg) (hmsg : ∀ conn, msg ≠ .connect conn) :
    Inv l (w.message l msg) := by
  have hnum := onMessage_numbers w.core l.shared.nodeId w.actor msg hmsg
  generalize ha : w.actor.onMessage w.core l.shared.nodeId msg = a' at hnum
  have hmess : w.message l msg =
      { w with actor := a', generated := w.generated ++ (w.actor.numbers msg).toList } := by
    rw [World.message, ha]
  rw [hmess]
  generalize w.actor.numbers msg = o at hnum
  cases hnum with
  | idle hqueue hseqs =>
    have hk : a'.queue.keys = w.actor.queue.keys := by rw [hqueue]
    simpa using h.same_keys hseqs (hqueue ▸ h.queue) hk
  | @next conn seq input hi hseq hqueue hseqs =>
    refine h.give (h.numbered.next hseq hi hseqs) ?_ ?_
    · rcases hqueue with hq | ⟨hq, -⟩
      · exact hq ▸ h.queue.push hi
      · exact hq ▸ h.queue
    refine hqueue.imp (fun hq => by rw [hq, ForwardQueue.keys_push]) fun ⟨hq, hgone⟩ => ?_
    have hmine := (h.numbered.opened conn seq hseq).1
    exact ⟨by rw [hq], .inr ⟨conn, hi, gone_dead hmine (Nat.zero_lt_of_lt l.first_pos) hgone⟩⟩

/-- A new connection, numbered above all before it. -/
theorem Inv.connect (howner : ownerOf conn = l.shared.nodeId)
    (hlocal : w.nextLocal ≤ localOf conn) :
    Inv l { w.message l (.connect conn) with nextLocal := localOf conn + 1 } := by
  have hmine : mine l conn = true := by
    have := h.numbered.first
    simp only [mine, howner, decide_true, Bool.true_and, decide_eq_true_eq]
    omega
  have hnew : ∀ x ∈ w.generated, x.2.conn ≠ some conn := fun x hx hxc => by
    obtain ⟨c, hc, -, hlt, -⟩ := h.numbered.given x hx
    obtain rfl : conn = c := Option.some.inj (hxc.symm.trans hc)
    omega
  by_cases hrefused : (w.actor.isolated || w.actor.shutdown) = true
  · -- a refused connection only uses up its number
    have hw : w.message l (.connect conn) = w := by
      simp [World.message, Actor.onMessage, Actor.numbers, hrefused]
    rw [hw]
    exact { h with numbered := h.numbered.mono (Nat.le_succ_of_le hlocal) }
  · have hw : w.message l (.connect conn) =
        { w with
          actor := { w.actor with
            seqs := w.actor.seqs.insert conn 2
            queue := w.actor.queue.push conn 1 (.connect conn) }
          generated := w.generated ++ [(1, .connect conn)] } := by
      simp [World.message, Actor.onMessage, Actor.numbers, hrefused, Actor.push]
    rw [hw]
    have hconn : (EngineInput.connect conn).conn = some conn := rfl
    refine h.give ((h.numbered.mono (Nat.le_succ_of_le hlocal)).give hconn hmine
      (Nat.lt_succ_self _) le_rfl (fun x hx hxc => absurd hxc (hnew x hx)) (.inl rfl))
      (h.queue.push rfl) (.inl ForwardQueue.keys_push)

/-- The state applies one more entry of the log. -/
theorem Inv.apply {ent : LogEntry} (hent : w.log[w.applied]? = some ent)
    (hevents : events ⊆ appliedEvents (w.core.applyEntry l.shared ent).events) :
    Inv l { w with
      core := (w.core.applyEntry l.shared ent).core
      applied := w.applied + 1
      events := w.events ++ events
      accepted := w.accepted ++ (w.core.applyEntry l.shared ent).accepted } := by
  obtain ⟨hrun, hok⟩ := applyEntry_booked l.shared h.settled.ok ent
  obtain ⟨hrep, hsub⟩ := applyEntry_reported l.shared w.core ent
  have hmem : ent ∈ w.log := List.mem_of_getElem? hent
  exact
    { h with
      settled :=
        { ok := hok
          wf := hrun.books_wf h.settled.wf
          ledger := hrun.ledger h.settled.wf h.settled.ledger
          own := List.forall_mem_append.2 ⟨h.settled.own, fun g hg => h.log ent hmem g (hsub hg)⟩ }
      events := h.events.append fun c s hcs => hrep c s (hevents hcs)
      absent := fun g hg hnot => (h.absent g hg hnot).imp (List.mem_append_left _)
        fun ⟨c, hc, hdead⟩ => ⟨c, hc, hrun.books_dead hdead⟩ }

/-- Every action keeps the invariant. -/
theorem act_inv (x : Action) : Inv l (act l w x) := by
  cases x with
  | message msg =>
    cases msg with
    | connect conn =>
      simp only [act]
      split
      · next hok => exact h.connect hok.1 hok.2
      · exact h
    | _ => exact h.message _ nofun
  | pump leader =>
    have hsend : ForwardQueue.Sending w.actor.queue
        (if leader then w.actor.queue.sendAll else w.actor.queue.sendBatch) := by
      split
      · exact ForwardQueue.sendAll_sending h.queue
      · exact ForwardQueue.sendBatch_sending h.queue
    obtain ⟨⟨hok, hkeys⟩, hitems⟩ := hsend
    have hw : Inv l { w with actor := (w.actor.pump leader).1 } := h.same_keys rfl hok hkeys
    exact
      { hw with
        sent := List.forall_mem_append.2 ⟨h.sent, List.forall_mem_map.2 fun item hitem =>
          h.order.subset (hitems item hitem)⟩ }
  | rewind => exact h.rewind
  | stall =>
    simp only [act, Actor.onStall]
    split
    · exact h.prune.rewind
    · exact h
  | isolate on => exact h.same_keys rfl h.queue rfl
  | commit ent =>
    simp only [act]
    split
    · next hall =>
      refine { h with
        log := List.forall_mem_append.2
          ⟨h.log, List.forall_mem_singleton.2 fun g hg c hc hm => ?_⟩ }
      have hsent := List.all_eq_true.mp hall g hg
      simp only [hc, Option.any_some, hm, Bool.not_true, Bool.false_or,
        List.contains_iff_mem] at hsent
      exact h.sent g hsent
    · exact h
  | apply =>
    simp only [act]
    split
    · exact h
    · next ent hent => exact h.apply hent (List.Subset.refl _)
  | install =>
    simp only [act]
    split
    · exact h
    · next ent hent => simpa using h.apply hent (List.nil_subset _)
  | event rested =>
    simp only [act]
    split
    · exact h
    next conn seq events hevents =>
    have happ := h.applied hevents
    simp only [Actor.onEvent]
    split
    · exact happ.prune.rewind
    · exact happ

omit h in
theorem run_inv (l : Launch) (acts : List Action) : Inv l (World.run l acts) :=
  Loop.foldl_inv acts (fun _ x _ hw => act_inv hw x) (inv_start l)

omit h in
theorem Gone.settled (hg : Gone core accepted g) (hs : Settled l core accepted generated) :
    accepted.count g = 1 ∨ ∀ ents, g ∉ (core.applyLog l.shared ents).accepted := by
  obtain hin | ⟨c, hc, hdead⟩ := hg
  · exact .inl (List.count_eq_one_of_mem hs.ledger.nodup hin)
  refine .inr fun ents hmem => ?_
  have hlog := applyLog_booked l.shared ents hs.ok
  exact (Past.never hlog.run hdead.past).2 g.2 hc hmem

omit h in
/-- **No input is lost or applied twice.** Whatever happens between the node, the
log and its state: the queue holds numbered inputs in their order, its cursor
and byte count are right, no input is applied twice, and one that is no longer
queued was applied exactly once, or nothing the log can go on with applies it. -/
theorem forward_queue_safe (l : Launch) (acts : List Action) :
    (World.run l acts).actor.queue.keys.Sublist (World.run l acts).generated ∧
    (World.run l acts).actor.queue.cursor ≤ (World.run l acts).actor.queue.items.length ∧
    (World.run l acts).actor.queue.bytes =
      ((World.run l acts).actor.queue.items.map Item.size).sum ∧
    (World.run l acts).accepted.Nodup ∧
    ∀ g ∈ (World.run l acts).generated, g ∉ (World.run l acts).actor.queue.keys →
      (World.run l acts).accepted.count g = 1 ∨
        ∀ ents, g ∉ ((World.run l acts).core.applyLog l.shared ents).accepted := by
  have h := run_inv l acts
  refine ⟨h.order, h.queue.cursor, h.queue.bytes, h.settled.ledger.nodup, fun g hg hnot => ?_⟩
  exact (h.absent g hg hnot).settled h.settled

end Beanstalkd.Server
