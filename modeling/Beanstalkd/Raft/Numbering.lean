import Beanstalkd.Engine.Clients
import Beanstalkd.Raft.StateMachine

/-!
# Each input is applied once

What a log entry does to the numbering is a labelled run of `Books`, whose
labels are the inputs that reach the engine: an input in its turn, a connection
dropped, or an input of no connection. Everything here follows from those rules,
for any log whatsoever:

- `Past`: a number that was taken, or whose connection is closed, is never taken
  again (`Past.never`);
- `Ledger`: the inputs applied since some moment are pairwise distinct, and an
  open connection has had all its numbers in turn (`Run.ledger`).

A `DropNode` drops connections that the engine has; that these are the ones with
a next number is the invariant `Core.Ok`.
-/

open Std

namespace Beanstalkd.Raft

variable {N N' : Numbering} {c d : ConnId} {s n : Nat} {i : EngineInput} {sh : Shared}
  {now : Nanos} {call : Call} {calls : List Call}

/-! ## The rules -/

inductive Books : Numbering → Call → Numbering → Prop where
  | connect {N : Numbering} {c : ConnId} {now : Nanos} :
    N.nextSeq[c]? = none → (∀ h, N.highestLocal[ownerOf c]? = some h → h < localOf c) →
    Books N ⟨now, some 1, .connect c⟩
      { nextSeq := N.nextSeq.insert c 2
        highestLocal := N.highestLocal.insert (ownerOf c) (localOf c) }
  | next {N : Numbering} {c : ConnId} {s : Nat} {i : EngineInput} {now : Nanos} :
    i.conn = some c → i ≠ .connect c → i ≠ .disconnect c → N.nextSeq[c]? = some s →
    Books N ⟨now, some s, i⟩ { N with nextSeq := N.nextSeq.insert c (s + 1) }
  | close {N : Numbering} {c : ConnId} {s : Nat} {now : Nanos} :
    N.nextSeq[c]? = some s →
    Books N ⟨now, some s, .disconnect c⟩ { N with nextSeq := N.nextSeq.erase c }
  | drop {N : Numbering} {c : ConnId} {s : Nat} {now : Nanos} :
    N.nextSeq[c]? = some s →
    Books N ⟨now, none, .disconnect c⟩ { N with nextSeq := N.nextSeq.erase c }
  | idle {N : Numbering} {i : EngineInput} {now : Nanos} : i.conn = none → Books N ⟨now, none, i⟩ N

/-- Other connections keep their next number. -/
theorem Books.others (h : Books N call N') (hne : call.input.conn ≠ some c) :
    N'.nextSeq[c]? = N.nextSeq[c]? := by
  cases h with
  | connect => exact TreeMap.getElem?_insert_ne (fun heq => hne (congrArg some heq)) _
  | next hi => exact TreeMap.getElem?_insert_ne (fun heq => hne (hi.trans (congrArg some heq))) _
  | close | drop => exact TreeMap.getElem?_erase_ne fun heq => hne (congrArg some heq)
  | idle => rfl

/-- The connection itself goes on by one, or is closed. -/
theorem Books.self (h : Books N call N') (hc : call.input.conn = some c)
    (hn : N'.nextSeq[c]? = some n) :
    ∃ s, call.seq = some s ∧ n = s + 1 ∧
      (N.nextSeq[c]? = some s ∨
        s = 1 ∧ ∀ h, N.highestLocal[ownerOf c]? = some h → h < localOf c) := by
  cases h with
  | connect hnone hhigh =>
    cases hc
    obtain rfl : 2 = n := by simpa using hn
    exact ⟨1, rfl, rfl, .inr ⟨rfl, hhigh⟩⟩
  | @next d t i now hi _ _ ht =>
    obtain rfl : d = c := Option.some.inj (hi.symm.trans hc)
    obtain rfl : t + 1 = n := by simpa using hn
    exact ⟨t, rfl, rfl, .inl ht⟩
  | close | drop =>
    cases hc
    simp at hn
  | idle hi => cases hc.symm.trans hi

/-- A numbered input is that of a connection. -/
theorem Books.numbered (h : Books N ⟨now, some s, i⟩ N') : ∃ c, i.conn = some c := by
  cases h with
  | @connect c => exact ⟨c, rfl⟩
  | next hi => exact ⟨_, hi⟩
  | @close c => exact ⟨c, rfl⟩

/-- An accepted input is one of the rules. -/
theorem Numbering.book_books (hi : i.conn = some c) (h : N.accepts c s i = true) :
    Books N ⟨now, some s, i⟩ (N.book c s i) := by
  cases i with
  | connect d =>
    cases hi
    simp only [accepts, Bool.and_eq_true, decide_eq_true_eq, Bool.not_eq_true',
      Option.all_eq_true] at h
    obtain ⟨⟨rfl, hnone⟩, hhigh⟩ := h
    refine .connect ?_ hhigh
    exact ExtTreeMap.getElem?_eq_none (by simp [← ExtTreeMap.contains_iff_mem, hnone])
  | disconnect d =>
    cases hi
    exact .close (by simpa [accepts] using h)
  | tick | setDraining => cases hi
  | _ => exact .next hi nofun nofun (by simpa [accepts] using h)

/-! ## Entries are runs of the rules -/

/-- The owner has connected this number, or a higher one. -/
def Seen (N : Numbering) (c : ConnId) : Prop :=
  ∃ h, N.highestLocal[ownerOf c]? = some h ∧ localOf c ≤ h

/-- Every open connection was seen, and it is past its first input. -/
def Wf (N : Numbering) : Prop := ∀ c n, N.nextSeq[c]? = some n → Seen N c ∧ 2 ≤ n

structure Core.Ok (c : Core) : Prop where
  /-- The engine's connections are those with a next number. -/
  conns : ∀ d, c.engine.conns.contains d = c.smMeta.nextSeq.contains d
  /-- Before the first entry there is none. -/
  unstarted : c.smMeta.started = false → ∀ d : ConnId, c.smMeta.nextSeq.contains d = false

theorem newEngine_conns (now : Nanos) (sh : Shared) (d : ConnId) :
    (newEngine now sh).conns.contains d = false := by
  have h :=
    (Engine.findOrMakeTube_keeps (Engine.blank now sh.cfg sh.sys) TubeName.defaultTube).same d
  exact h.trans ExtTreeMap.contains_empty

theorem Core.fresh_ok (sh : Shared) : (Core.fresh sh).Ok where
  conns := fun d => (newEngine_conns 0 sh d).trans ExtTreeMap.contains_empty.symm
  unstarted := fun _ _ => ExtTreeMap.contains_empty

/-- The outcome is reached by the rules, and the state stays in order. -/
structure Booked (c : Core) (o : Outcome) : Prop where
  run : Run Books c.smMeta.toNumbering o.calls o.core.smMeta.toNumbering
  ok : o.core.Ok

/-- Within one entry, the engine is called at one time only. -/
structure Fed (c : Core) (now : Nanos) (o : Outcome) : Prop extends Booked c o where
  started : o.core.smMeta.started = c.smMeta.started
  lastNow : o.core.smMeta.lastNow = c.smMeta.lastNow
  calls : ∀ call ∈ o.calls, call.now = now

theorem Booked.idle {c : Core} (h : c.Ok) : Booked c (.idle c) := ⟨.nil _, h⟩

theorem Booked.andThen {c : Core} {o o' : Outcome} (h : Booked c o) (h' : Booked o.core o') :
    Booked c (o.andThen o') := ⟨h.run.append h'.run, h'.ok⟩

theorem Fed.idle {c : Core} (h : c.Ok) : Fed c now (.idle c) :=
  ⟨.idle h, rfl, rfl, by simp [Outcome.idle]⟩

theorem Fed.andThen {c : Core} {o o' : Outcome} (h : Fed c now o) (h' : Fed o.core now o') :
    Fed c now (o.andThen o') where
  toBooked := h.toBooked.andThen h'.toBooked
  started := h'.started.trans h.started
  lastNow := h'.lastNow.trans h.lastNow
  calls := List.forall_mem_append.2 ⟨h.calls, h'.calls⟩

/-- Numbers and connections change alike. -/
theorem Books.conns {e : Engine} (h : Books N call N')
    (hc : ∀ d, e.conns.contains d = N.nextSeq.contains d) (d : ConnId) :
    (e.applyInput call.now call.input).conns.contains d = N'.nextSeq.contains d := by
  rw [Engine.applyInput_conns]
  have hopen : ∀ {c : ConnId} {s : Nat}, N.nextSeq[c]? = some s → N.nextSeq.contains c = true :=
    fun hs => by rw [ExtTreeMap.contains_eq_isSome_getElem?, hs]; rfl
  cases h with
  | @connect c now hnone =>
    show (e.conns.contains d || decide (d = c)) = (N.nextSeq.insert c 2).contains d
    rw [hc, ExtTreeMap.contains_insert, Engine.connKey_eq, Bool.or_comm]
  | @next c s i now hi hcon hdis hs =>
    have hsame : (N.nextSeq.insert c (s + 1)).contains d = N.nextSeq.contains d := by
      rw [ExtTreeMap.contains_insert, Engine.connKey_eq]
      by_cases hdc : d = c
      · simp [hdc, hopen hs]
      · simp [hdc]
    show _ = (N.nextSeq.insert c (s + 1)).contains d
    rw [hsame, ← hc]
    cases i with
    | connect => cases hi; exact absurd rfl hcon
    | disconnect => cases hi; exact absurd rfl hdis
    | _ => rfl
  | @close c | @drop c =>
    show (e.conns.contains d && decide (d ≠ c)) = (N.nextSeq.erase c).contains d
    rw [hc, ExtTreeMap.contains_erase, bne, Engine.connKey_eq, Bool.and_comm, decide_not]
  | @idle i now hi =>
    cases i with
    | tick | setDraining => exact hc d
    | _ => cases hi

theorem feed_fed {c : Core} (h : c.Ok) (hs : c.smMeta.started = true) (m : SmMeta)
    (hm : m.started = c.smMeta.started) (hnow : m.lastNow = c.smMeta.lastNow) (node : NodeId)
    {seq : Option Nat} (hb : Books c.smMeta.toNumbering ⟨now, seq, i⟩ m.toNumbering) :
    Fed c now ({ c with smMeta := m }.feed node now seq i) where
  run := .single hb
  ok :=
    { conns := hb.conns h.conns
      unstarted := fun hnot => absurd (hm.trans hs) (ne_true_of_eq_false hnot) }
  started := hm
  lastNow := hnow
  calls := List.forall_mem_singleton.2 rfl

theorem applyConn_fed {c : Core} (h : c.Ok) (hs : c.smMeta.started = true) (node : NodeId)
    (now : Nanos) (s : Nat) (i : EngineInput) : Fed c now (c.applyConn node now s i) := by
  unfold Core.applyConn
  split
  · exact .idle h
  next conn hconn =>
  split
  · exact .idle h
  next hok =>
  have hok : c.smMeta.accepts conn s i = true := by simpa using hok
  have hbook : Books c.smMeta.toNumbering ⟨now, some s, i⟩ (c.smMeta.book conn s i) :=
    Numbering.book_books hconn hok
  have hfed := feed_fed h hs { c.smMeta with toNumbering := c.smMeta.book conn s i } rfl rfl
    node hbook
  exact ⟨⟨hfed.run, hfed.ok⟩, hfed.started, hfed.lastNow, hfed.calls⟩

theorem applyBatch_fed (node : NodeId) (now : Nanos) (items : List (Nat × EngineInput))
    {c : Core} (h : c.Ok) (hs : c.smMeta.started = true) :
    Fed c now (c.applyBatch node now items) := by
  induction items generalizing c with
  | nil => exact .idle h
  | cons item items ih =>
    have hone := applyConn_fed h hs node now item.1 item.2
    exact hone.andThen (ih hone.ok (hone.started.trans hs))

/-- The connections of a node are dropped one by one; each is still open. -/
theorem dropConns_fed (n : NodeId) (now : Nanos) {conns : List ConnId} (hnodup : conns.Nodup)
    {c : Core} (h : c.Ok) (hs : c.smMeta.started = true)
    (hin : ∀ d ∈ conns, c.smMeta.nextSeq.contains d = true) :
    Fed c now (c.dropConns sh n now conns) := by
  induction conns generalizing c with
  | nil => exact .idle h
  | cons d conns ih =>
    obtain ⟨hd, hnodup⟩ := List.nodup_cons.mp hnodup
    obtain ⟨hopen, hin⟩ := List.forall_mem_cons.mp hin
    rw [ExtTreeMap.contains_eq_isSome_getElem?, Option.isSome_iff_exists] at hopen
    obtain ⟨s, hseq⟩ := hopen
    have hone : Fed c now (c.dropConn sh n now d) := by
      have hdrop : Books c.smMeta.toNumbering ⟨now, none, .disconnect d⟩ _ := .drop hseq
      have hfed := feed_fed h hs { c.smMeta with nextSeq := c.smMeta.nextSeq.erase d } rfl rfl
        sh.nodeId hdrop
      exact ⟨⟨hfed.run, hfed.ok⟩, hfed.started, hfed.lastNow, hfed.calls⟩
    refine hone.andThen (ih hnodup hone.ok (hone.started.trans hs) fun b hb => ?_)
    show (c.smMeta.nextSeq.erase d).contains b = true
    have hbd : b ≠ d := fun heq => hd (heq ▸ hb)
    rw [ExtTreeMap.contains_erase, bne, Engine.connKey_eq, hin b hb]
    simp [hbd]

theorem begin_ok {c : Core} (h : c.Ok) (req : Request) : (c.begin sh req).Ok where
  conns := fun d => by
    show (if c.smMeta.started then c.engine else newEngine _ sh).conns.contains d =
      c.smMeta.nextSeq.contains d
    cases hs : c.smMeta.started with
    | true => exact h.conns d
    | false => exact (newEngine_conns _ sh d).trans (h.unstarted hs d).symm
  unstarted := nofun

theorem applyRequest_fed (sh : Shared) {c : Core} (h : c.Ok) (req : Request) :
    Fed (c.begin sh req) (c.begin sh req).smMeta.lastNow (c.applyRequest sh req) := by
  have hb : (c.begin sh req).Ok := begin_ok h req
  have hs : (c.begin sh req).smMeta.started = true := rfl
  unfold Core.applyRequest
  cases req.op with
  | conn seq input => exact applyConn_fed hb hs ..
  | tick | setDraining => exact feed_fed hb hs _ rfl rfl sh.nodeId (.idle rfl)
  | dropNode n upToLocal =>
    refine dropConns_fed n _ (.filter _ ExtTreeMap.nodup_keys) hb hs fun d hd => ?_
    rw [← hb.conns]
    exact ExtTreeMap.contains_iff_mem.mpr (ExtTreeMap.mem_keys.mp (List.mem_of_mem_filter hd))
  | batch items => exact applyBatch_fed _ _ items hb hs

theorem applyEntry_booked (sh : Shared) {c : Core} (h : c.Ok) (ent : LogEntry) :
    Booked c (c.applyEntry sh ent) := by
  unfold Core.applyEntry
  split
  · exact .idle h
  cases ent.payload with
  | blank | membership => exact ⟨.nil _, ⟨h.conns, h.unstarted⟩⟩
  | normal req =>
    have hreq := applyRequest_fed sh h req
    exact ⟨hreq.run, ⟨hreq.ok.conns, hreq.ok.unstarted⟩⟩

theorem applyLog_booked (sh : Shared) (ents : List LogEntry) {c : Core} (h : c.Ok) :
    Booked c (c.applyLog sh ents) := by
  induction ents generalizing c with
  | nil => exact .idle h
  | cons ent ents ih =>
    have hone := applyEntry_booked sh h ent
    exact hone.andThen (ih hone.ok)

/-! ## Numbers that are past -/

/-- Input `s` of `c` had its turn, or will never have one. -/
def Past (N : Numbering) (c : ConnId) (s : Nat) : Prop :=
  Seen N c ∧ ∀ n, N.nextSeq[c]? = some n → s < n

/-- The connection was closed, or the owner went on to a higher one. -/
def Dead (N : Numbering) (c : ConnId) : Prop := Seen N c ∧ N.nextSeq[c]? = none

theorem Dead.past (h : Dead N c) : Past N c s :=
  ⟨h.1, fun n hn => by rw [h.2] at hn; cases hn⟩

theorem Books.seen (h : Books N call N') (hc : Seen N c) : Seen N' c := by
  obtain ⟨k, hk, hle⟩ := hc
  cases h with
  | @connect d now hnone hlt =>
    by_cases howner : ownerOf d = ownerOf c
    · have hkd := hlt k (howner ▸ hk)
      refine ⟨localOf d, ?_, by omega⟩
      rw [howner]
      exact ExtTreeMap.getElem?_insert_self
    · refine ⟨k, ?_, hle⟩
      rw [ExtTreeMap.getElem?_insert]
      simp [howner, hk]
  | _ => exact ⟨k, hk, hle⟩

theorem Books.past (h : Books N call N') (hc : Past N c s) : Past N' c s := by
  refine ⟨h.seen hc.1, fun n hn => ?_⟩
  obtain ⟨⟨k, hk, hle⟩, hlt⟩ := hc
  by_cases hcall : call.input.conn = some c
  · obtain ⟨t, _, rfl, ht | ⟨_, hhigh⟩⟩ := h.self hcall hn
    · exact Nat.lt_succ_of_lt (hlt t ht)
    · have := hhigh k hk
      omega
  · exact hlt n (h.others hcall ▸ hn)

/-- A past number is not taken. -/
theorem Books.not_past (h : Books N ⟨now, some s, i⟩ N') (hi : i.conn = some c) :
    ¬ Past N c s := by
  intro ⟨⟨k, hk, hle⟩, hlt⟩
  cases h with
  | connect hnone hhigh =>
    cases hi
    have := hhigh k hk
    omega
  | @next d _ _ _ hd _ _ hs =>
    obtain rfl : d = c := Option.some.inj (hd.symm.trans hi)
    exact Nat.lt_irrefl s (hlt s hs)
  | close hs =>
    cases hi
    exact Nat.lt_irrefl s (hlt s hs)

theorem Books.took_seen (h : Books N call N') (hc : call.input.conn = some c) (hw : Wf N) :
    Seen N' c := by
  cases h with
  | connect =>
    cases hc
    exact ⟨localOf _, ExtTreeMap.getElem?_insert_self, le_rfl⟩
  | @next d s i now hi _ _ hs =>
    obtain rfl : d = c := Option.some.inj (hi.symm.trans hc)
    exact (hw d s hs).1
  | close hs | drop hs =>
    cases hc
    exact (hw c _ hs).1
  | idle hi => cases hc.symm.trans hi

theorem Books.wf (h : Books N call N') (hw : Wf N) : Wf N' := by
  intro c n hn
  by_cases hcall : call.input.conn = some c
  · obtain ⟨t, _, rfl, ht⟩ := h.self hcall hn
    refine ⟨h.took_seen hcall hw, ?_⟩
    obtain ht | ⟨rfl, _⟩ := ht
    · exact (hw c t ht).2.trans (Nat.le_succ t)
    · exact le_rfl
  · obtain ⟨hseen, h2⟩ := hw c n (h.others hcall ▸ hn)
    exact ⟨h.seen hseen, h2⟩

/-- A `Connect` is taken above every number of its owner. -/
theorem Books.connects (h : Books N call N') (hc : call.input = .connect c) :
    ∀ k, N.highestLocal[ownerOf c]? = some k → k < localOf c := by
  cases h with
  | connect _ hhigh => cases hc; exact hhigh
  | next hi hcon =>
    cases hc
    cases hi
    exact absurd rfl hcon
  | close | drop => cases hc
  | idle hi => cases hc; cases hi

/-- An input taken now is past from now on. -/
theorem Books.took_past (h : Books N ⟨now, some s, i⟩ N') (hi : i.conn = some c) (hw : Wf N) :
    Past N' c s := by
  refine ⟨h.took_seen hi hw, fun n hn => ?_⟩
  obtain ⟨t, ht, rfl, _⟩ := h.self hi hn
  cases ht
  exact Nat.lt_succ_self s

/-- **Once past, never again**, whatever the log goes on with. -/
theorem Past.never (h : Run Books N calls N') (hp : Past N c s) :
    Past N' c s ∧ ∀ i, i.conn = some c → (s, i) ∉ calls.filterMap Call.numbered := by
  induction h with
  | nil => exact ⟨hp, fun i _ hmem => nomatch hmem⟩
  | @cons N N₁ N' call calls hstep _ ih =>
    obtain ⟨hpast, hnever⟩ := ih (hstep.past hp)
    refine ⟨hpast, fun i hi hmem => ?_⟩
    obtain ⟨now, seq, j⟩ := call
    cases seq with
    | none => exact hnever i hi hmem
    | some t =>
      rcases List.mem_cons.mp hmem with heq | hmem
      · cases heq
        exact hstep.not_past hi hp
      · exact hnever i hi hmem

theorem Run.books_wf (h : Run Books N calls N') (hw : Wf N) : Wf N' :=
  h.inv (fun _ _ _ _ hstep hw => hstep.wf hw) hw

theorem Run.books_dead (h : Run Books N calls N') (hd : Dead N c) : Dead N' c := by
  refine h.inv (P := fun M => Dead M c) (fun M M' call _ hstep hd => ?_) hd
  have hpast : ∀ t, Past M' c t := fun t => hstep.past hd.past
  refine ⟨(hpast 0).1, Option.eq_none_iff_forall_ne_some.mpr fun n hn => ?_⟩
  exact Nat.lt_irrefl n ((hpast n).2 n hn)

theorem wf_fresh (sh : Shared) : Wf (Core.fresh sh).smMeta.toNumbering := fun c n hn => by
  simp [Core.fresh] at hn

/-! ## The inputs applied so far -/

/-- What is known of the inputs `H` applied since a moment at which the
connections in `fresh` were still to come. -/
structure Ledger (fresh : ConnId → Prop) (H : List (Nat × EngineInput)) (N : Numbering) :
    Prop where
  nodup : H.Nodup
  past : ∀ s i c, (s, i) ∈ H → i.conn = some c → Past N c s
  /-- An open connection had its inputs in turn. -/
  turns : ∀ c n, fresh c → N.nextSeq[c]? = some n →
    ∀ s, 1 ≤ s → s < n → ∃ i, (s, i) ∈ H ∧ i.conn = some c

variable {fresh : ConnId → Prop} {H : List (Nat × EngineInput)}

theorem Ledger.unnumbered (h : Ledger fresh H N) (hstep : Books N ⟨now, none, i⟩ N') :
    Ledger fresh H N' where
  nodup := h.nodup
  past := fun s i c hmem hi => hstep.past (h.past s i c hmem hi)
  turns := fun c n hc hn => by
    by_cases hcall : i.conn = some c
    · obtain ⟨t, ht, _⟩ := hstep.self hcall hn
      cases ht
    · exact h.turns c n hc (hstep.others hcall ▸ hn)

theorem Ledger.took (h : Ledger fresh H N) (hw : Wf N) (hstep : Books N ⟨now, some s, i⟩ N') :
    Ledger fresh (H ++ [(s, i)]) N' where
  nodup := by
    obtain ⟨d, hd⟩ := hstep.numbered
    rw [List.nodup_append]
    refine ⟨h.nodup, List.nodup_singleton _, fun a ha b hb hab => ?_⟩
    obtain rfl := List.mem_singleton.mp hb
    subst hab
    exact hstep.not_past hd (h.past s i d ha hd)
  past := fun t j c hmem hj => by
    rcases List.mem_append.mp hmem with hmem | hmem
    · exact hstep.past (h.past t j c hmem hj)
    · cases List.mem_singleton.mp hmem
      exact hstep.took_past hj hw
  turns := fun c n hc hn t ht htn => by
    -- all but the new number had their turn before
    have hold : ∀ m, N.nextSeq[c]? = some m → t < m → ∃ j, (t, j) ∈ H ++ [(s, i)] ∧
        j.conn = some c := fun m hm htm => by
      obtain ⟨j, hj, hjc⟩ := h.turns c m hc hm t ht htm
      exact ⟨j, List.mem_append_left _ hj, hjc⟩
    by_cases hcall : i.conn = some c
    · obtain ⟨u, hu, rfl, hs⟩ := hstep.self hcall hn
      cases hu
      by_cases hts : t = s
      · exact ⟨i, by simp [hts], hcall⟩
      obtain hs | ⟨rfl, _⟩ := hs
      · exact hold s hs (by omega)
      · omega
    · exact hold n (hstep.others hcall ▸ hn) htn

/-- The ledger of a run. -/
theorem Run.ledger (h : Run Books N calls N') (hw : Wf N) (ht : Ledger fresh H N) :
    Ledger fresh (H ++ calls.filterMap Call.numbered) N' := by
  induction h generalizing H with
  | nil => simpa using ht
  | @cons N N₁ N' call calls hstep _ ih =>
    obtain ⟨now, seq, i⟩ := call
    cases seq with
    | none => exact ih (hstep.wf hw) (ht.unnumbered hstep)
    | some s =>
      have := ih (hstep.wf hw) (ht.took hw hstep)
      rwa [List.append_assoc] at this

end Beanstalkd.Raft
