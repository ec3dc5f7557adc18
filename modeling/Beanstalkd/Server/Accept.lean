import Beanstalkd.Server.ClusterInv
import Beanstalkd.Server.ConnIds

/-!
# Accepting connections

`crates/server/src/main.rs` (`accept_plain`) and `crates/server/src/conn.rs`
(`handle_tls`): every task that accepts a connection asks `admit`, takes an id
from the shared allocator, registers a closer and sends `Connect` on the engine's
channel. Each of the four is atomic, and tasks interleave between any two of them.

The actor's messages, the queue and the state machine are those of
`Server/Forward.lean` and `Raft/StateMachine.lean`. The node is connected: it is
neither isolated nor shutting down, and every item of the queue gets into the log
once, in the order of the queue, after it was sent. An entry is committed and
applied in one step, since nothing here looks at the log but the node's own state.

`Connect`s are taken in the order of their numbers. So it matters that they are
sent in that order, which is the condition `inTurn`: a task sends its `Connect`
when no other one holds a lower id. Under it `Serving` holds throughout, and its
core is `future`: from what the state has applied (`done`), every queued input is
accepted in its turn, up to what the actor has numbered (`ours`).
-/

open Std

namespace Beanstalkd.Server

open Raft World

/-! ## The node -/

/-- Where a task is between two connections. -/
inductive Phase where
  | idle
  | admitted
  /-- It has an id and no closer yet. -/
  | numbered (conn : ConnId)
  | registered (conn : ConnId)

def Phase.conn : Phase → Option ConnId
  | idle | admitted => none
  | numbered conn | registered conn => some conn

structure Clients where
  replies : ExtTreeSet ConnId := ∅
  closers : ExtTreeSet ConnId := ∅

namespace Clients

def registerCloser (s : Clients) (conn : ConnId) : Clients :=
  { s with closers := s.closers.insert conn }

def close (s : Clients) (conn : ConnId) : Clients := { s with closers := s.closers.erase conn }

def insert (s : Clients) (conn : ConnId) : Clients := { s with replies := s.replies.insert conn }

def remove (s : Clients) (conn : ConnId) : Clients :=
  { s with replies := s.replies.erase conn, closers := s.closers.erase conn }

def holds (s : Clients) (conn : ConnId) : Bool := s.replies.contains conn

end Clients

/-- A node that has opened its allocator. -/
structure Ready extends Launch where
  dataDir : String
  block : Nat
  found : Option String
  write : Write
  ids : ConnIdBlocks
  file : Option String
  opened : ConnIdBlocks.open dataDir shared.nodeId first block found write = (.ok ids, file)

structure Front where
  tasks : List Phase := []
  ids : ConnIdBlocks
  file : Option String
  clients : Clients := {}
  channel : List EngineMsg := []
  actor : Actor := {}
  core : Core
  /-- `Applied` events the actor has not read yet. -/
  events : List (ConnId × Nat) := []
  /-- The connections whose `Connect` was sent, in order. -/
  connects : List ConnId := []
  /-- Every item of every pass. -/
  sent : List (Nat × EngineInput) := []
  generated : List (Nat × EngineInput) := []
  /-- How many of them are in the log. -/
  committed : Nat := 0
  /-- The inputs of this process that the state machine took. -/
  accepted : List (Nat × EngineInput) := []
  /-- Clients that `prune` closed. -/
  lost : List ConnId := []

inductive FrontAct where
  | spawn
  /-- `Clients::admit` lets the task go on. -/
  | admission (t : Nat)
  | next (t : Nat) (w : Write)
  | register (t : Nat)
  | send (t : Nat)
  /-- A message that is no `Connect`. -/
  | talk (msg : EngineMsg)
  /-- The actor takes the next message. -/
  | receive
  | pump (leader : Bool)
  | rewind
  | stall
  | event (rested : Bool)
  /-- An entry is committed, and the node applies it. -/
  | commit (ent : LogEntry)

namespace Front

variable (r : Ready)

def start : Front :=
  { ids := r.ids
    file := r.file
    core := (World.start r.toLaunch).core }

def node : NodeId := r.shared.nodeId

/-- The inputs of this process in an entry. -/
def ownItems (items : List (Nat × EngineInput)) : List (Nat × EngineInput) :=
  items.filter fun g => g.2.conn.any (mine r.toLaunch)

/-- The entry may follow the log: its inputs of this process are the next ones of the
queue, each sent before, and it drops no connection of this process. -/
def due (w : Front) (ent : LogEntry) : Bool :=
  let own := ownItems r (entryItems ent)
  !(w.core.lastApplied.any fun l => ent.index ≤ l) &&
    own = (w.generated.drop w.committed).take own.length && own.all (w.sent.contains ·) &&
    match ent.payload with
    | .normal { op := .dropNode n upTo, .. } => n ≠ node r || upTo < r.first
    | _ => true

/-- The connections of queued items that the state no longer has. -/
def orphans (w : Front) (a : Actor) : List ConnId :=
  (a.queue.items.map Item.conn).filter (Actor.gone w.core (node r))

/-- What `prune` does to the clients. -/
def closeOrphans (w : Front) (a : Actor) : Front :=
  let lost := (w.orphans r a).filter w.clients.holds
  { w with clients := lost.foldl Clients.close w.clients, lost := w.lost ++ lost }

def receive (w : Front) (msg : EngineMsg) : Front :=
  { w with
    actor := w.actor.onMessage w.core (node r) msg
    generated := w.generated ++ (w.actor.numbers msg).toList
    clients := match msg with
      | .connect conn =>
        if w.actor.isolated || w.actor.shutdown then w.clients.close conn else w.clients.insert conn
      | .disconnect conn => w.clients.remove conn
      | _ => w.clients }

/-- One action; one that cannot happen changes nothing. -/
def act (w : Front) : FrontAct → Front
  | .spawn => { w with tasks := w.tasks ++ [.idle] }
  | .admission t =>
    match w.tasks[t]? with
    | some .idle => { w with tasks := w.tasks.set t .admitted }
    | _ => w
  | .next t write =>
    match w.tasks[t]? with
    | some .admitted =>
      match w.ids.next w.file write with
      | (some conn, ids, file) => { w with ids, file, tasks := w.tasks.set t (.numbered conn) }
      | (none, ids, file) => { w with ids, file, tasks := w.tasks.set t .idle }
    | _ => w
  | .register t =>
    match w.tasks[t]? with
    | some (.numbered conn) =>
      { w with clients := w.clients.registerCloser conn, tasks := w.tasks.set t (.registered conn) }
    | _ => w
  | .send t =>
    match w.tasks[t]? with
    | some (.registered conn) =>
      { w with
        channel := w.channel ++ [.connect conn]
        connects := w.connects ++ [conn]
        tasks := w.tasks.set t .idle }
    | _ => w
  | .talk msg =>
    match msg with
    | .connect _ | .shutdown => w
    | msg => { w with channel := w.channel ++ [msg] }
  | .receive =>
    match w.channel with
    | [] => w
    | msg :: channel => { w.receive r msg with channel }
  | .pump leader =>
    let (actor, items) := w.actor.pump leader
    { w with actor, sent := w.sent ++ items.map Item.key }
  | .rewind => { w with actor := w.actor.rewind }
  | .stall =>
    let w' := if w.actor.queue.cursor > 0 then w.closeOrphans r w.actor else w
    { w' with actor := w.actor.onStall w.core (node r) }
  | .event rested =>
    match w.events with
    | [] => w
    | (conn, seq) :: events =>
      let (out, queue) := w.actor.queue.applied conn seq
      let w' := if out.droppedBefore && rested then w.closeOrphans r { w.actor with queue } else w
      { w' with actor := w.actor.onEvent w.core (node r) rested conn seq, events }
  | .commit ent =>
    if w.due r ent then
      let o := w.core.applyEntry r.shared ent
      { w with
        core := o.core
        events := w.events ++ appliedEvents o.events
        committed := w.committed + (ownItems r (entryItems ent)).length
        accepted := w.accepted ++ ownItems r o.accepted }
    else w

def run (acts : List FrontAct) : Front := acts.foldl (act r) (start r)

/-- A task sends its `Connect` when no other one has a lower id, and the ids fit
their 48 bits. -/
def inTurn (w : Front) : FrontAct → Bool
  | .next _ _ => w.ids.state.next < 2 ^ connSeqBits
  | .send t =>
    match w.tasks[t]? with
    | some (.registered conn) =>
      (w.tasks.eraseIdx t).all fun p => p.conn.all fun d => localOf conn < localOf d
    | _ => true
  | _ => true

/-- Every action of a run is in turn. -/
def InTurn : Front → List FrontAct → Prop
  | _, [] => True
  | w, a :: acts => w.inTurn a = true ∧ InTurn (act r w a) acts

end Front

/-- The connections whose `Connect`s are among the inputs. -/
def connectsOf (items : List (Nat × EngineInput)) : List ConnId :=
  items.filterMap fun
    | (_, .connect conn) => some conn
    | _ => none

def pendingConnects (channel : List EngineMsg) : List ConnId :=
  channel.filterMap fun
    | .connect conn => some conn
    | _ => none

theorem connectsOf_append (items items' : List (Nat × EngineInput)) :
    connectsOf (items ++ items') = connectsOf items ++ connectsOf items' :=
  List.filterMap_append

theorem pendingConnects_append (ms ms' : List EngineMsg) :
    pendingConnects (ms ++ ms') = pendingConnects ms ++ pendingConnects ms' :=
  List.filterMap_append

/-! ## Inputs in their turn -/

/-- The numbering takes the input. -/
def Turn (N : Numbering) (g : Nat × EngineInput) (N' : Numbering) : Prop :=
  ∃ c, g.2.conn = some c ∧ N.accepts c g.1 g.2 = true ∧ N' = N.book c g.1 g.2

variable {N N' D D' : Numbering} {c conn : ConnId} {s seq : Nat} {i : EngineInput}
  {g : Nat × EngineInput} {items : List (Nat × EngineInput)} {l : Launch} {r : Ready} {w : Front}

theorem Turn.books (h : Turn N g N') : Books N ⟨0, some g.1, g.2⟩ N' := by
  obtain ⟨c, hc, hacc, rfl⟩ := h
  exact Numbering.book_books hc hacc

theorem Run.turn_dead (h : Run Turn N items N') (hd : Dead N c) : Dead N' c :=
  h.inv (fun _ _ _ _ hstep hd => Run.books_dead (.single hstep.books) hd) hd

theorem accepts_of_next (hi : i.conn = some c) (hcon : ∀ d, i ≠ .connect d)
    (hs : N.nextSeq[c]? = some s) : N.accepts c s i = true := by
  cases i with
  | connect d => exact absurd rfl (hcon d)
  | tick | setDraining => cases hi
  | _ => exact decide_eq_true hs

/-- A `Connect` above all earlier ones is accepted. -/
theorem accepts_of_above (hw : Wf N)
    (hhigh : ∀ h, N.highestLocal[ownerOf c]? = some h → h < localOf c) :
    N.accepts c 1 (.connect c) = true := by
  have hnone : N.nextSeq.contains c = false := by
    rw [ExtTreeMap.contains_eq_isSome_getElem?, Option.isSome_eq_false_iff,
      Option.isNone_iff_eq_none, Option.eq_none_iff_forall_ne_some]
    intro n hn
    obtain ⟨⟨h, hh, hle⟩, -⟩ := hw c n hn
    exact absurd (hhigh h hh) (Nat.not_lt.mpr hle)
  simp only [Numbering.accepts, Bool.and_eq_true, decide_eq_true_eq, Bool.not_eq_true',
    Option.all_eq_true]
  exact ⟨⟨trivial, hnone⟩, hhigh⟩

/-! ## The state of the node and its own inputs -/

/-- As far as the connections of this process go, the numbering `N` of the state is
`D`, which knows of nothing else. -/
structure Mirrors (l : Launch) (N D : Numbering) : Prop where
  nextSeq : ∀ c, mine l c = true → N.nextSeq[c]? = D.nextSeq[c]?
  high : ∀ h, D.highestLocal[l.shared.nodeId]? = some h →
    N.highestLocal[l.shared.nodeId]? = some h ∧ l.first ≤ h
  low : D.highestLocal[l.shared.nodeId]? = none →
    ∀ h, N.highestLocal[l.shared.nodeId]? = some h → h < l.first

theorem mine_iff : mine l c = true ↔ ownerOf c = l.shared.nodeId ∧ l.first ≤ localOf c := by
  rw [mine, Bool.and_eq_true, decide_eq_true_eq, decide_eq_true_eq]

theorem Mirrors.congr (h : Mirrors l N D)
    (hseq : ∀ c, mine l c = true → N'.nextSeq[c]? = N.nextSeq[c]?)
    (hhigh : N'.highestLocal = N.highestLocal) : Mirrors l N' D where
  nextSeq c hc := (hseq c hc).trans (h.nextSeq c hc)
  high k hk := hhigh ▸ h.high k hk
  low hn k hk := h.low hn k (hhigh ▸ hk)

/-- Both accept the same inputs of this process. -/
theorem Mirrors.accepts (h : Mirrors l N D) (hmine : mine l c = true)
    (hacc : D.accepts c s i = true) : N.accepts c s i = true := by
  cases i with
  | connect d =>
    have hown := mine_iff.mp hmine
    simp only [Numbering.accepts, Bool.and_eq_true, decide_eq_true_eq, Bool.not_eq_true',
      Option.all_eq_true, ExtTreeMap.contains_eq_isSome_getElem?, h.nextSeq c hmine] at hacc ⊢
    refine ⟨hacc.1, fun k hk => ?_⟩
    rw [hown.1] at hk hacc
    cases hD : D.highestLocal[l.shared.nodeId]? with
    | none => exact (h.low hD k hk).trans_le hown.2
    | some k' =>
      obtain rfl : k' = k := Option.some.inj ((h.high k' hD).1.symm.trans hk)
      exact hacc.2 k' hD
  | _ =>
    simp only [Numbering.accepts, h.nextSeq c hmine] at hacc ⊢
    exact hacc

theorem Mirrors.own (h : Mirrors l N D) (hmine : mine l c = true) (hi : i.conn = some c) :
    Mirrors l (N.book c s i) (D.book c s i) := by
  have hown := mine_iff.mp hmine
  cases i with
  | connect d =>
    have hself : ∀ m : ExtTreeMap NodeId Nat,
        (m.insert (ownerOf c) (localOf c))[l.shared.nodeId]? = some (localOf c) := fun m => by
      rw [hown.1]
      exact ExtTreeMap.getElem?_insert_self
    refine ⟨fun d hd => getElem?_insert_congr (h.nextSeq d hd), fun k hk => ?_, fun hn => ?_⟩
    · cases ((hself _).symm.trans hk)
      exact ⟨hself _, hown.2⟩
    · cases (hself _).symm.trans hn
  | disconnect d =>
    refine ⟨fun d hd => ?_, h.high, h.low⟩
    show (N.nextSeq.erase c)[d]? = (D.nextSeq.erase c)[d]?
    rw [ExtTreeMap.getElem?_erase, ExtTreeMap.getElem?_erase, h.nextSeq d hd]
  | tick | setDraining => cases hi
  | _ => exact ⟨fun d hd => getElem?_insert_congr (h.nextSeq d hd), h.high, h.low⟩

/-- An input of another connection says nothing about ours; a `Connect` of an earlier
process is refused once one of ours is in. -/
theorem Mirrors.foreign (h : Mirrors l N D) (hmine : mine l c = false) (hi : i.conn = some c)
    (hacc : N.accepts c s i = true) : Mirrors l (N.book c s i) D := by
  have hne : ∀ d, mine l d = true → c ≠ d := by
    rintro d hd rfl
    rw [hmine] at hd
    cases hd
  cases i with
  | connect d =>
    cases hi
    simp only [Numbering.accepts, Bool.and_eq_true, Option.all_eq_true, decide_eq_true_eq] at hacc
    refine ⟨fun d hd => (TreeMap.getElem?_insert_ne (hne d hd) _).trans (h.nextSeq d hd), ?_, ?_⟩
    · intro k hk
      obtain ⟨hN, hle⟩ := h.high k hk
      refine ⟨(TreeMap.getElem?_insert_ne (fun hown => ?_) _).trans hN, hle⟩
      have hlt := hacc.2 k (hown ▸ hN)
      exact hne c (mine_iff.mpr ⟨hown, hle.trans hlt.le⟩) rfl
    · intro hn k hk
      by_cases hown : ownerOf c = l.shared.nodeId
      · have hk' : (N.highestLocal.insert (ownerOf c) (localOf c))[l.shared.nodeId]? = some k := hk
        rw [hown, ExtTreeMap.getElem?_insert_self] at hk'
        cases hk'
        exact Nat.not_le.mp fun hle => hne c (mine_iff.mpr ⟨hown, hle⟩) rfl
      · exact h.low hn k ((TreeMap.getElem?_insert_ne hown _).symm.trans hk)
  | disconnect d =>
    exact ⟨fun d hd => (TreeMap.getElem?_erase_ne (hne d hd)).trans (h.nextSeq d hd), h.high, h.low⟩
  | tick | setDraining => cases hi
  | _ =>
    exact ⟨fun d hd => (TreeMap.getElem?_insert_ne (hne d hd) _).trans (h.nextSeq d hd), h.high,
      h.low⟩

/-! ### What an entry does -/

theorem applyConn_takes {core : Core} (hi : i.conn = some c)
    (hacc : core.smMeta.accepts c s i = true) (node : NodeId) (now : Nanos) :
    (core.applyConn node now s i).core.smMeta.toNumbering = core.smMeta.book c s i ∧
      (core.applyConn node now s i).accepted = [(s, i)] := by
  unfold Core.applyConn
  rw [hi]
  simp only [hacc, Bool.not_true, Bool.false_eq_true, if_false]
  exact ⟨rfl, rfl⟩

theorem applyConn_refuses {core : Core} (hi : i.conn = some c)
    (hacc : core.smMeta.accepts c s i = false) (node : NodeId) (now : Nanos) :
    core.applyConn node now s i = .idle core := by
  unfold Core.applyConn
  rw [hi]
  simp only [hacc, Bool.not_false, if_true]

namespace Front

/-- The outcome follows the inputs of this process among `items`. -/
structure Follows (r : Ready) (items : List (Nat × EngineInput)) (D' : Numbering) (o : Outcome) :
    Prop where
  mirrors : Mirrors r.toLaunch o.core.smMeta.toNumbering D'
  accepted : ownItems r o.accepted = ownItems r items

theorem ownItems_append (items items' : List (Nat × EngineInput)) :
    ownItems r (items ++ items') = ownItems r items ++ ownItems r items' :=
  List.filter_append _ _

theorem ownItems_cons_of_foreign (hi : ∀ c, g.2.conn = some c → mine r.toLaunch c = false) :
    ownItems r [g] = [] := by
  refine List.filter_cons_of_neg ?_
  cases hc : g.2.conn with
  | none => exact Bool.false_ne_true
  | some c => exact fun h => Bool.false_ne_true ((hi c hc).symm.trans h)

theorem applyConn_follows {core : Core} (h : Mirrors r.toLaunch core.smMeta.toNumbering D)
    (hrun : Run Turn D (ownItems r [g]) D') (node : NodeId) (now : Nanos) :
    Follows r [g] D' (core.applyConn node now g.1 g.2) := by
  cases hc : g.2.conn with
  | none =>
    have hnone : ownItems r [g] = [] := ownItems_cons_of_foreign fun c h => by
      rw [hc] at h
      cases h
    have hidle : core.applyConn node now g.1 g.2 = .idle core := by
      unfold Core.applyConn
      rw [hc]
    rw [hnone] at hrun
    rw [hidle, hrun.nil_eq]
    exact ⟨h, hnone.symm⟩
  | some c =>
    cases hmine : mine r.toLaunch c with
    | true =>
      have hown : ownItems r [g] = [g] := by
        refine List.filter_cons_of_pos ?_
        rw [hc]
        exact hmine
      rw [hown] at hrun
      cases hrun with
      | cons hturn hnil =>
        obtain ⟨d, hd, hacc, rfl⟩ := hturn
        obtain rfl : d = c := Option.some.inj (hd.symm.trans hc)
        obtain ⟨hnum, htook⟩ := applyConn_takes hc (h.accepts hmine hacc) node now
        refine ⟨?_, by rw [htook]⟩
        rw [hnum, hnil.nil_eq]
        exact h.own hmine hc
    | false =>
      have hnone : ownItems r [g] = [] := ownItems_cons_of_foreign fun d hd => by
        obtain rfl : d = c := Option.some.inj (hd.symm.trans hc)
        exact hmine
      rw [hnone] at hrun
      rw [hrun.nil_eq]
      cases hacc : core.smMeta.accepts c g.1 g.2 with
      | true =>
        obtain ⟨hnum, htook⟩ := applyConn_takes hc hacc node now
        refine ⟨?_, by rw [htook]⟩
        rw [hnum]
        exact h.foreign hmine hc hacc
      | false =>
        rw [applyConn_refuses hc hacc]
        exact ⟨h, hnone.symm⟩

theorem applyBatch_follows (node : NodeId) (now : Nanos) {core : Core}
    (h : Mirrors r.toLaunch core.smMeta.toNumbering D) (hrun : Run Turn D (ownItems r items) D') :
    Follows r items D' (core.applyBatch node now items) := by
  induction items generalizing core D with
  | nil =>
    rw [hrun.nil_eq]
    exact ⟨h, rfl⟩
  | cons g items ih =>
    have hsplit : ownItems r (g :: items) = ownItems r [g] ++ ownItems r items :=
      ownItems_append [g] items
    rw [hsplit] at hrun
    obtain ⟨D₁, hone, hrest⟩ := hrun.split_append
    have hfirst := applyConn_follows h hone node now
    have hnext := ih hfirst.mirrors hrest
    refine ⟨hnext.mirrors, ?_⟩
    rw [hsplit, Core.applyBatch, accepted_andThen, ownItems_append, hfirst.accepted, hnext.accepted]

theorem dropConns_highestLocal (sh : Shared) (n : NodeId) (now : Nanos) (conns : List ConnId)
    (core : Core) :
    (Core.dropConns sh n now core conns).core.smMeta.highestLocal = core.smMeta.highestLocal := by
  induction conns generalizing core with
  | nil => rfl
  | cons d conns ih => exact ih _

theorem applyEntry_follows {ent : LogEntry} (hdue : w.due r ent = true)
    (h : Mirrors r.toLaunch w.core.smMeta.toNumbering D)
    (hrun : Run Turn D (ownItems r (entryItems ent)) D') :
    Follows r (entryItems ent) D' (w.core.applyEntry r.shared ent) := by
  simp only [due, Bool.and_eq_true, Bool.not_eq_true'] at hdue
  obtain ⟨⟨⟨hfresh, -⟩, -⟩, hdrop⟩ := hdue
  unfold Core.applyEntry
  rw [hfresh]
  obtain ⟨index, payload⟩ := ent
  cases payload with
  | blank | membership =>
    rw [hrun.nil_eq]
    exact ⟨h, rfl⟩
  | normal req =>
    obtain ⟨now, op⟩ := req
    have hbegin : Mirrors r.toLaunch (w.core.begin r.shared ⟨now, op⟩).smMeta.toNumbering D := h
    cases op with
    | conn seq input =>
      have hone : Follows r [(seq, input)] D'
          (w.core.applyRequest r.shared ⟨now, .conn seq input⟩) :=
        applyConn_follows hbegin hrun _ _
      exact ⟨hone.mirrors, hone.accepted⟩
    | batch items =>
      have hall : Follows r items D' (w.core.applyRequest r.shared ⟨now, .batch items⟩) :=
        applyBatch_follows _ _ hbegin hrun
      exact ⟨hall.mirrors, hall.accepted⟩
    | tick | setDraining =>
      rw [hrun.nil_eq]
      exact ⟨h, rfl⟩
    | dropNode n upTo =>
      rw [hrun.nil_eq]
      have hspared : ∀ c, mine r.toLaunch c = true → c ∉ (w.core.begin r.shared
          ⟨now, .dropNode n upTo⟩).engine.conns.keys.filter
            (fun d => ownerOf d = n && localOf d ≤ upTo) := by
        intro c hc hmem
        obtain ⟨-, rfl, hle⟩ := mem_dropped.mp hmem
        have hown := mine_iff.mp hc
        simp only [node, Bool.or_eq_true, decide_eq_true_eq] at hdrop
        rcases hdrop with hne | hlt
        · exact of_decide_eq_true hne hown.1
        · exact Nat.not_lt.mpr (hown.2.trans hle) hlt
      have hkept : Mirrors r.toLaunch (w.core.applyRequest r.shared
          ⟨now, .dropNode n upTo⟩).core.smMeta.toNumbering D :=
        h.congr (fun c hc => dropConns_nextSeq (hspared c hc) _) (dropConns_highestLocal _ _ _ _ _)
      have hnone : (w.core.applyRequest r.shared ⟨now, .dropNode n upTo⟩).accepted = [] :=
        (dropConns_reported _ _ _ _ _).2
      refine ⟨hkept, ?_⟩
      exact congrArg (ownItems r) hnone

/-! ## What holds throughout -/

/-- What holds of a connected node whose tasks send in turn: `done` is what its state
has applied of its own inputs, `ours` what its actor has numbered. -/
structure Serving (r : Ready) (w : Front) (done ours : Numbering) : Prop where
  node_eq : w.ids.node = node r
  first_le : r.first ≤ w.ids.state.next
  /-- Ids of tasks are above every one whose `Connect` was sent. -/
  held : ∀ p ∈ w.tasks, ∀ c, p.conn = some c →
    mine r.toLaunch c = true ∧ localOf c < w.ids.state.next ∧
      ∀ d ∈ w.connects, localOf d < localOf c
  sent : ∀ d ∈ w.connects, mine r.toLaunch d = true ∧ localOf d < w.ids.state.next
  increasing : w.connects.Pairwise fun c d => localOf c < localOf d
  arrived : w.connects = connectsOf w.generated ++ pendingConnects w.channel
  up : w.actor.isolated = false ∧ w.actor.shutdown = false
  noShutdown : EngineMsg.shutdown ∉ w.channel
  committed_le : w.committed ≤ w.generated.length
  future : Run Turn done (w.generated.drop w.committed) ours
  mirrors : Mirrors r.toLaunch w.core.smMeta.toNumbering done
  seqs : w.actor.seqs = ours.nextSeq
  own : ∀ c n, ours.nextSeq[c]? = some n → mine r.toLaunch c = true
  wf : Wf ours
  highest : ours.highestLocal[node r]? = (connectsOf w.generated).getLast?.map localOf
  holds : ∀ c, w.clients.holds c = w.actor.seqs.contains c
  accepted : w.accepted = w.generated.take w.committed
  lost : w.lost = []

variable {done ours : Numbering} {msg : EngineMsg} {ch : List EngineMsg}

/-- A client that is held is not lost: its `Connect` is applied, or still to come. -/
theorem Serving.not_gone (h : Serving r w done ours)
    (hc : w.actor.seqs.contains c = true) : Actor.gone w.core (node r) c = false := by
  rw [h.seqs, ExtTreeMap.contains_eq_isSome_getElem?, Option.isSome_iff_exists] at hc
  obtain ⟨n, hn⟩ := hc
  have hmine := h.own c n hn
  refine Bool.eq_false_iff.mpr fun hgone => ?_
  simp only [Actor.gone, Bool.and_eq_true, decide_eq_true_eq, Core.appliedSeq, Option.isNone_map,
    Option.isNone_iff_eq_none] at hgone
  obtain ⟨k, hk, hle⟩ := highestLocal_seen hmine (Nat.zero_lt_of_lt r.toLaunch.first_pos) hgone.1
  have hown := mine_iff.mp hmine
  rw [hown.1] at hk
  -- the state has seen it, so it is dead for our own numbering as well
  have hseen : Seen done c := by
    refine ⟨k, ?_, hle⟩
    rw [hown.1]
    cases hD : done.highestLocal[r.shared.nodeId]? with
    | none => exact absurd (h.mirrors.low hD k hk) (Nat.not_lt.mpr (hown.2.trans hle))
    | some k' => rw [← hk, (h.mirrors.high k' hD).1]
  have hdead : Dead ours c :=
    Run.turn_dead h.future ⟨hseen, (h.mirrors.nextSeq c hmine).symm.trans hgone.2⟩
  rw [hdead.2] at hn
  cases hn

/-- So `prune` closes nobody. -/
theorem Serving.no_orphans (h : Serving r w done ours) (a : Actor) :
    w.closeOrphans r a = w := by
  have hnone : (w.orphans r a).filter w.clients.holds = [] := by
    refine List.filter_eq_nil_iff.mpr fun c hc hheld => ?_
    have hgone := (List.mem_filter.mp hc).2
    rw [h.holds] at hheld
    rw [h.not_gone hheld] at hgone
    cases hgone
  unfold closeOrphans
  rw [hnone]
  exact congrArg (fun lost => { w with lost }) (List.append_nil _)

/-! ### Tasks -/

/-- A task that changes its phase and keeps its id, if it has one. -/
theorem Serving.set (h : Serving r w done ours) (t : Nat) {p : Phase}
    (hp : ∀ c, p.conn = some c → ∃ q ∈ w.tasks, q.conn = some c) :
    Serving r { w with tasks := w.tasks.set t p } done ours :=
  { h with
    held := fun q hq c hc => by
      rcases List.mem_or_eq_of_mem_set hq with hq | rfl
      · exact h.held q hq c hc
      · obtain ⟨q', hq', hc'⟩ := hp c hc
        exact h.held q' hq' c hc' }

theorem Serving.next (h : Serving r w done ours) (t : Nat) (write : Write)
    (hturn : w.inTurn (.next t write) = true) : Serving r (act r w (.next t write)) done ours := by
  have hsmall : w.ids.state.next < 2 ^ connSeqBits := of_decide_eq_true hturn
  simp only [act]
  split
  · split
    next conn ids file hnext =>
      obtain ⟨limit, rfl, rfl, -⟩ := ConnIdBlocks.next_some hnext
      have hlocal : localOf (connId w.ids.node w.ids.state.next) = w.ids.state.next :=
        localOf_connId hsmall _
      have hmine : mine r.toLaunch (connId w.ids.node w.ids.state.next) = true := by
        refine mine_iff.mpr ⟨(ownerOf_connId hsmall _).trans h.node_eq, ?_⟩
        rw [hlocal]
        exact h.first_le
      exact
        { h with
          node_eq := h.node_eq
          first_le := Nat.le_succ_of_le h.first_le
          held := fun q hq c hc => by
            rcases List.mem_or_eq_of_mem_set hq with hq | rfl
            · obtain ⟨h₁, h₂, h₃⟩ := h.held q hq c hc
              exact ⟨h₁, Nat.lt_succ_of_lt h₂, h₃⟩
            cases hc
            refine ⟨hmine, ?_, fun d hd => ?_⟩
            · rw [hlocal]
              exact Nat.lt_succ_self _
            · rw [hlocal]
              exact (h.sent d hd).2
          sent := fun d hd => ⟨(h.sent d hd).1, Nat.lt_succ_of_lt (h.sent d hd).2⟩ }
    next ids file hnext =>
      obtain ⟨rfl, -⟩ := ConnIdBlocks.next_none hnext
      exact { h.set t (p := .idle) (fun c hc => nomatch hc) with }
  · exact h

theorem mem_eraseIdx_of_mem_set {α : Type} {a b : α} {xs : List α} {t : Nat} (ht : t < xs.length)
    (h : b ∈ xs.set t a) : b = a ∨ b ∈ xs.eraseIdx t := by
  rw [List.set_eq_take_append_cons_drop, if_pos ht] at h
  rw [List.eraseIdx_eq_take_drop_succ, List.mem_append]
  rcases List.mem_append.mp h with h | h
  · exact .inr (.inl h)
  · exact (List.mem_cons.mp h).imp_right .inr

theorem Serving.send (h : Serving r w done ours) (t : Nat) (hturn : w.inTurn (.send t) = true) :
    Serving r (act r w (.send t)) done ours := by
  simp only [act, inTurn] at hturn ⊢
  split
  next conn htask =>
    rw [htask] at hturn
    have hlt : t < w.tasks.length := (List.getElem?_eq_some_iff.mp htask).1
    obtain ⟨hmine, hbelow, habove⟩ := h.held _ (List.mem_of_getElem? htask) conn rfl
    exact
      { h with
        held := fun q hq c hc => by
          rcases mem_eraseIdx_of_mem_set hlt hq with rfl | hq
          · cases hc
          obtain ⟨h₁, h₂, h₃⟩ := h.held q (List.mem_of_mem_eraseIdx hq) c hc
          have hall := List.all_eq_true.mp hturn q hq
          rw [hc] at hall
          exact ⟨h₁, h₂, List.forall_mem_append.2
            ⟨h₃, List.forall_mem_singleton.2 (of_decide_eq_true hall)⟩⟩
        sent := List.forall_mem_append.2 ⟨h.sent, List.forall_mem_singleton.2 ⟨hmine, hbelow⟩⟩
        increasing := List.pairwise_append.mpr ⟨h.increasing, List.pairwise_singleton _ _,
          fun d hd => List.forall_mem_singleton.2 (habove d hd)⟩
        arrived := by
          rw [h.arrived, List.append_assoc, pendingConnects_append]
          rfl
        noShutdown := by simpa using h.noShutdown }
  · exact h

theorem Serving.talk (h : Serving r w done ours) (msg : EngineMsg) :
    Serving r (act r w (.talk msg)) done ours := by
  have hmore : ∀ m : EngineMsg, pendingConnects [m] = [] → m ≠ .shutdown →
      Serving r { w with channel := w.channel ++ [m] } done ours := fun m hnone hshut =>
    { h with
      arrived := by rw [pendingConnects_append, hnone, List.append_nil, h.arrived]
      noShutdown := by simpa using ⟨h.noShutdown, hshut.symm⟩ }
  cases msg with
  | connect | shutdown => exact h
  | _ => exact hmore _ rfl nofun

/-! ### Messages -/

/-- The actor numbers one more input, in its turn. -/
theorem Serving.give (h : Serving r w done ours) {ours' : Numbering} {a : Actor} {s : Clients}
    (hchannel : w.channel = msg :: ch) (hturn : Turn ours g ours')
    (hmine : ∀ c, g.2.conn = some c → mine r.toLaunch c = true) (hseqs : a.seqs = ours'.nextSeq)
    (hup : a.isolated = false ∧ a.shutdown = false) (hholds : ∀ c, s.holds c = a.seqs.contains c)
    (harrived : w.connects = connectsOf (w.generated ++ [g]) ++ pendingConnects ch)
    (hhighest : ours'.highestLocal[node r]? =
      (connectsOf (w.generated ++ [g])).getLast?.map localOf) :
    Serving r { w with actor := a, generated := w.generated ++ [g], clients := s, channel := ch }
      done ours' :=
  { h with
    arrived := harrived
    up := hup
    noShutdown := fun hmem => h.noShutdown (hchannel ▸ List.mem_cons_of_mem _ hmem)
    committed_le := h.committed_le.trans (by
      rw [List.length_append]
      exact Nat.le_add_right _ _)
    future := by
      show Run Turn done ((w.generated ++ [g]).drop w.committed) ours'
      rw [List.drop_append_of_le_length h.committed_le]
      exact h.future.snoc hturn
    seqs := hseqs
    own := fun c n hn => by
      by_cases hc : g.2.conn = some c
      · exact hmine c hc
      · exact h.own c n (hturn.books.others hc ▸ hn)
    wf := hturn.books.wf h.wf
    highest := hhighest
    holds := hholds
    accepted := by
      show w.accepted = (w.generated ++ [g]).take w.committed
      rw [List.take_append_of_le_length h.committed_le]
      exact h.accepted }

/-- The message is no input of an open connection. -/
theorem Serving.ignored (h : Serving r w done ours) {s : Clients} (hchannel : w.channel = msg :: ch)
    (hmsg : pendingConnects [msg] = []) (hholds : ∀ c, s.holds c = w.actor.seqs.contains c) :
    Serving r { w with generated := w.generated ++ [], clients := s, channel := ch } done ours := by
  rw [List.append_nil]
  exact
    { h with
      arrived := by
        rw [h.arrived, hchannel, ← List.singleton_append, pendingConnects_append, hmsg]
        rfl
      noShutdown := fun hmem => h.noShutdown (hchannel ▸ List.mem_cons_of_mem _ hmem)
      holds := hholds }

/-- An open connection goes on. -/
theorem Serving.took (h : Serving r w done ours) {a : Actor} {s : Clients}
    (hchannel : w.channel = msg :: ch) (hmsg : pendingConnects [msg] = [])
    (hi : i.conn = some conn) (hcon : ∀ d, i ≠ .connect d)
    (hseq : w.actor.seqs[conn]? = some seq) (hseqs : a.seqs = (ours.book conn seq i).nextSeq)
    (hup : a.isolated = false ∧ a.shutdown = false)
    (hholds : ∀ c, s.holds c = a.seqs.contains c) :
    Serving r { w with
      actor := a, generated := w.generated ++ [(seq, i)], clients := s, channel := ch }
      done (ours.book conn seq i) := by
  have hnext : ours.nextSeq[conn]? = some seq := h.seqs ▸ hseq
  have hplain : connectsOf (w.generated ++ [(seq, i)]) = connectsOf w.generated ∧
      (ours.book conn seq i).highestLocal = ours.highestLocal := by
    rw [connectsOf_append]
    cases i with
    | connect d => exact absurd rfl (hcon d)
    | _ => exact ⟨List.append_nil _, rfl⟩
  refine h.give hchannel ⟨conn, hi, accepts_of_next hi hcon hnext, rfl⟩
    (fun c hc => ?_) hseqs hup hholds ?_ ?_
  · obtain rfl : conn = c := Option.some.inj (hi.symm.trans hc)
    exact h.own conn seq hnext
  · rw [hplain.1, h.arrived, hchannel, ← List.singleton_append, pendingConnects_append, hmsg]
    rfl
  · rw [hplain.1, hplain.2]
    exact h.highest

theorem Serving.pushNext (h : Serving r w done ours) (hchannel : w.channel = msg :: ch)
    (hmsg : pendingConnects [msg] = []) (hi : i.conn = some conn) (hcon : ∀ d, i ≠ .connect d)
    (hdis : ∀ d, i ≠ .disconnect d) :
    ∃ ours', Serving r
      { w with
        actor := w.actor.pushNext conn i
        generated := w.generated ++ (w.actor.seqs[conn]?.map (·, i)).toList
        channel := ch } done ours' := by
  unfold Actor.pushNext
  cases hseq : w.actor.seqs[conn]? with
  | none => exact ⟨ours, h.ignored hchannel hmsg h.holds⟩
  | some seq =>
    refine ⟨_, h.took hchannel hmsg hi hcon hseq ?_ h.up fun c => (h.holds c).trans ?_⟩
    · show w.actor.seqs.insert conn (seq + 1) = _
      rw [h.seqs]
      cases i with
      | connect d => exact absurd rfl (hcon d)
      | disconnect d => exact absurd rfl (hdis d)
      | _ => rfl
    · show w.actor.seqs.contains c = (w.actor.seqs.insert conn (seq + 1)).contains c
      rw [ExtTreeMap.contains_insert, Engine.connKey_eq]
      by_cases hc : c = conn
      · rw [hc, ExtTreeMap.contains_eq_isSome_getElem?, hseq]
        exact (Bool.or_true _).symm
      · simp [hc]

theorem remove_holds (s : Clients) (c d : ConnId) :
    (s.remove d).holds c = (s.holds c && decide (c ≠ d)) := by
  show (s.replies.erase d).contains c = _
  rw [ExtTreeSet.contains_erase, bne, Engine.connKey_eq, Bool.and_comm, decide_not]
  rfl

theorem insert_holds (s : Clients) (c d : ConnId) :
    (s.insert d).holds c = (decide (c = d) || s.holds c) := by
  show (s.replies.insert d).contains c = _
  rw [ExtTreeSet.contains_insert, Engine.connKey_eq]
  rfl

theorem Serving.disconnect (h : Serving r w done ours)
    (hchannel : w.channel = .disconnect conn :: ch) :
    ∃ ours', Serving r { w.receive r (.disconnect conn) with channel := ch } done ours' := by
  simp only [receive, Actor.onMessage, Actor.numbers]
  cases hseq : w.actor.seqs[conn]? with
  | none =>
    refine ⟨ours, h.ignored hchannel rfl fun c => ?_⟩
    rw [remove_holds, h.holds]
    by_cases hc : c = conn
    · rw [hc, ExtTreeMap.contains_eq_isSome_getElem?, hseq]
      rfl
    · rw [decide_eq_true hc, Bool.and_true]
  | some seq =>
    have hopen : w.actor.seqs.contains conn = true := TreeMap.contains_of hseq
    dsimp only
    rw [if_neg (by rw [h.not_gone hopen]; exact Bool.false_ne_true)]
    refine ⟨_, h.took hchannel rfl rfl (by simp) hseq ?_ h.up fun c => ?_⟩
    · show w.actor.seqs.erase conn = ours.nextSeq.erase conn
      rw [h.seqs]
    show (w.clients.remove conn).holds c = (w.actor.seqs.erase conn).contains c
    rw [remove_holds, h.holds, ExtTreeMap.contains_erase, bne, Engine.connKey_eq, Bool.and_comm,
      decide_not]

/-- Every `Connect` that arrives is above those before. -/
theorem Serving.connect (h : Serving r w done ours) (hchannel : w.channel = .connect conn :: ch) :
    ∃ ours', Serving r { w.receive r (.connect conn) with channel := ch } done ours' := by
  have harrived : w.connects = connectsOf w.generated ++ conn :: pendingConnects ch := by
    have hall := h.arrived
    rw [hchannel] at hall
    exact hall
  have hmine : mine r.toLaunch conn = true := (h.sent conn (by
    rw [harrived]
    exact List.mem_append_right _ List.mem_cons_self)).1
  have hown := (mine_iff.mp hmine).1
  have hadd : connectsOf (w.generated ++ [(1, .connect conn)]) = connectsOf w.generated ++ [conn] :=
    connectsOf_append _ _
  have habove : ∀ k, ours.highestLocal[ownerOf conn]? = some k → k < localOf conn := by
    intro k hk
    rw [hown] at hk
    obtain ⟨d, hd, rfl⟩ := Option.map_eq_some_iff.mp (h.highest.symm.trans hk)
    have hinc := h.increasing
    rw [harrived] at hinc
    exact (List.pairwise_append.mp hinc).2.2 d (List.mem_of_getLast? hd) conn
      List.mem_cons_self
  have hturn : Turn ours (1, .connect conn) (ours.book conn 1 (.connect conn)) :=
    ⟨conn, rfl, accepts_of_above h.wf habove, rfl⟩
  simp only [receive, Actor.onMessage, Actor.numbers, h.up.1, h.up.2, Bool.or_self,
    Bool.false_eq_true, if_false]
  refine ⟨_, h.give hchannel hturn (fun c hc => Option.some.inj hc ▸ hmine) ?_ ⟨rfl, rfl⟩ ?_ ?_ ?_⟩
  · show w.actor.seqs.insert conn 2 = ours.nextSeq.insert conn 2
    rw [h.seqs]
  · intro c
    show (w.clients.insert conn).holds c = (w.actor.seqs.insert conn 2).contains c
    rw [insert_holds, h.holds, ExtTreeMap.contains_insert, Engine.connKey_eq]
  · rw [hadd, List.append_assoc]
    exact harrived
  rw [hadd, List.getLast?_concat]
  show (ours.highestLocal.insert (ownerOf conn) (localOf conn))[node r]? = some (localOf conn)
  rw [hown]
  exact ExtTreeMap.getElem?_insert_self

theorem Serving.receive (h : Serving r w done ours) :
    ∃ ours', Serving r (act r w .receive) done ours' := by
  simp only [act]
  split
  · exact ⟨ours, h⟩
  next msg ch hchannel =>
    cases msg with
    | connect conn => exact h.connect hchannel
    | disconnect conn => exact h.disconnect hchannel
    | command conn cmd =>
      cases cmd with
      | put pri delay ttr body =>
        simp only [Front.receive, Actor.onMessage, Actor.numbers]
        split <;> exact h.pushNext hchannel rfl rfl (by simp) (by simp)
      | _ => exact h.pushNext hchannel rfl rfl (by simp) (by simp)
    | putStarted | putRejected | halfClose =>
      exact h.pushNext hchannel rfl rfl (by simp) (by simp)
    | shutdown => exact absurd (hchannel ▸ List.mem_cons_self) h.noShutdown
    | setDraining | snapshot => exact ⟨ours, h.ignored hchannel rfl h.holds⟩

/-! ### The queue and the log -/

/-- Only the queue of the actor changes. -/
structure Requeues (a a' : Actor) : Prop where
  seqs : a'.seqs = a.seqs
  isolated : a'.isolated = a.isolated
  shutdown : a'.shutdown = a.shutdown

theorem Serving.requeue (h : Serving r w done ours) {a : Actor} (ha : Requeues w.actor a)
    (sent : List (Nat × EngineInput)) (events : List (ConnId × Nat)) :
    Serving r { w with actor := a, sent, events } done ours :=
  { h with
    up := ⟨ha.isolated.trans h.up.1, ha.shutdown.trans h.up.2⟩
    seqs := ha.seqs.trans h.seqs
    holds := fun c => (h.holds c).trans (congrArg (·.contains c) ha.seqs.symm) }

theorem onStall_requeues (a : Actor) (core : Core) (n : NodeId) :
    Requeues a (a.onStall core n) := by
  unfold Actor.onStall
  split <;> exact ⟨rfl, rfl, rfl⟩

theorem onEvent_requeues (a : Actor) (core : Core) (n : NodeId) (rested : Bool) (conn : ConnId)
    (seq : Nat) : Requeues a (a.onEvent core n rested conn seq) := by
  unfold Actor.onEvent
  dsimp only
  split <;> exact ⟨rfl, rfl, rfl⟩

theorem Serving.commit (h : Serving r w done ours) (ent : LogEntry) :
    ∃ done', Serving r (act r w (.commit ent)) done' ours := by
  simp only [act]
  split
  next hdue =>
    have hguard := hdue
    simp only [due, Bool.and_eq_true, decide_eq_true_eq] at hguard
    obtain ⟨⟨⟨-, hnext⟩, -⟩, -⟩ := hguard
    obtain ⟨k, hk⟩ : ∃ k, k = (ownItems r (entryItems ent)).length := ⟨_, rfl⟩
    rw [← hk] at hnext ⊢
    have hsplit : w.generated.drop w.committed =
        ownItems r (entryItems ent) ++ w.generated.drop (w.committed + k) := by
      rw [hnext, ← List.drop_drop, List.take_append_drop]
    have hlen : w.committed + k ≤ w.generated.length := by
      have hle := congrArg List.length hnext
      rw [← hk, List.length_take, List.length_drop] at hle
      have := h.committed_le
      omega
    have hrun := h.future
    rw [hsplit] at hrun
    obtain ⟨done', hdone, hrest⟩ := hrun.split_append
    have hfollows := applyEntry_follows hdue h.mirrors hdone
    exact ⟨done',
      { h with
        committed_le := hlen
        future := hrest
        mirrors := hfollows.mirrors
        accepted := by
          show w.accepted ++ ownItems r (w.core.applyEntry r.shared ent).accepted =
            w.generated.take (w.committed + k)
          rw [hfollows.accepted, h.accepted, List.take_add, hnext] }⟩
  · exact ⟨done, h⟩

theorem Serving.act (h : Serving r w done ours) (a : FrontAct)
    (hturn : w.inTurn a = true) : ∃ done' ours', Serving r (Front.act r w a) done' ours' := by
  cases a with
  | spawn =>
    exact ⟨done, ours, { h with
      held := List.forall_mem_append.2 ⟨h.held, List.forall_mem_singleton.2 nofun⟩ }⟩
  | admission t =>
    refine ⟨done, ours, ?_⟩
    simp only [Front.act]
    split
    · exact h.set t fun c hc => nomatch hc
    · exact h
  | next t write => exact ⟨done, ours, h.next t write hturn⟩
  | register t =>
    refine ⟨done, ours, ?_⟩
    simp only [Front.act]
    split
    next conn htask =>
      have hset := h.set t (p := .registered conn) fun c hc =>
        ⟨_, List.mem_of_getElem? htask, hc⟩
      exact { hset with holds := h.holds }
    · exact h
  | send t => exact ⟨done, ours, h.send t hturn⟩
  | talk msg => exact ⟨done, ours, h.talk msg⟩
  | receive => exact ⟨done, h.receive⟩
  | pump leader =>
    exact ⟨done, ours, h.requeue (a := (w.actor.pump leader).1) ⟨rfl, rfl, rfl⟩ _ _⟩
  | rewind => exact ⟨done, ours, h.requeue (a := w.actor.rewind) ⟨rfl, rfl, rfl⟩ _ _⟩
  | stall =>
    refine ⟨done, ours, ?_⟩
    simp only [Front.act, h.no_orphans, ite_self]
    exact h.requeue (onStall_requeues ..) _ _
  | event rested =>
    refine ⟨done, ours, ?_⟩
    simp only [Front.act, h.no_orphans, ite_self]
    split
    · exact h
    · exact h.requeue (onEvent_requeues ..) _ _
  | commit ent =>
    obtain ⟨done', h'⟩ := h.commit ent
    exact ⟨done', ours, h'⟩

theorem serving_start (r : Ready) : Serving r (start r) {} {} := by
  have hlt := r.toLaunch.first_pos
  have hlog := applyLog_booked r.shared r.before (Core.fresh_ok r.shared)
  have hwf : Wf (start r).core.smMeta.toNumbering := hlog.run.books_wf (wf_fresh r.shared)
  obtain ⟨-, hids, -⟩ := ConnIdBlocks.reserve_ok r.opened
  have hempty : ∀ k : Nat, (∅ : ExtTreeMap Nat Nat)[k]? = none := fun _ => ExtTreeMap.getElem?_empty
  have hlow : ∀ k, (start r).core.smMeta.highestLocal[r.shared.nodeId]? = some k → k < r.first := by
    intro k hk
    have hlt : (start r).core.smMeta.highestLocal[r.shared.nodeId]?.getD 0 < r.first := hlt
    rwa [hk] at hlt
  exact
    { node_eq := congrArg ConnIdBlocks.node hids
      first_le := (congrArg (·.state.next) hids).ge
      held := fun p hp => nomatch hp
      sent := fun d hd => nomatch hd
      increasing := List.Pairwise.nil
      arrived := rfl
      up := ⟨rfl, rfl⟩
      noShutdown := fun hmem => nomatch hmem
      committed_le := le_rfl
      future := .nil _
      mirrors :=
        { nextSeq := fun c hc => by
            rw [hempty, Option.eq_none_iff_forall_ne_some]
            intro n hn
            obtain ⟨⟨k, hk, hle⟩, -⟩ := hwf c n hn
            have hown := mine_iff.mp hc
            rw [hown.1] at hk
            exact Nat.not_lt.mpr (hown.2.trans hle) (hlow k hk)
          high := fun k hk => by
            cases hk
          low := fun _ => hlow }
      seqs := rfl
      own := fun c n hn => by
        cases hn
      wf := fun c n hn => by
        cases hn
      highest := hempty _
      holds := fun c => ExtTreeSet.contains_empty.trans ExtTreeMap.contains_empty.symm
      accepted := rfl
      lost := rfl }

theorem serving_run (r : Ready) (acts : List FrontAct) (hturn : InTurn r (start r) acts) :
    ∃ done ours, Serving r (run r acts) done ours := by
  have hstep : ∀ (l : List FrontAct) (w : Front), (∃ done ours, Serving r w done ours) →
      InTurn r w l → ∃ done ours, Serving r (l.foldl (Front.act r) w) done ours := by
    intro l
    induction l with
    | nil => exact fun w h _ => h
    | cons a l ih =>
      rintro w ⟨done, ours, h⟩ ⟨ha, hl⟩
      exact ih _ (h.act a ha) hl
  exact hstep acts (start r) ⟨{}, {}, serving_start r⟩ hturn

instance decidableInTurn (r : Ready) : (w : Front) → (acts : List FrontAct) →
    Decidable (InTurn r w acts)
  | _, [] => .isTrue trivial
  | w, a :: acts =>
    have := decidableInTurn r (act r w a) acts
    inferInstanceAs (Decidable (w.inTurn a = true ∧ InTurn r (act r w a) acts))

end Front

/-- On a connected node whose tasks send their `Connect`s in turn, they are queued in
increasing order, none is dropped or refused, and `prune` closes no client. -/
theorem connects_served (r : Ready) (acts : List FrontAct)
    (hturn : Front.InTurn r (Front.start r) acts) :
    let w := Front.run r acts
    w.connects = connectsOf w.generated ++ pendingConnects w.channel ∧
      (w.connects.map localOf).Pairwise (· < ·) ∧
      w.accepted = w.generated.take w.committed ∧ w.lost = [] := by
  obtain ⟨done, ours, h⟩ := Front.serving_run r acts hturn
  exact ⟨h.arrived, List.pairwise_map.mpr h.increasing, h.accepted, h.lost⟩

/-- A node that starts with an empty log. -/
def firstStart : Ready where
  shared := idleNode
  before := []
  persisted := none
  unixSecs := 0
  first := 1
  numbered := rfl
  dataDir := "data"
  block := 65536
  found := none
  write := .done
  ids := ⟨1, "data/conn-ids", 65536, ⟨1, 65537⟩⟩
  file := some (contents 65537)
  opened := rfl

/-- Two tasks take the ids 1 and 2. -/
def twoAccept : List FrontAct :=
  [.spawn, .spawn, .admission 0, .admission 1, .next 0 .done, .next 1 .done, .register 0,
    .register 1]

/-- Both `Connect`s are queued, sent and applied in the order `a`, `b`; then the queue
is checked for a stall. -/
def serveBoth (a b : ConnId) : List FrontAct :=
  [.receive, .receive, .pump true,
    .commit ⟨1, .normal ⟨0, .batch [(1, .connect a), (1, .connect b)]⟩⟩, .event true, .stall]

/-- Task 0 sends first. -/
theorem both_served :
    let w := Front.run firstStart
      (twoAccept ++ [.send 0, .send 1] ++ serveBoth (connId 1 1) (connId 1 2))
    w.committed = 2 ∧ w.accepted = w.generated.take w.committed ∧ w.lost = [] := by
  have h := connects_served firstStart
    (twoAccept ++ [.send 0, .send 1] ++ serveBoth (connId 1 1) (connId 1 2)) (by decide +kernel)
  exact ⟨by decide +kernel, h.2.2.1, h.2.2.2⟩

/-- Task 1, with the higher id, sends first: the `Connect` of task 0 is in the log and
refused, and its client is closed. -/
theorem overtaken_client_closed :
    let w := Front.run firstStart
      (twoAccept ++ [.send 1, .send 0] ++ serveBoth (connId 1 2) (connId 1 1))
    w.connects.map localOf = [2, 1] ∧ w.committed = 2 ∧ w.accepted = [(1, .connect (connId 1 2))] ∧
      w.lost = [connId 1 1] := by
  decide +kernel

end Beanstalkd.Server
