import Beanstalkd.Raft.Numbering

/-!
# What a peer can do

`crates/raft/src/forward.rs` and the forward handler of
`crates/server/src/cluster/handler.rs`: the listener knows which node is at the
other end of a connection and checks what that node asks the leader to propose.
The check looks at the connection an item claims to be of; the handler drops that
claim, and the state machine goes by the connection inside the input.

What an accepted item changes is the peer's own (`Confined`), whatever the state
and wherever the item ends up in the log. The numbering of the other owners is not
even affected by whether the peer's items are there (`applyBatch_elsewhere`).
-/

open Std

namespace Beanstalkd.Raft

/-- Items are `(conn, seq, input)`. -/
structure ForwardRequest where
  sender : NodeId
  items : List (ConnId × Nat × EngineInput)

structure ControlRequest where
  sender : NodeId
  op : Op

def checkForward (peer : NodeId) (req : ForwardRequest) : Except String Unit :=
  if req.sender ≠ peer then
    .error s!"forward from node {req.sender} on the connection of node {peer}"
  else
    match req.items.find? fun x => ownerOf x.1 ≠ peer with
    | some (conn, _, _) => .error s!"connection {conn} is not owned by node {peer}"
    | none =>
      match req.items.find? fun x => x.2.2.conn.any (· ≠ x.1) with
      | some (conn, _, _) => .error s!"an input of connection {conn} names another connection"
      | none => .ok ()

/-- `debug` is the text that `derive(Debug)` gives an operation. -/
def checkControl (debug : Op → String) (peer : NodeId) (req : ControlRequest) :
    Except String Unit :=
  if req.sender ≠ peer then
    .error s!"control request from node {req.sender} on the connection of node {peer}"
  else
    match req.op with
    | .setDraining _ => .ok ()
    | .dropNode node _ =>
      if node = peer then .ok () else .error s!"node {peer} may not drop node {node}"
    | .conn .. | .tick | .batch _ =>
      .error s!"operation {debug req.op} is not a control operation"

/-- What the forward handler submits to the proposer. -/
def ForwardRequest.submitted (req : ForwardRequest) : List (Nat × EngineInput) :=
  req.items.map fun x => (x.2.1, x.2.2)

/-- An input of no connection, or of one of `peer`'s. -/
def EngineInput.OwnedBy (peer : NodeId) (input : EngineInput) : Prop :=
  ∀ conn, input.conn = some conn → ownerOf conn = peer

/-- What the listener accepts names only the peer's own connections. -/
theorem checkForward_owned {peer : NodeId} {req : ForwardRequest}
    (h : checkForward peer req = .ok ()) {x : Nat × EngineInput} (hx : x ∈ req.submitted) :
    EngineInput.OwnedBy peer x.2 := by
  intro conn hconn
  obtain ⟨⟨claimed, seq, input⟩, hmem, rfl⟩ := List.mem_map.mp hx
  unfold checkForward at h
  split at h
  · cases h
  split at h
  · cases h
  next howner =>
    split at h
    · cases h
    next hnames =>
      have howned := List.find?_eq_none.mp howner _ hmem
      have hsame := List.find?_eq_none.mp hnames _ hmem
      simp only [ne_eq, decide_not, Bool.not_eq_eq_eq_not, Bool.not_true, decide_eq_false_iff_not,
        not_not] at howned
      simp only [hconn, Option.any_some, ne_eq, decide_not, Bool.not_eq_eq_eq_not, Bool.not_true,
        decide_eq_false_iff_not, not_not] at hsame
      rw [hsame]
      exact howned

/-! ## Numbering of other owners -/

variable {p : NodeId} {N N' : Numbering} {conn : ConnId} {seq : Nat} {input : EngineInput}

/-- Two numberings agree on the owners other than `p`. -/
structure Elsewhere (p : NodeId) (N N' : Numbering) : Prop where
  nextSeq : ∀ conn, ownerOf conn ≠ p → N'.nextSeq[conn]? = N.nextSeq[conn]?
  highestLocal : ∀ n, n ≠ p → N'.highestLocal[n]? = N.highestLocal[n]?

theorem Elsewhere.refl (p : NodeId) (N : Numbering) : Elsewhere p N N :=
  ⟨fun _ _ => rfl, fun _ _ => rfl⟩

theorem Elsewhere.trans {N'' : Numbering} (h : Elsewhere p N N') (h' : Elsewhere p N' N'') :
    Elsewhere p N N'' :=
  ⟨fun conn hne => (h'.nextSeq conn hne).trans (h.nextSeq conn hne),
    fun n hne => (h'.highestLocal n hne).trans (h.highestLocal n hne)⟩

/-- An input of `p` books nothing for the others. -/
theorem Elsewhere.book (hown : ownerOf conn = p) (N : Numbering) (seq : Nat) (input : EngineInput) :
    Elsewhere p N (N.book conn seq input) := by
  have hconn : ∀ d, ownerOf d ≠ p → conn ≠ d := fun d hd heq => hd (heq ▸ hown)
  unfold Numbering.book
  split
  · refine ⟨fun d hd => TreeMap.getElem?_insert_ne (hconn d hd) _,
      fun n hn => TreeMap.getElem?_insert_ne ?_ _⟩
    exact fun heq => hn (heq ▸ hown)
  · exact ⟨fun d hd => TreeMap.getElem?_erase_ne (hconn d hd), fun _ _ => rfl⟩
  · exact ⟨fun d hd => TreeMap.getElem?_insert_ne (hconn d hd) _, fun _ _ => rfl⟩

/-- Whether an input of another owner is accepted, and what it books, does not depend on
`p`'s numbering. -/
theorem Elsewhere.accepts (h : Elsewhere p N N') (hown : ownerOf conn ≠ p) :
    N'.accepts conn seq input = N.accepts conn seq input := by
  unfold Numbering.accepts
  split
  · rw [ExtTreeMap.contains_eq_isSome_getElem?, ExtTreeMap.contains_eq_isSome_getElem?,
      h.nextSeq conn hown, h.highestLocal _ hown]
  · rw [h.nextSeq conn hown]

theorem getElem?_insert_congr {α : Type} {m m' : ExtTreeMap Nat α} {k k' : Nat} {v : α}
    (h : m'[k']? = m[k']?) : (m'.insert k v)[k']? = (m.insert k v)[k']? := by
  rw [ExtTreeMap.getElem?_insert, ExtTreeMap.getElem?_insert, h]

theorem Elsewhere.book_both (h : Elsewhere p N N') (conn : ConnId) (seq : Nat)
    (input : EngineInput) : Elsewhere p (N.book conn seq input) (N'.book conn seq input) := by
  unfold Numbering.book
  split
  · exact ⟨fun d hd => getElem?_insert_congr (h.nextSeq d hd),
      fun n hn => getElem?_insert_congr (h.highestLocal n hn)⟩
  · refine ⟨fun d hd => ?_, h.highestLocal⟩
    rw [ExtTreeMap.getElem?_erase, ExtTreeMap.getElem?_erase, h.nextSeq d hd]
  · exact ⟨fun d hd => getElem?_insert_congr (h.nextSeq d hd), h.highestLocal⟩

/-! ## One item -/

variable {c c' : Core} {o o' : Outcome} {batch : List (NodeId × Nat × EngineInput)}

/-- What was applied is of `p`'s connections and changed nothing else but the engine's
jobs and tubes. -/
structure Confined (p : NodeId) (c : Core) (o : Outcome) : Prop where
  calls : ∀ call ∈ o.calls, ∃ conn, call.input.conn = some conn ∧ ownerOf conn = p
  numbering : Elsewhere p c.smMeta.toNumbering o.core.smMeta.toNumbering
  conns : ∀ conn, ownerOf conn ≠ p →
    o.core.engine.conns.contains conn = c.engine.conns.contains conn
  started : o.core.smMeta.started = c.smMeta.started
  lastNow : o.core.smMeta.lastNow = c.smMeta.lastNow
  highestMember : o.core.smMeta.highestMember = c.smMeta.highestMember
  lastApplied : o.core.lastApplied = c.lastApplied

theorem Confined.idle (p : NodeId) (c : Core) : Confined p c (.idle c) :=
  ⟨fun _ h => (nomatch h), .refl p _, fun _ _ => rfl, rfl, rfl, rfl, rfl⟩

theorem Confined.andThen (h : Confined p c o) (h' : Confined p o.core o') :
    Confined p c (o.andThen o') where
  calls call hcall := (List.mem_append.mp hcall).elim (h.calls call) (h'.calls call)
  numbering := h.numbering.trans h'.numbering
  conns conn hne := (h'.conns conn hne).trans (h.conns conn hne)
  started := h'.started.trans h.started
  lastNow := h'.lastNow.trans h.lastNow
  highestMember := h'.highestMember.trans h.highestMember
  lastApplied := h'.lastApplied.trans h.lastApplied

/-- An input of one connection opens or closes no other. -/
theorem applyInput_other {e : Engine} {now : Nanos} {d : ConnId} (hconn : input.conn = some conn)
    (hne : d ≠ conn) : (e.applyInput now input).conns.contains d = e.conns.contains d := by
  rw [Engine.applyInput_conns]
  cases input with
  | connect a =>
    obtain rfl : a = conn := Option.some.inj hconn
    dsimp only
    rw [decide_eq_false hne, Bool.or_false]
  | disconnect a =>
    obtain rfl : a = conn := Option.some.inj hconn
    dsimp only
    rw [decide_eq_true hne, Bool.and_true]
  | _ => rfl

theorem applyConn_confined (h : EngineInput.OwnedBy p input) (c : Core) (node : NodeId)
    (now : Nanos) (seq : Nat) : Confined p c (c.applyConn node now seq input) := by
  unfold Core.applyConn
  split
  · exact .idle p c
  next conn hconn =>
    split
    · exact .idle p c
    refine ⟨fun call hcall => ?_, .book (h conn hconn) _ seq input, fun d hd => ?_, rfl, rfl, rfl,
      rfl⟩
    · rw [List.mem_singleton.mp hcall]
      exact ⟨conn, hconn, h conn hconn⟩
    · exact applyInput_other hconn fun heq => hd (heq ▸ h conn hconn)

theorem applyBatch_confined (node : NodeId) (now : Nanos) {items : List (Nat × EngineInput)}
    (h : ∀ x ∈ items, EngineInput.OwnedBy p x.2) (c : Core) :
    Confined p c (Core.applyBatch node now c items) := by
  induction items generalizing c with
  | nil => exact .idle p c
  | cons x items ih =>
    obtain ⟨hx, hrest⟩ := List.forall_mem_cons.mp h
    exact (applyConn_confined hx c node now x.1).andThen (ih hrest _)

theorem dropConns_confined (sh : Shared) (now : Nanos) {conns : List ConnId}
    (h : ∀ conn ∈ conns, ownerOf conn = p) (c : Core) :
    Confined p c (Core.dropConns sh p now c conns) := by
  induction conns generalizing c with
  | nil => exact .idle p c
  | cons conn conns ih =>
    obtain ⟨hconn, hrest⟩ := List.forall_mem_cons.mp h
    have hone : Confined p c (c.dropConn sh p now conn) := by
      refine ⟨fun call hcall => ?_, ⟨fun d hd => ?_, fun _ _ => rfl⟩, fun d hd => ?_, rfl, rfl, rfl,
        rfl⟩
      · rw [List.mem_singleton.mp hcall]
        exact ⟨conn, rfl, hconn⟩
      · exact TreeMap.getElem?_erase_ne fun heq => hd (heq ▸ hconn)
      · exact applyInput_other rfl fun heq => hd (heq ▸ hconn)
    exact hone.andThen (ih hrest _)

/-! ## Batches of several nodes -/

/-- The engine's inputs of a batch, each with the node its item came from. -/
def attributed (node : NodeId) (now : Nanos) :
    Core → List (NodeId × Nat × EngineInput) → List (NodeId × Call)
  | _, [] => []
  | c, (peer, seq, input) :: batch =>
    let o := c.applyConn node now seq input
    o.calls.map (peer, ·) ++ attributed node now o.core batch

theorem attributed_calls (node : NodeId) (now : Nanos) (batch : List (NodeId × Nat × EngineInput))
    (c : Core) : (attributed node now c batch).map Prod.snd =
      (Core.applyBatch node now c (batch.map Prod.snd)).calls := by
  induction batch generalizing c with
  | nil => rfl
  | cons x batch ih =>
    rw [attributed, List.map_append, List.map_map, ih]
    congr 1
    exact List.map_id _

theorem attributed_owned (node : NodeId) (now : Nanos)
    (h : ∀ x ∈ batch, x.1 = p → EngineInput.OwnedBy p x.2.2) (c : Core) :
    ∀ x ∈ attributed node now c batch, x.1 = p →
      ∃ conn, x.2.input.conn = some conn ∧ ownerOf conn = p := by
  induction batch generalizing c with
  | nil => exact fun x hx => nomatch hx
  | cons y batch ih =>
    obtain ⟨peer, seq, input⟩ := y
    obtain ⟨hy, hrest⟩ := List.forall_mem_cons.mp h
    intro x hx hp
    rcases List.mem_append.mp hx with hx | hx
    · obtain ⟨call, hcall, rfl⟩ := List.mem_map.mp hx
      exact (applyConn_confined (hy hp) c node now seq).calls call hcall
    · exact ih hrest _ x hx hp

/-- An item changes the numbering of two states that agree but for `p` alike. -/
theorem applyConn_elsewhere
    (h : Elsewhere p c.smMeta.toNumbering c'.smMeta.toNumbering) (node : NodeId) (now : Nanos)
    (seq : Nat) (input : EngineInput) :
    Elsewhere p (c.applyConn node now seq input).core.smMeta.toNumbering
      (c'.applyConn node now seq input).core.smMeta.toNumbering := by
  cases hconn : input.conn with
  | none =>
    rw [Core.applyConn, Core.applyConn, hconn]
    exact h
  | some conn =>
    by_cases hown : ownerOf conn = p
    · -- an input of `p`'s may be accepted in one of them only
      have hinput : EngineInput.OwnedBy p input := fun d hd => by
        rw [hconn] at hd
        rw [← Option.some.inj hd]
        exact hown
      have hl := (applyConn_confined hinput c node now seq).numbering
      have hr := (applyConn_confined hinput c' node now seq).numbering
      exact ⟨fun d hd => (hr.nextSeq d hd).trans ((h.nextSeq d hd).trans (hl.nextSeq d hd).symm),
        fun n hn => (hr.highestLocal n hn).trans
          ((h.highestLocal n hn).trans (hl.highestLocal n hn).symm)⟩
    · rw [Core.applyConn, Core.applyConn, hconn]
      dsimp only
      rw [h.accepts hown]
      split
      · exact h
      · exact h.book_both conn seq input

/-- Without `p`'s items a batch does the same to the numbering of the others. -/
theorem applyBatch_elsewhere (node : NodeId) (now : Nanos)
    (hbatch : ∀ x ∈ batch, x.1 = p → EngineInput.OwnedBy p x.2.2)
    (h : Elsewhere p c.smMeta.toNumbering c'.smMeta.toNumbering) :
    Elsewhere p
      (Core.applyBatch node now c ((batch.filter (·.1 ≠ p)).map Prod.snd)).core.smMeta.toNumbering
      (Core.applyBatch node now c' (batch.map Prod.snd)).core.smMeta.toNumbering := by
  induction batch generalizing c c' with
  | nil => exact h
  | cons x batch ih =>
    obtain ⟨hx, hrest⟩ := List.forall_mem_cons.mp hbatch
    obtain ⟨peer, seq, input⟩ := x
    by_cases hp : peer = p
    · rw [List.filter_cons_of_neg (by simp [hp])]
      exact ih hrest (h.trans (applyConn_confined (hx hp) c' node now seq).numbering)
    · rw [List.filter_cons_of_pos (by simp [hp])]
      exact ih hrest (applyConn_elsewhere h node now seq input)

/-! ## Entries -/

/-- The operator's flag is set; beyond that the engine only sees the time. -/
structure Drains (on : Bool) (c : Core) (o : Outcome) : Prop where
  calls : o.calls = [⟨c.smMeta.lastNow, none, .setDraining on⟩]
  smMeta : o.core.smMeta = c.smMeta
  lastApplied : o.core.lastApplied = c.lastApplied
  engine : o.core.engine = { ({ c.engine with draining := on } : Engine).tick c.smMeta.lastNow with
    out := [] }
  conns : ∀ conn, o.core.engine.conns.contains conn = c.engine.conns.contains conn

theorem control_confined {debug : Op → String} {req : ControlRequest}
    (h : checkControl debug p req = .ok ()) (sh : Shared) (c : Core) (now : Nanos) :
    Confined p (c.begin sh ⟨now, req.op⟩) (c.applyRequest sh ⟨now, req.op⟩) ∨
      ∃ on, req.op = .setDraining on ∧
        Drains on (c.begin sh ⟨now, req.op⟩) (c.applyRequest sh ⟨now, req.op⟩) := by
  obtain ⟨sender, op⟩ := req
  unfold checkControl at h
  split at h
  · cases h
  cases op with
  | setDraining on =>
    refine .inr ⟨on, rfl, rfl, rfl, rfl, rfl, fun conn => ?_⟩
    exact Engine.applyInput_conns _ _ (.setDraining on) conn
  | dropNode node upToLocal =>
    dsimp only at h
    split at h
    next hnode =>
      subst hnode
      refine .inl (dropConns_confined sh _ (fun conn hconn => ?_) _)
      have hfilter := (List.mem_filter.mp hconn).2
      rw [Bool.and_eq_true, decide_eq_true_eq] at hfilter
      exact hfilter.1
    · cases h
  | conn | tick | batch => cases h

/-- **A peer acts for its own connections only.** Whatever the state: (1) an item that the
listener accepted from `p`, alone or in a batch of such items, changes nothing but what is
`p`'s; (2) so does an accepted control request, or it sets the draining flag; (3) in a
batch with items of other nodes, the engine gets from `p`'s items only inputs of `p`'s
connections, and without them the numbering of the other owners would be the same. -/
theorem peer_acts_for_itself (debug : Op → String) (p : NodeId) (sh : Shared) (c : Core)
    (now : Nanos) :
    (∀ items : List (Nat × EngineInput),
      (∀ x ∈ items, ∃ req, checkForward p req = .ok () ∧ x ∈ req.submitted) →
      Confined p (c.begin sh ⟨now, .batch items⟩) (c.applyRequest sh ⟨now, .batch items⟩) ∧
      ∀ x ∈ items, Confined p (c.begin sh ⟨now, .conn x.1 x.2⟩)
          (c.applyRequest sh ⟨now, .conn x.1 x.2⟩) ∧
        ∀ node now, Confined p c (c.applyConn node now x.1 x.2)) ∧
    (∀ req, checkControl debug p req = .ok () →
      Confined p (c.begin sh ⟨now, req.op⟩) (c.applyRequest sh ⟨now, req.op⟩) ∨
        ∃ on, req.op = .setDraining on ∧
          Drains on (c.begin sh ⟨now, req.op⟩) (c.applyRequest sh ⟨now, req.op⟩)) ∧
    ∀ batch : List (NodeId × Nat × EngineInput),
      (∀ x ∈ batch, x.1 = p → ∃ req, checkForward p req = .ok () ∧ x.2 ∈ req.submitted) →
      let entry (batch : List (NodeId × Nat × EngineInput)) : Request :=
        ⟨now, .batch (batch.map Prod.snd)⟩
      let start := c.begin sh (entry batch)
      let calls := attributed sh.nodeId start.smMeta.lastNow start batch
      calls.map Prod.snd = (c.applyRequest sh (entry batch)).calls ∧
        (∀ x ∈ calls, x.1 = p → ∃ conn, x.2.input.conn = some conn ∧ ownerOf conn = p) ∧
        Elsewhere p (c.applyRequest sh (entry (batch.filter (·.1 ≠ p)))).core.smMeta.toNumbering
          (c.applyRequest sh (entry batch)).core.smMeta.toNumbering := by
  refine ⟨fun items hitems => ?_, fun req hreq => control_confined hreq sh c now,
    fun batch hbatch => ?_⟩
  · have howned : ∀ x ∈ items, EngineInput.OwnedBy p x.2 := by
      intro x hx
      obtain ⟨req, hreq, hmem⟩ := hitems x hx
      exact checkForward_owned hreq hmem
    exact ⟨applyBatch_confined _ _ howned _, fun x hx => ⟨applyConn_confined (howned x hx) _ _ _ _,
      fun node now => applyConn_confined (howned x hx) c node now x.1⟩⟩
  · have howned : ∀ x ∈ batch, x.1 = p → EngineInput.OwnedBy p x.2.2 := by
      intro x hx hp
      obtain ⟨req, hreq, hmem⟩ := hbatch x hx hp
      exact checkForward_owned hreq hmem
    exact ⟨attributed_calls _ _ batch _, attributed_owned _ _ howned _,
      applyBatch_elsewhere _ _ howned (.refl p _)⟩

/-- Node 1, before its first entry. -/
def idleNode : Shared :=
  ⟨1, ⟨65535, 0, false⟩, fun _ => ⟨0, [], (0, 0), (0, 0), [], [], [], []⟩⟩

/-- Node 2 forwards the `Connect` of its first connection and a command of it, alone and in
a batch with the `Connect` of a connection of node 3. -/
theorem batch_forwarded :
    let c := Core.fresh idleNode
    let two : List (Nat × EngineInput) :=
      [(1, .connect (connId 2 1)), (2, .command (connId 2 1) .reserve)]
    let batch := [(2, 1, .connect (connId 2 1)), (3, 1, .connect (connId 3 1)),
      (2, 2, .command (connId 2 1) .reserve)]
    let entry (batch : List (NodeId × Nat × EngineInput)) : Request :=
      ⟨0, .batch (batch.map Prod.snd)⟩
    Confined 2 (c.begin idleNode ⟨0, .batch two⟩) (c.applyRequest idleNode ⟨0, .batch two⟩) ∧
      Elsewhere 2 (c.applyRequest idleNode (entry (batch.filter (·.1 ≠ 2)))).core.smMeta.toNumbering
        (c.applyRequest idleNode (entry batch)).core.smMeta.toNumbering := by
  intro c two batch entry
  obtain ⟨req, hok, hsub⟩ : ∃ req, checkForward 2 req = .ok () ∧ two = req.submitted :=
    ⟨⟨2, two.map fun x => (connId 2 1, x)⟩, rfl, rfl⟩
  have h := peer_acts_for_itself (fun _ => "") 2 idleNode c 0
  refine ⟨(h.1 two fun x hx => ⟨req, hok, hsub ▸ hx⟩).1,
    (h.2.2 batch fun x hx hp => ⟨req, hok, hsub ▸ ?_⟩).2.2⟩
  have hmem : x ∈ batch.filter (·.1 = 2) := List.mem_filter.mpr ⟨hx, decide_eq_true hp⟩
  exact List.mem_map_of_mem hmem

end Beanstalkd.Raft
