import Beanstalkd.Raft.StateMachine

/-!
# The forward queue

`crates/server/src/cluster/actor.rs`: a node of a cluster numbers the inputs of
its connections and sends them, in order, to the leader. An input stays queued
until this node's own state machine reports it applied; whenever something was
probably lost, the cursor goes back to the front and everything unapplied is
sent again. Before a resend, items that can no longer apply are pruned.

Times decide only when a resend, a stall check or a forward happens, so they are
left to whoever drives the actor (`Server/Cluster.lean`); the routing table of
client sockets is not part of the model.
-/

open Std

namespace Beanstalkd.Server

open Raft

/-- What connection tasks and signal handlers send to the actor. -/
inductive EngineMsg where
  | connect (conn : ConnId)
  | command (conn : ConnId) (cmd : Command)
  | putStarted (conn : ConnId) (tooBig : Bool)
  | putRejected (conn : ConnId) (why : PutRejection)
  | halfClose (conn : ConnId)
  | disconnect (conn : ConnId)
  | setDraining (on : Bool)
  | snapshot (maxTubes : Nat)
  | shutdown

/-! ## The queue -/

structure Item where
  conn : ConnId
  seq : Nat
  input : EngineInput
  size : Nat
  sends : Nat
  pass : Nat

/-- The item as it is sent. -/
def Item.key (i : Item) : Nat × EngineInput := (i.seq, i.input)

structure AppliedOutcome where
  found : Bool := false
  front : Bool := false
  /-- An item sent before it in the same pass is still unapplied. -/
  droppedBefore : Bool := false
  deriving DecidableEq

/-- The unapplied inputs of the node and the send cursor. A *pass* is one run of
the cursor from the front; every rewind starts a new one. -/
structure ForwardQueue where
  items : List Item := []
  cursor : Nat := 0
  pass : Nat := 0
  bytes : Nat := 0
  resent : Nat := 0

def maxQueueItems : Nat := 100000

def maxQueueBytes : Nat := 128 <<< 20

def maxBatchItems : Nat := 1024

def maxBatchBytes : Nat := 4 <<< 20

/-- What an input counts for: 64 bytes plus its job body, if any. -/
def itemSize : EngineInput → Nat
  | .command _ (.put _ _ _ body) => 64 + body.length
  | _ => 64

namespace ForwardQueue

def full (q : ForwardQueue) : Bool :=
  q.items.length ≥ maxQueueItems || q.bytes ≥ maxQueueBytes

def push (q : ForwardQueue) (conn : ConnId) (seq : Nat) (input : EngineInput) : ForwardQueue :=
  let size := itemSize input
  { q with
    bytes := q.bytes + size
    items := q.items ++ [{ conn, seq, input, size, sends := 0, pass := 0 }] }

def rewind (q : ForwardQueue) : ForwardQueue := { q with cursor := 0, pass := q.pass + 1 }

/-- The next unsent item, marked as sent in this pass. -/
def sendNext (q : ForwardQueue) : Option (Item × ForwardQueue) :=
  match q.items[q.cursor]? with
  | none => none
  | some item =>
    let sent := { item with sends := min (item.sends + 1) (2 ^ 32 - 1), pass := q.pass }
    some (sent,
      { q with
        resent := if item.sends > 0 then q.resent + 1 else q.resent
        items := q.items.set q.cursor sent
        cursor := q.cursor + 1 })

def peekUnsent (q : ForwardQueue) : Option Item := q.items[q.cursor]?

def position (q : ForwardQueue) (conn : ConnId) (seq : Nat) : Option Nat :=
  q.items.findIdx? fun i => i.conn = conn && i.seq = seq

/-- The state machine reports the input applied: it leaves the queue. -/
def applied (q : ForwardQueue) (conn : ConnId) (seq : Nat) : AppliedOutcome × ForwardQueue :=
  match q.position conn seq with
  | none => ({}, q)
  | some pos =>
    match q.items[pos]? with
    | none => ({}, q)
    | some item =>
      -- only an item sent exactly once is known to be applied from that pass's copy
      let droppedBefore := pos > 0 && item.sends = 1 &&
        (q.items.take pos).any fun j => j.sends > 0 && j.pass = item.pass
      ({ found := true, front := pos = 0, droppedBefore },
        { q with
          items := q.items.eraseIdx pos
          bytes := q.bytes - item.size
          cursor := if pos < q.cursor then q.cursor - 1 else q.cursor })

/-- Keeps only the items `keep` accepts; callers rewind right after. -/
def retain (q : ForwardQueue) (keep : Item → Bool) : ForwardQueue :=
  { q with
    items := q.items.filter keep
    bytes := q.bytes - ((q.items.filter fun i => !keep i).map Item.size).sum
    cursor := 0 }

/-! ## Sending -/

/-- The leader's own node hands over every unsent item. -/
def sendOne (s : ForwardQueue × List Item) : Option (ForwardQueue × List Item) :=
  s.1.sendNext.map fun (item, q) => (q, s.2 ++ [item])

def sendAll (q : ForwardQueue) : ForwardQueue × List Item :=
  Loop.loop (q.items.length - q.cursor) sendOne (q, [])

/-- Another node sends one batch, bounded but never empty. -/
def sendBatchOne (s : (ForwardQueue × List Item) × Nat) :
    Option ((ForwardQueue × List Item) × Nat) :=
  match s.1.1.peekUnsent with
  | none => none
  | some item =>
    if !s.1.2.isEmpty && (s.1.2.length ≥ maxBatchItems || s.2 + item.size > maxBatchBytes) then none
    else (sendOne s.1).map fun s' => (s', s.2 + item.size)

def sendBatch (q : ForwardQueue) : ForwardQueue × List Item :=
  (Loop.loop (q.items.length - q.cursor) sendBatchOne ((q, []), 0)).1

end ForwardQueue

/-! ## The actor -/

structure Actor where
  seqs : ExtTreeMap ConnId Nat := ∅
  queue : ForwardQueue := {}
  isolated : Bool := false
  shutdown : Bool := false

namespace Actor

def push (a : Actor) (conn : ConnId) (seq : Nat) (input : EngineInput) : Actor :=
  { a with queue := a.queue.push conn seq input }

def pushNext (a : Actor) (conn : ConnId) (input : EngineInput) : Actor :=
  match a.seqs[conn]? with
  | none => a
  | some seq => { a with seqs := a.seqs.insert conn (seq + 1) }.push conn seq input

/-- The state has settled the connection's `Connect` and has it no longer. -/
def gone (core : Core) (node : NodeId) (conn : ConnId) : Bool :=
  localOf conn ≤ core.highestLocal node && (core.appliedSeq conn).isNone

def onMessage (a : Actor) (core : Core) (node : NodeId) : EngineMsg → Actor
  | .connect conn =>
    -- nothing is queued for a connection this node cannot serve
    if a.isolated || a.shutdown then a
    else { a with seqs := a.seqs.insert conn 2 }.push conn 1 (.connect conn)
  | .command conn cmd =>
    match cmd with
    | .put .. =>
      if a.queue.full then a.pushNext conn (.putRejected conn .outOfMemory)
      else a.pushNext conn (.command conn cmd)
    | _ => a.pushNext conn (.command conn cmd)
  | .putStarted conn tooBig => a.pushNext conn (.putStarted conn tooBig)
  | .putRejected conn why => a.pushNext conn (.putRejected conn why)
  | .halfClose conn => a.pushNext conn (.halfClose conn)
  | .disconnect conn =>
    match a.seqs[conn]? with
    | none => a
    | some seq =>
      let a := { a with seqs := a.seqs.erase conn }
      if gone core node conn then a else a.push conn seq (.disconnect conn)
  | .setDraining _ | .snapshot _ => a
  | .shutdown => { a with shutdown := true }

def rewind (a : Actor) : Actor := { a with queue := a.queue.rewind }

/-- Whether an item may still be applied, as far as this node's state tells. -/
def mayApply (core : Core) (node : NodeId) (item : Item) : Bool :=
  if localOf item.conn > core.highestLocal node then true
  else
    match core.appliedSeq item.conn with
    | some a => a < item.seq
    | none => false

def prune (a : Actor) (core : Core) (node : NodeId) : Actor :=
  { a with queue := a.queue.retain (mayApply core node) }

/-- An input of this node was applied. `rested`: the last resend of this kind was
long enough ago. -/
def onEvent (a : Actor) (core : Core) (node : NodeId) (rested : Bool) (conn : ConnId)
    (seq : Nat) : Actor :=
  let (out, queue) := a.queue.applied conn seq
  let a := { a with queue }
  if out.droppedBefore && rested then (a.prune core node).rewind else a

/-- The stall check of `on_tick`, once the oldest item has waited too long. -/
def onStall (a : Actor) (core : Core) (node : NodeId) : Actor :=
  if a.queue.cursor > 0 then (a.prune core node).rewind else a

/-- `pump`: what is sent now, as the leader or to the leader. -/
def pump (a : Actor) (leader : Bool) : Actor × List Item :=
  let (queue, items) := if leader then a.queue.sendAll else a.queue.sendBatch
  ({ a with queue }, items)

end Actor

end Beanstalkd.Server
