import Beanstalkd.Engine.Input
import Beanstalkd.Raft.Admin

/-!
# The replicated state machine

`crates/raft/src/storage/state_machine.rs`: every node applies the committed
entries to its own engine, in log order. A connection's inputs are numbered by
the node that owns it, from 1 with `Connect`; the state machine applies an
input only if its number is the connection's next one, and a `Connect` only
above every local number of the same owner, so resends and late duplicates are
ignored.

`apply_conn` answers whether the input was applied; the model keeps the calls
made to the engine instead (`Outcome.calls`), with the number of each input that
had one: an entry is a `duplicate` when there is none.
The numbering (`Numbering`) is the part of the state that decides which inputs
are applied; the engine has no say in it, except for the connections that a
`DropNode` closes.
-/

open Std

namespace Beanstalkd.Raft

/-! ## Connection ids -/

/-- Bits of a connection id holding the owner-local number. -/
def connSeqBits : Nat := 48

/-- The cluster-unique id of connection number `n` accepted by `node`. -/
def connId (node : NodeId) (n : Nat) : ConnId := node <<< connSeqBits ||| n

def ownerOf (conn : ConnId) : NodeId := conn >>> connSeqBits

def localOf (conn : ConnId) : Nat := conn &&& (1 <<< connSeqBits - 1)

/-! ## Entries -/

inductive Op where
  | conn (seq : Nat) (input : EngineInput)
  | tick
  | setDraining (on : Bool)
  /-- The node is gone: disconnect its connections up to the number. -/
  | dropNode (node : NodeId) (upToLocal : Nat)
  | batch (items : List (Nat × EngineInput))

/-- A log entry payload; `now` is stamped by the leader. -/
structure Request where
  now : Nanos
  op : Op

inductive Payload where
  | blank
  | membership (m : Membership)
  | normal (req : Request)

structure LogEntry where
  index : Nat
  payload : Payload

/-! ## State -/

/-- Which inputs were applied: the next number of every open connection, and
the highest connection of every node. -/
structure Numbering where
  nextSeq : ExtTreeMap ConnId Nat := ∅
  highestLocal : ExtTreeMap NodeId Nat := ∅

structure SmMeta extends Numbering where
  started : Bool := false
  lastNow : Nanos := 0
  highestMember : NodeId := 0

inductive Event where
  | applied (conn : ConnId) (seq : Nat)
  | deliver (conn : ConnId) (resp : Response)
  | closed (conn : ConnId)

structure Shared where
  nodeId : NodeId
  cfg : EngineConfig
  sys : Nanos → SysSnapshot

structure Core where
  engine : Engine
  smMeta : SmMeta
  lastApplied : Option Nat

/-- One input that reached the engine; `seq` is its number, if it was a
connection's own. -/
structure Call where
  now : Nanos
  seq : Option Nat
  input : EngineInput

/-- A connection's own input, with its number. -/
def Call.numbered (call : Call) : Option (Nat × EngineInput) := call.seq.map (·, call.input)

/-- What applying did: the new state, this node's events, the engine's inputs. -/
structure Outcome where
  core : Core
  events : List Event
  calls : List Call

/-- The connection inputs that were applied, with their numbers. -/
def Outcome.accepted (o : Outcome) : List (Nat × EngineInput) := o.calls.filterMap Call.numbered

/-- Nothing is applied. -/
def Outcome.idle (c : Core) : Outcome := { core := c, events := [], calls := [] }

/-- One after the other. -/
def Outcome.andThen (o o' : Outcome) : Outcome :=
  { core := o'.core, events := o.events ++ o'.events, calls := o.calls ++ o'.calls }

/-- Only replies to the node's own connections are built. -/
def newEngine (now : Nanos) (sh : Shared) : Engine :=
  { Engine.new now sh.cfg sh.sys with
    localConns := some { nodeShift := connSeqBits, node := sh.nodeId } }

/-- The state machine of a node without a snapshot. -/
def Core.fresh (sh : Shared) : Core :=
  { engine := newEngine 0 sh, smMeta := {}, lastApplied := none }

/-! ## Numbers -/

namespace Numbering

/-- Whether the input is the next one of its connection. -/
def accepts (m : Numbering) (conn : ConnId) (seq : Nat) (input : EngineInput) : Bool :=
  match input with
  | .connect _ =>
    seq = 1 && !m.nextSeq.contains conn &&
      (m.highestLocal[ownerOf conn]?.all fun h => localOf conn > h)
  | _ => m.nextSeq[conn]? = some seq

/-- The numbering after an accepted input. The next number is not bounded here; the
source's `u64` would wrap after `2 ^ 64 - 1` inputs of one connection. -/
def book (m : Numbering) (conn : ConnId) (seq : Nat) (input : EngineInput) : Numbering :=
  match input with
  | .connect _ =>
    { m with
      highestLocal := m.highestLocal.insert (ownerOf conn) (localOf conn)
      nextSeq := m.nextSeq.insert conn 2 }
  | .disconnect _ => { m with nextSeq := m.nextSeq.erase conn }
  | _ => { m with nextSeq := m.nextSeq.insert conn (seq + 1) }

end Numbering

/-! ## Applying -/

namespace Core

/-- `route`: the replies that this node delivers. -/
def route (node : NodeId) (out : Outbox) : List Event :=
  out.filterMap fun (c, r) => if ownerOf c = node then some (.deliver c r) else none

/-- The engine runs one input; its replies are taken out of it. -/
def feed (c : Core) (node : NodeId) (now : Nanos) (seq : Option Nat) (input : EngineInput) :
    Outcome :=
  let engine := c.engine.applyInput now input
  { core := { c with engine := { engine with out := [] } }
    events := route node engine.out
    calls := [{ now, seq, input }] }

/-- Apply one connection input (`Op::Conn`, or an item of `Op::Batch`). -/
def applyConn (c : Core) (node : NodeId) (now : Nanos) (seq : Nat) (input : EngineInput) :
    Outcome :=
  match input.conn with
  | none => .idle c
  | some conn =>
    if !c.smMeta.accepts conn seq input then .idle c
    else
      let own := ownerOf conn = node
      let smMeta := { c.smMeta with toNumbering := c.smMeta.book conn seq input }
      let o := { c with smMeta }.feed node now (some seq) input
      let gone := match input with
        | .disconnect _ => if own then [Event.closed conn] else []
        | _ => []
      { o with events := (if own then [Event.applied conn seq] else []) ++ o.events ++ gone }

def applyBatch (node : NodeId) (now : Nanos) : Core → List (Nat × EngineInput) → Outcome
  | c, [] => .idle c
  | c, (seq, input) :: items =>
    let o := c.applyConn node now seq input
    o.andThen (applyBatch node now o.core items)

/-- One connection of a node that is gone. -/
def dropConn (c : Core) (sh : Shared) (n : NodeId) (now : Nanos) (conn : ConnId) : Outcome :=
  let nextSeq := c.smMeta.nextSeq.erase conn
  let o := { c with smMeta := { c.smMeta with nextSeq } }.feed sh.nodeId now none (.disconnect conn)
  { o with events := o.events ++ if n = sh.nodeId then [.closed conn] else [] }

def dropConns (sh : Shared) (n : NodeId) (now : Nanos) : Core → List ConnId → Outcome
  | c, [] => .idle c
  | c, conn :: conns =>
    let o := c.dropConn sh n now conn
    o.andThen (dropConns sh n now o.core conns)

/-- The time of an entry never goes back, and the first one starts the engine. -/
def begin (c : Core) (sh : Shared) (req : Request) : Core :=
  let now := max req.now c.smMeta.lastNow
  let smMeta := { c.smMeta with lastNow := now, started := true }
  { c with engine := if c.smMeta.started then c.engine else newEngine now sh, smMeta }

def applyRequest (c : Core) (sh : Shared) (req : Request) : Outcome :=
  let c := c.begin sh req
  let now := c.smMeta.lastNow
  match req.op with
  | .conn seq input => c.applyConn sh.nodeId now seq input
  | .batch items => applyBatch sh.nodeId now c items
  | .tick => c.feed sh.nodeId now none .tick
  | .setDraining on => c.feed sh.nodeId now none (.setDraining on)
  | .dropNode n upToLocal =>
    dropConns sh n now c
      (c.engine.conns.keys.filter fun d => ownerOf d = n && localOf d ≤ upToLocal)

/-- One entry of `apply`; an entry at or below the last applied one is skipped. -/
def applyEntry (c : Core) (sh : Shared) (ent : LogEntry) : Outcome :=
  if c.lastApplied.any fun l => ent.index ≤ l then .idle c
  else
    let o : Outcome := match ent.payload with
      | .blank => .idle c
      | .membership m =>
        let highestMember := max c.smMeta.highestMember m.highestNode
        .idle { c with smMeta := { c.smMeta with highestMember } }
      | .normal req => c.applyRequest sh req
    { o with core := { o.core with lastApplied := some ent.index } }

/-- The entries of a log, one after the other. -/
def applyLog (sh : Shared) : Core → List LogEntry → Outcome
  | c, [] => .idle c
  | c, ent :: ents =>
    let o := c.applyEntry sh ent
    o.andThen (applyLog sh o.core ents)

/-! ## What a node asks its state -/

/-- Last applied number of `conn`, or `none` if it is not open in the state. -/
def appliedSeq (c : Core) (conn : ConnId) : Option Nat := c.smMeta.nextSeq[conn]?.map (· - 1)

/-- Highest local number of `node` connected so far (0 if none). -/
def highestLocal (c : Core) (node : NodeId) : Nat := c.smMeta.highestLocal[node]?.getD 0

end Core

end Beanstalkd.Raft
