import Beanstalkd.Store.Wal
import Beanstalkd.Server.Forward

/-!
# The engine actor of a standalone server with a binlog

`crates/server/src/engine_actor.rs`: the thread that owns the engine and the log.
It handles one message or timer at a time: the engine runs, its journal is
written, and only then are its replies delivered. A failure of the log ends the
process, with the replies of that message undelivered.

Every call of the actor has one point in time, an `Instant`; the engine's clock
is derived from it. The reply channels are the set of connections they belong to,
and `delivered` is what was sent to them.
-/

open Std

namespace Beanstalkd.Server

open Store

/-- Wall-clock nanoseconds at the start, plus monotonic time since then. -/
structure Clock where
  anchor : Nanos
  start : Nanos

def Clock.now (c : Clock) (t : Nanos) : Nanos := satAdd c.anchor (t - c.start)

structure Binlog where
  log : Wal
  policy : SyncPolicy
  /-- A put reservation was made since the last `append`. -/
  reserved : Bool := false
  /-- The log's counter as of the last write. -/
  recordsWritten : Nat
  /-- When to call `sync_if_due` if no further write does it first. -/
  syncAt : Option Nanos := none

structure EngineActor where
  clock : Clock
  engine : Engine
  binlog : Binlog
  conns : ExtTreeSet ConnId := ∅
  draining : Bool := false
  delivered : List (ConnId × Response) := []

namespace EngineActor

variable (crc : Bytes → UInt32)

def new (clock : Clock) (engine : Engine) (log : Wal) (policy : SyncPolicy) : EngineActor where
  clock := clock
  engine := { engine with binlog := log.stats }
  binlog := { log, policy, recordsWritten := log.recordsWritten }

/-- The process is still running. -/
def alive (a : EngineActor) : Bool := a.binlog.log.failure.isNone

def mapEngine (a : EngineActor) (f : Engine → Engine) : EngineActor :=
  { a with engine := f a.engine }

def command (a : EngineActor) (now : Nanos) (conn : ConnId) (cmd : Command) : EngineActor :=
  match cmd with
  | .put _ _ _ body =>
    if a.draining then a.mapEngine fun e => e.handle now conn cmd
    else
      -- the connection's tube is not known here, so the longest name is reserved
      let (log, ok) := a.binlog.log.reservePut maxTubeNameLen body.length
      if !ok then
        { a with binlog := { a.binlog with log } }.mapEngine fun e =>
          e.putRejected conn .outOfMemory
      else
        { a with binlog := { a.binlog with log, reserved := true } }.mapEngine fun e =>
          e.handle now conn cmd
  | cmd => a.mapEngine fun e => e.handle now conn cmd

def applyEngineMsg (a : EngineActor) (now : Nanos) : EngineMsg → EngineActor
  | .connect conn => { a with conns := a.conns.insert conn }.mapEngine (·.connect conn)
  | .command conn cmd => a.command now conn cmd
  | .putStarted conn tooBig => a.mapEngine (·.putStarted now conn tooBig)
  | .putRejected conn why => a.mapEngine (·.putRejected conn why)
  | .halfClose conn => a.mapEngine (·.halfClose conn)
  | .disconnect conn =>
    { a.mapEngine (·.disconnect now conn) with conns := a.conns.erase conn }
  | .setDraining on => { a with draining := on }.mapEngine (·.setDraining on)
  -- answered from the engine, which stays as it is
  | .snapshot _ => a
  | .shutdown => a

/-- The log's part of `persist`: the journal is written and the log maintained. -/
def writeJournal (b : Binlog) (journal : List JournalEntry) : Binlog :=
  { b with
    reserved := false
    log := (b.log.append crc journal).andThen (·.maintain crc) }

/-- After a write under an interval policy: sync if due, and set the next deadline. -/
def noteWrite (b : Binlog) (t : Nanos) : Binlog :=
  if b.log.recordsWritten = b.recordsWritten then b
  else
    let b := { b with recordsWritten := b.log.recordsWritten }
    match b.policy with
    | .interval every => { b with log := b.log.syncIfDue t, syncAt := some (t + every) }
    | _ => b

def persist (a : EngineActor) (t : Nanos) : EngineActor :=
  let journal := a.engine.journal
  let a := { a with engine := { a.engine with journal := [] } }
  if journal.isEmpty ∧ !a.binlog.reserved then a
  else
    let binlog := writeJournal crc a.binlog journal
    if binlog.log.failure.isSome then { a with binlog }
    else
      { a with
        engine := { a.engine with binlog := binlog.log.stats }
        binlog := noteWrite binlog t }

/-- Replies go to the connections that still have a channel. -/
def deliver (a : EngineActor) : EngineActor :=
  { a with
    delivered := a.delivered ++ a.engine.out.filter fun r => a.conns.contains r.1
    engine := { a.engine with out := [] } }

/-- Tick after the engine call, write its journal, then release its replies. -/
def finish (a : EngineActor) (t : Nanos) : EngineActor :=
  let a := (a.mapEngine (·.tick (a.clock.now t))).persist crc t
  if a.alive then a.deliver else a

def clearOutbox (a : EngineActor) : EngineActor := a.mapEngine fun e => { e with out := [] }

def onMessage (a : EngineActor) (t : Nanos) (msg : EngineMsg) : EngineActor :=
  (a.clearOutbox.applyEngineMsg (a.clock.now t) msg).finish crc t

/-- The interval fsync, if its time has come. -/
def syncTimer (b : Binlog) (t : Nanos) : Binlog :=
  if b.syncAt.any (· ≤ t) then { b with syncAt := none, log := b.log.syncIfDue t } else b

def onTimer (a : EngineActor) (t : Nanos) : EngineActor :=
  { a.clearOutbox with binlog := syncTimer a.binlog t }.finish crc t

/-- What the receive call returns: a message, or a timeout. -/
inductive Wake where
  | message (msg : EngineMsg)
  | timer

def Wake.isTimer : Wake → Bool
  | .message _ => false
  | .timer => true

/-- One round of the actor's loop; after a failure there is none. -/
def wake (a : EngineActor) (t : Nanos) (ev : Wake) : EngineActor :=
  if !a.alive then a
  else
    match ev with
    | .message msg => a.onMessage crc t msg
    | .timer => a.onTimer crc t

/-- The time of the actor's next timer at the latest. -/
def nextWake (a : EngineActor) : Option Nanos :=
  let engine := a.engine.nextDeadline.map fun at_ => a.clock.start + (at_ - a.clock.anchor)
  match engine, a.binlog.syncAt with
  | some x, some y => some (min x y)
  | x, y => x.or y

end EngineActor

end Beanstalkd.Server
