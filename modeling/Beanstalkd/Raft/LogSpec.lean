import Beanstalkd.Lib.Numbered
import Beanstalkd.Raft.LogStore

/-!
# What a Raft log is

The abstract log: a purge marker and a run of entries that follows it. The
operations are openraft's, and `Issued` is how openraft uses them. `run` puts a
sequence of them through the store and the abstract log side by side; a call
that openraft would not make is skipped.

Two of the conditions are about the machine: a record's length field has 32 bits,
and the records of the live entries take less than 2^64 bytes.
-/

namespace Beanstalkd.Raft

open Numbered LogStore

variable {P : Type}

structure AbstractLog (P : Type) where
  purged : Option LogId := none
  entries : List (Ent P) := []

namespace AbstractLog

/-- The index that follows the purge marker. -/
def start (a : AbstractLog P) : Nat :=
  match a.purged with
  | none => 0
  | some p => p.index + 1

def nextIndex (a : AbstractLog P) : Nat := a.start + a.entries.length

/-- The entries of a batch that no snapshot covers yet. -/
def above (a : AbstractLog P) (es : List (Ent P)) : List (Ent P) :=
  es.filter fun e => a.start ≤ e.index

def append (a : AbstractLog P) (es : List (Ent P)) : AbstractLog P :=
  { a with entries := a.entries ++ a.above es }

def truncate (a : AbstractLog P) (since : Nat) : AbstractLog P :=
  { a with entries := a.entries.filter fun e => e.index < since }

/-- The marker never goes back. -/
def purge (a : AbstractLog P) (upto : LogId) : AbstractLog P :=
  if upto.index < a.start then a
  else { purged := some upto, entries := a.entries.filter fun e => upto.index + 1 ≤ e.index }

/-- The purge marker and the id of the last entry. -/
def state (a : AbstractLog P) : Option LogId × Option LogId :=
  (a.purged, (a.entries.getLast?.map Ent.logId).or a.purged)

end AbstractLog

/-- Whether an index is within a lower bound. -/
def LogStore.Bound.above : Bound → Nat → Bool
  | .included x, i => x ≤ i
  | .excluded x, i => x < i
  | .unbounded, _ => true

/-- Whether an index is within an upper bound. -/
def LogStore.Bound.below : Bound → Nat → Bool
  | .included x, i => i ≤ x
  | .excluded x, i => i < x
  | .unbounded, _ => true

/-- The entries of a range. -/
def AbstractLog.range (a : AbstractLog P) (lo hi : Bound) : List (Ent P) :=
  a.entries.filter fun e => lo.above e.index && hi.below e.index

/-! ## Runs -/

inductive LogOp (P : Type) where
  | append (entries : List (Ent P))
  | truncate (since : LogId)
  | purge (upto : LogId)
  /-- Close, and open again with other options. -/
  | reopen (opts : LogOptions)

namespace AbstractLog

def apply (a : AbstractLog P) : LogOp P → AbstractLog P
  | .append es => a.append es
  | .truncate since => a.truncate since.index
  | .purge upto => a.purge upto
  | .reopen _ => a

/-- Appends go on where the log ends, and only entries above the marker are
truncated. -/
def Issued (w : Wire P) (a : AbstractLog P) : LogOp P → Prop
  | .append es =>
    From Ent.index a.nextIndex (a.above es) ∧ (a.append es).nextIndex ≤ u64Max ∧
      (∀ e ∈ es, (w.entries.encode e).length < 2 ^ 32) ∧
      total w.recLen (a.append es).entries < 2 ^ 64
  | .truncate since => a.start ≤ since.index
  | .purge upto => upto.index < u64Max ∧ (w.ids.encode upto).length < 2 ^ 32
  | .reopen _ => True

instance (w : Wire P) (a : AbstractLog P) (op : LogOp P) : Decidable (a.Issued w op) :=
  match op with
  | .append _ => inferInstanceAs (Decidable (_ ∧ _ ∧ _ ∧ _))
  | .truncate _ => inferInstanceAs (Decidable (_ ≤ _))
  | .purge _ => inferInstanceAs (Decidable (_ ∧ _))
  | .reopen _ => inferInstanceAs (Decidable True)

end AbstractLog

/-- One call of the store. -/
def LogStore.exec (w : Wire P) (s : LogStore P) : LogOp P → Except String (LogStore P)
  | .append es => s.append w es
  | .truncate since => s.truncate w since.index
  | .purge upto => s.purge w upto
  | .reopen opts => openDir w opts s.dir

/-- The options a call leaves in force. -/
def LogOp.options (opts : LogOptions) : LogOp P → LogOptions
  | .reopen opts => opts
  | _ => opts

/-- The store, the log it should be, and the options it was opened with. -/
structure LogRun (P : Type) where
  store : Except String (LogStore P)
  log : AbstractLog P
  opts : LogOptions

namespace LogRun

def step (w : Wire P) (c : LogRun P) (op : LogOp P) : LogRun P :=
  if c.log.Issued w op then
    { store := c.store.bind fun s => s.exec w op
      log := c.log.apply op
      opts := op.options c.opts }
  else c

/-- A store opened on an empty directory, and then used. -/
def run (w : Wire P) (opts : LogOptions) (ops : List (LogOp P)) : LogRun P :=
  ops.foldl (step w) { store := openDir w opts { segs := [], purged := none }, log := {}, opts }

end LogRun

end Beanstalkd.Raft
