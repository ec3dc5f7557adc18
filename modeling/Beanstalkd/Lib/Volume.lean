import Mathlib.Logic.Function.Basic
import Beanstalkd.Lib.File

/-!
# A directory and its files on a disk

A file has its contents at its last `fdatasync` and its contents now (`Content`), and
the directory has its entries at the last `fsync` and the list of changes since (`Vol`).
A process sees all that was done, and a process crash keeps it.

The names are of two kinds: files that are written in place (`κ`), and values that are
replaced as a whole by renaming a synced file over them (`ν`).
-/

namespace Volume

open File

/-! ## Files -/

/-- A file's contents at its last sync, and now. -/
structure Content where
  synced : Contents := []
  now : Contents := []

/-! ## The directory -/

variable {κ ν : Type}

/-- A change of the directory. -/
inductive DirOp (κ ν : Type) where
  | create (n : κ)
  | remove (n : κ)
  /-- A synced file with these contents is renamed over `n`. -/
  | replace (n : ν) (data : Contents)
  deriving DecidableEq

structure Listing (κ ν : Type) where
  names : List κ
  values : ν → Option Contents

def DirOp.apply [DecidableEq κ] [DecidableEq ν] (l : Listing κ ν) : DirOp κ ν → Listing κ ν
  | .create n => { l with names := l.names ++ [n] }
  | .remove n => { l with names := l.names.erase n }
  | .replace n data => { l with values := Function.update l.values n (some data) }

/-- A directory with its files: the entries at the last sync, and what was done to them
since. -/
structure Vol (κ ν : Type) where
  files : κ → Content
  durable : Listing κ ν
  pending : List (DirOp κ ν)

/-- A directory with nothing in it. -/
def Vol.empty : Vol κ ν :=
  { files := fun _ => {}, durable := { names := [], values := fun _ => none }, pending := [] }

/-! ## Operations -/

inductive Op (κ ν : Type) where
  | create (n : κ)
  | remove (n : κ)
  | replace (n : ν) (data : Contents)
  | write (n : κ) (off : Nat) (data : Contents)
  | setLen (n : κ) (len : Nat)
  /-- `fdatasync` -/
  | sync (n : κ)
  /-- `fsync` of the directory -/
  | syncDir
  deriving DecidableEq

namespace Vol

variable [DecidableEq κ] [DecidableEq ν]

/-- The directory as a process sees it. -/
def listing (v : Vol κ ν) : Listing κ ν := v.pending.foldl DirOp.apply v.durable

/-- The contents of a file change, unsynced. -/
def modify (v : Vol κ ν) (n : κ) (f : Contents → Contents) : Vol κ ν :=
  { v with files := Function.update v.files n { v.files n with now := f (v.files n).now } }

def perform (v : Vol κ ν) : Op κ ν → Vol κ ν
  | .create n =>
    { v with files := Function.update v.files n {}, pending := v.pending ++ [.create n] }
  | .remove n => { v with pending := v.pending ++ [.remove n] }
  | .replace n data => { v with pending := v.pending ++ [.replace n data] }
  | .write n off data => v.modify n (writeAt · off data)
  | .setLen n len => v.modify n (File.setLen · len)
  | .sync n =>
    { v with files := Function.update v.files n { v.files n with synced := (v.files n).now } }
  | .syncDir => { v with durable := v.listing, pending := [] }

theorem listing_create (v : Vol κ ν) (n : κ) :
    (v.perform (.create n)).listing = DirOp.apply v.listing (.create n) := by
  simp [listing, perform, List.foldl_append]

theorem listing_remove (v : Vol κ ν) (n : κ) :
    (v.perform (.remove n)).listing = DirOp.apply v.listing (.remove n) := by
  simp [listing, perform, List.foldl_append]

theorem listing_replace (v : Vol κ ν) (n : ν) (data : Contents) :
    (v.perform (.replace n data)).listing = DirOp.apply v.listing (.replace n data) := by
  simp [listing, perform, List.foldl_append]

end Vol

/-! ## Crashes between operations -/

/-- What a crash can let through of an operation: the first `len` bytes of a write. -/
def Op.begun (len : Nat) : Op κ ν → Option (Op κ ν)
  | .write n off data => some (.write n off (data.take len))
  | _ => none

/-- What a crash leaves of some operations: the first `k` of them, and of a write that
comes next its first `len` bytes. -/
def interrupted (ops : List (Op κ ν)) (k len : Nat) : List (Op κ ν) :=
  ops.take k ++ ((ops[k]?).bind (Op.begun len)).toList

namespace Vol

variable [DecidableEq κ] [DecidableEq ν]

def performAll (v : Vol κ ν) (ops : List (Op κ ν)) : Vol κ ν := ops.foldl perform v

/-- Wherever a crash interrupts the operations the volume is safe, and after the last
one it is as wanted. -/
def Through (safe post : Vol κ ν → Prop) : List (Op κ ν) → Vol κ ν → Prop
  | [], v => post v
  | op :: ops, v =>
    safe v ∧ (∀ len, ∀ part ∈ op.begun len, safe (v.perform part)) ∧
      Through safe post ops (v.perform op)

namespace Through

variable {safe mid post : Vol κ ν → Prop} {xs ys : List (Op κ ν)} {v : Vol κ ν}

/-- An operation that is done as a whole or not at all. -/
theorem cons {op : Op κ ν} (hop : ∀ len, op.begun len = none) (hsafe : safe v)
    (h : Through safe post xs (v.perform op)) : Through safe post (op :: xs) v := by
  refine ⟨hsafe, ?_, h⟩
  intro len part hpart
  rw [hop len] at hpart
  cases hpart

theorem append (h : Through safe mid xs v) (hmid : ∀ u, mid u → Through safe post ys u) :
    Through safe post (xs ++ ys) v := by
  induction xs generalizing v with
  | nil => exact hmid v h
  | cons op xs ih => exact ⟨h.1, h.2.1, ih h.2.2⟩

theorem done (h : Through safe post xs v) : post (v.performAll xs) := by
  induction xs generalizing v with
  | nil => exact h
  | cons op xs ih => exact ih h.2.2

theorem interrupted (h : Through safe post xs v) (hpost : ∀ u, post u → safe u) (k len : Nat) :
    safe (v.performAll (interrupted xs k len)) := by
  induction xs generalizing v k with
  | nil =>
    have hnil : Volume.interrupted ([] : List (Op κ ν)) k len = [] := by simp [Volume.interrupted]
    rw [hnil]
    exact hpost v h
  | cons op xs ih =>
    cases k with
    | zero =>
      cases hbegun : op.begun len with
      | none =>
        have hnone : Volume.interrupted (op :: xs) 0 len = [] := by
          simp [Volume.interrupted, hbegun]
        rw [hnone]
        exact h.1
      | some part =>
        have hsome : Volume.interrupted (op :: xs) 0 len = [part] := by
          simp [Volume.interrupted, hbegun]
        rw [hsome]
        exact h.2.1 len part hbegun
    | succ k =>
      exact ih h.2.2 k

end Through

end Vol

end Volume
