import Mathlib.Algebra.Ring.Nat
import Beanstalkd.Lib.TreeMap

/-!
# The protocol's value types

`crates/proto/src/lib.rs`: tube names, commands, replies and put rejections.
They are the vocabulary shared by the engine and the codec, so they stand on
their own.

Bytes are `List UInt8`. A tube name is a byte string that passes
`validate_tube_name`; the Rust type keeps its string private for the same
reason the structure below carries the proof. Ids and times are natural
numbers: a job id, a connection id and a number of nanoseconds are `u64`
values, and where the width matters (`saturating_add`, a wrapping `+= 1`) the
function that does the arithmetic says so.
-/

open Std

namespace Beanstalkd

abbrev Bytes := List UInt8

abbrev JobId := Nat

/-- Assigned by the caller; never reused within a process. -/
abbrev ConnId := Nat

/-- Monotonic time in nanoseconds, supplied by the caller. -/
abbrev Nanos := Nat

def u64Max : Nat := 2 ^ 64 - 1

/-- `u64::saturating_add`. -/
def satAdd (a b : Nat) : Nat := min (a + b) u64Max

/-- `+= 1` on a `u32` counter (release profile: wraps). -/
def inc32 (n : Nat) : Nat := (n + 1) % 2 ^ 32

/-- `+= 1` on a `u64` counter (release profile: wraps). -/
def inc64 (n : Nat) : Nat := (n + 1) % 2 ^ 64

def nanosPerSec : Nanos := 1000000000

/-- Jobs with a priority below this count as urgent in the statistics. -/
def urgentThreshold : Nat := 1024

def maxTubeNameLen : Nat := 200

/-- The bytes of an ASCII literal. -/
def ascii (s : String) : Bytes := s.toList.map fun c => c.toNat.toUInt8

/-! ## Tube names -/

/-- `NAME_CHARS` in prot.c. -/
def isNameChar (b : UInt8) : Bool :=
  (48 ≤ b && b ≤ 57) || (65 ≤ b && b ≤ 90) || (97 ≤ b && b ≤ 122) ||
    (ascii "-+/;.$_()").contains b

/-- `is_valid_tube(name, MAX_TUBE_NAME_LEN - 1)`. -/
def validateTubeName (name : Bytes) : Bool :=
  !name.isEmpty && name.length ≤ maxTubeNameLen && name.head? != some 45 && name.all isNameChar

structure TubeName where
  bytes : Bytes
  valid : validateTubeName bytes = true
  deriving DecidableEq

namespace TubeName

/-- `None` if the bytes are not a valid name. -/
def new (name : Bytes) : Option TubeName :=
  if h : validateTubeName name = true then some ⟨name, h⟩ else none

theorem new_bytes (t : TubeName) : new t.bytes = some t := by rw [new, dif_pos t.valid]

/-- The tube every connection starts with. -/
def defaultTube : TubeName := ⟨ascii "default", by decide⟩

theorem ext_bytes {a b : TubeName} (h : a.bytes = b.bytes) : a = b := by
  cases a; cases b; cases h; rfl

/-- Names are ordered by their bytes. -/
instance : Ord TubeName := ⟨fun a b => compare a.bytes b.bytes⟩

instance : TransOrd TubeName where
  eq_swap {a b} := OrientedOrd.eq_swap (a := a.bytes) (b := b.bytes)
  isLE_trans {a b c} := TransOrd.isLE_trans (a := a.bytes) (b := b.bytes) (c := c.bytes)

instance : LawfulEqOrd TubeName where
  compare_self {a} := ReflOrd.compare_self (a := a.bytes)
  eq_of_compare h := ext_bytes (LawfulEqOrd.eq_of_compare h)

end TubeName

/-! ## Commands, rejections, replies -/

/-- A decoded client command. Durations are whole seconds as sent; the engine
bumps a `ttr` of 0 to 1. -/
inductive Command where
  | put (pri delay ttr : Nat) (body : Bytes)
  | use (tube : TubeName)
  | reserve
  | reserveWithTimeout (timeout : Nat)
  | reserveJob (id : JobId)
  | delete (id : JobId)
  | release (id : JobId) (pri delay : Nat)
  | bury (id : JobId) (pri : Nat)
  | touch (id : JobId)
  | watch (tube : TubeName)
  | ignore (tube : TubeName)
  | peek (id : JobId)
  | peekReady
  | peekDelayed
  | peekBuried
  | kick (n : Nat)
  | kickJob (id : JobId)
  | statsJob (id : JobId)
  | statsTube (tube : TubeName)
  | stats
  | listTubes
  | listTubeUsed
  | listTubesWatched
  | quit
  | pauseTube (tube : TubeName) (delay : Nat)
  /-- `pause-tube` whose name failed validation after the command was counted. -/
  | pauseTubeBadName
  deriving DecidableEq

/-- A server reply. -/
inductive Response where
  | inserted (id : JobId)
  | buriedId (id : JobId)
  | buried
  | using (tube : TubeName)
  | reserved (id : JobId) (body : Bytes)
  | found (id : JobId) (body : Bytes)
  | watching (count : Nat)
  | kicked (count : Nat)
  | kickedJob
  | ok (data : Bytes)
  | deadlineSoon
  | timedOut
  | deleted
  | released
  | touched
  | notFound
  | notIgnored
  | paused
  | expectedCrlf
  | jobTooBig
  | draining
  | outOfMemory
  | internalError
  | badFormat
  | unknownCommand
  | authenticated
  | unauthorized
  deriving DecidableEq

/-- Why a `put` was rejected. The first three come from the codec,
`outOfMemory` from the server when binlog space cannot be reserved. -/
inductive PutRejection where
  | jobTooBig
  | trailingGarbage
  | expectedCrlf
  | outOfMemory
  deriving DecidableEq

def PutRejection.response : PutRejection → Response
  | jobTooBig => .jobTooBig
  | trailingGarbage => .badFormat
  | expectedCrlf => .expectedCrlf
  | outOfMemory => .outOfMemory

/-- Replies produced by a call, in delivery order. -/
abbrev Outbox := List (ConnId × Response)

end Beanstalkd
