import Beanstalkd.Lib.AsyncFile
import Beanstalkd.Proto.Types

/-!
# A snapshot being received or sent

`crates/raft/src/snapshot_file.rs`: openraft's `SnapshotData` is a window
`[base, base + len)` of a file; positions are relative to the window. A receiver is
written chunk by chunk, each write waiting until the file has taken it; a reader checks
the file's checksum as the payload is read.

The file is tokio's `File`, asynchronous (`AsyncFile`), so each poll takes the answers it
finds. What is assumed of it is what the source's comments state: a write is performed in
the background and its failure reported on a later call (`poll_write`), and the position is
tracked from 0, whatever that of the file it wraps (`seeking`).
A `u64` position plus a length that overflows is above every maximum, so the sum is
compared as it is.
-/

namespace Beanstalkd.Raft

open File

/-- The checksum so far, what follows the payload in it, and what it has to be. -/
structure CrcCheck where
  crc : UInt32
  suffix : Bytes
  expect : UInt32
  deriving DecidableEq

structure SnapshotFile where
  file : AsyncFile
  base : Nat
  /-- Payload bytes present. -/
  len : Nat
  pos : Nat
  /-- Largest length a receiver may reach; `none` for a complete snapshot. -/
  max : Option Nat
  temp : Option String
  check : Option CrcCheck
  /-- Payload bytes covered by `check.crc`. -/
  checked : Nat
  /-- The checksum did not match. -/
  damaged : Bool
  /-- Bytes of a write handed to the file and not yet confirmed. -/
  inflight : Option Nat
  /-- Writes fail until a seek succeeds. -/
  broken : Bool
  /-- A seek started by `start_seek` is pending. -/
  seeking : Bool
  deriving DecidableEq

inductive SeekFrom where
  | start (n : Nat)
  | fromEnd (n : Int)
  | current (n : Int)
  deriving DecidableEq

def invalid (message : String) : IoError := ⟨.invalidData, message⟩

def ioOther (message : String) : IoError := ⟨.other, message⟩

namespace SnapshotFile

def receiver (bytes : Bytes) (temp : String) (base max : Nat) : SnapshotFile where
  file := .ofFile bytes base
  base := base
  len := 0
  pos := 0
  max := some max
  temp := some temp
  check := none
  checked := 0
  damaged := false
  inflight := none
  broken := false
  seeking := false

/-- The payload of a complete snapshot. -/
def reader (bytes : Bytes) (base len : Nat) (check : Option CrcCheck) : SnapshotFile where
  file := .ofFile bytes base
  base := base
  len := len
  pos := 0
  max := none
  temp := none
  check := check
  checked := 0
  damaged := false
  inflight := none
  broken := false
  seeking := false

/-! ## Reading -/

/-- The checksum of what is read in order; `append` is `crc32c_append`. -/
def verify (append : UInt32 → Bytes → UInt32) (s : SnapshotFile) (start : Nat) (bytes : Bytes) :
    SnapshotFile × Except IoError Unit :=
  match s.check with
  | none => (s, .ok ())
  | some c =>
    if s.damaged then (s, .error (invalid "snapshot file checksum mismatch"))
    else if start > s.checked then
      -- openraft never skips; if it did, the rest could not be checked
      ({ s with check := none }, .ok ())
    else
      let stop := start + bytes.length
      if stop > s.checked then
        let c := { c with crc := append c.crc (bytes.drop (s.checked - start)) }
        let s := { s with check := some c, checked := stop }
        if stop = s.len ∧ append c.crc c.suffix ≠ c.expect then
          ({ s with damaged := true }, .error (invalid "snapshot file checksum mismatch"))
        else (s, .ok ())
      else (s, .ok ())

/-- `poll_read` into a buffer with so many bytes left; what is read is returned. -/
def pollRead (append : UInt32 → Bytes → UInt32) (s : SnapshotFile) (remaining : Nat)
    (task : Option AsyncFile.Outcome) (read : AsyncFile.Read) :
    SnapshotFile × Poll (Except IoError Bytes) :=
  let rest := s.len - s.pos
  if rest = 0 ∨ remaining = 0 then (s, .ready (.ok []))
  else
    let start := s.pos
    -- never past the window: the bytes after the payload must stay out
    let want := min remaining rest
    match s.file.pollRead want task read with
    | (file, .pending) => ({ s with file }, .pending)
    | (file, .ready (.error e)) => ({ s with file }, .ready (.error e))
    | (file, .ready (.ok data)) =>
      let s := { s with file }
      if data.length = 0 then
        (s, .ready (.error ⟨.unexpectedEof, "snapshot file is shorter than its payload"⟩))
      else
        match s.verify append start data with
        | (s, .error e) => (s, .ready (.error e))
        | (s, .ok _) => ({ s with pos := s.pos + data.length }, .ready (.ok data))

/-! ## Writing -/

/-- What a poll of a write finds. -/
structure Answers where
  task : Option AsyncFile.Outcome
  start : AsyncFile.Start
  flush : Option AsyncFile.Outcome
  deriving DecidableEq

/-- The second half of `poll_write`: the write of `n` bytes is with the file. -/
def confirm (s : SnapshotFile) (n : Nat) (flush : Option AsyncFile.Outcome) :
    SnapshotFile × Poll (Except IoError Nat) :=
  match s.file.pollFlush flush with
  | (file, .pending) => ({ s with file }, .pending)
  | (file, .ready (.error e)) => ({ s with file, inflight := none }, .ready (.error e))
  | (file, .ready (.ok _)) =>
    ({ s with file, inflight := none, broken := false, pos := s.pos + n, len := s.pos + n },
      .ready (.ok n))

def pollWrite (s : SnapshotFile) (buf : Bytes) (a : Answers) :
    SnapshotFile × Poll (Except IoError Nat) :=
  match s.max with
  | none => (s, .ready (.error ⟨.permissionDenied, "a complete snapshot cannot be written"⟩))
  | some max =>
    if s.pos + buf.length > max then
      (s, .ready (.error (invalid s!"snapshot exceeds the maximum of {max} bytes")))
    else
      match s.inflight with
      | some n => s.confirm n a.flush
      | none =>
        if s.broken then
          (s, .ready (.error (ioOther "snapshot write after a failed write (seek to resume)")))
        else
          -- the bytes from the write position on are not kept
          let s := { s with len := s.pos }
          match s.file.pollWrite buf a.task a.start with
          | (file, .pending) => ({ s with file }, .pending)
          | (file, .ready (.error e)) => ({ s with file, broken := true }, .ready (.error e))
          | (file, .ready (.ok n)) =>
            ({ s with file, broken := true, inflight := some n }).confirm n a.flush

/-- A write that is polled until it is ready, or dropped when the answers end. -/
def write (s : SnapshotFile) (buf : Bytes) :
    List Answers → SnapshotFile × Option (Except IoError Nat)
  | [] => (s, none)
  | a :: as =>
    match s.pollWrite buf a with
    | (s, .ready r) => (s, some r)
    | (s, .pending) => s.write buf as

/-! ## Seeking -/

/-- Where a seek leads, in the window. -/
def target (s : SnapshotFile) : SeekFrom → Int
  | .start n => n
  | .fromEnd n => s.len + n
  | .current n => s.pos + n

def startSeek (s : SnapshotFile) (pos : SeekFrom) (refused : Option IoError) :
    SnapshotFile × Except IoError Unit :=
  let len : Int := s.len
  let target := s.target pos
  if ¬ (0 ≤ target ∧ target ≤ len) then
    (s, .error ⟨.invalidInput, s!"snapshot seek to {target} outside the {len} bytes present " ++
      "(chunks must not leave a gap)"⟩)
  else
    let s := { s with inflight := none }
    match s.file.startSeek (s.base + target.toNat) refused with
    | (file, .error e) => ({ s with file }, .error e)
    | (file, .ok _) => ({ s with file, seeking := true }, .ok ())

def pollComplete (s : SnapshotFile) (answer : Option AsyncFile.Outcome) :
    SnapshotFile × Poll (Except IoError Nat) :=
  match s.file.pollComplete answer with
  | (file, .pending) => ({ s with file }, .pending)
  | (file, .ready (.error e)) =>
    ({ s with file, seeking := false, broken := true }, .ready (.error e))
  | (file, .ready (.ok phys)) =>
    let seeking := s.seeking
    let s := { s with file, seeking := false }
    if seeking then
      if phys < s.base then
        (s, .ready (.error (ioOther "snapshot file positioned before its payload")))
      else
        let s := { s with pos := phys - s.base, broken := false }
        (s, .ready (.ok s.pos))
    else (s, .ready (.ok s.pos))

/-- `AsyncSeekExt::seek`: what is under way is waited for, then the seek is started and
waited for. A poll that is pending changes nothing, so only the answers that end the waiting
are given. -/
def seek (s : SnapshotFile) (pos : SeekFrom) (first second : AsyncFile.Outcome)
    (refused : Option IoError) : SnapshotFile × Poll (Except IoError Nat) :=
  match s.pollComplete (some first) with
  | (s, .ready (.ok _)) =>
    match s.startSeek pos refused with
    | (s, .error e) => (s, .ready (.error e))
    | (s, .ok _) => s.pollComplete (some second)
  | other => other

/-! ## The received payload -/

/-- What `into_payload` gives. -/
structure Payload where
  file : Bytes
  temp : Option String
  base : Nat
  len : Nat
  deriving DecidableEq

def intoPayload (s : SnapshotFile) (answer : Option AsyncFile.Outcome) :
    Poll (Except IoError Payload) :=
  let temp := if s.max.isSome then s.temp else none
  match s.file.pollFlush answer with
  | (_, .pending) => .pending
  | (_, .ready (.error e)) => .ready (.error e)
  | (file, .ready (.ok _)) =>
    if s.broken then .ready (.error (ioOther "snapshot file holds a failed write"))
    else .ready (.ok { file := file.bytes, temp, base := s.base, len := s.len })

end SnapshotFile

end Beanstalkd.Raft
