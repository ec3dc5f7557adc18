import Beanstalkd.Lib.File

/-!
# A file with operations in the background

An asynchronous file hands a write or a seek to another thread and learns of its end when
it is polled. There is one operation at a time. A write is reported as taken when it is
handed over; a failure of it shows at a later call: the next write or flush
returns it, and waiting for a seek keeps it for the next of those (`writeErr`).

Who polls does not choose what is found: each poll is given an answer, what the other thread
has done. A write that fails may have written some of its bytes, and a seek that fails leaves
the position anywhere.
-/

open File

inductive ErrorKind where
  | invalidData
  | invalidInput
  | permissionDenied
  | unexpectedEof
  | other
  deriving DecidableEq

structure IoError where
  kind : ErrorKind
  message : String
  deriving DecidableEq

inductive Poll (α : Type) where
  | pending
  | ready (result : α)
  deriving DecidableEq

namespace AsyncFile

/-- An operation in the background. -/
inductive Task where
  | write (data : Contents)
  | seek (target : Nat)
  deriving DecidableEq

/-- How it ends; a failure is at some byte of the write, or position. -/
inductive Outcome where
  | done
  | failed (place : Nat) (e : IoError)
  deriving DecidableEq

/-- What becomes of a write when no operation is in the way. -/
inductive Start where
  | later
  | refused (e : IoError)
  /-- At most so many bytes are taken. -/
  | takes (n : Nat)
  deriving DecidableEq

/-- What a read finds when no operation is in the way. -/
inductive Read where
  | later
  | failed (e : IoError)
  /-- At most so many bytes, and at least one if there is one. -/
  | gives (n : Nat)
  deriving DecidableEq

end AsyncFile

open AsyncFile

structure AsyncFile where
  bytes : Contents
  /-- The position of the file itself. -/
  cursor : Nat
  busy : Option Task
  /-- A failed write that no call has returned. -/
  writeErr : Option IoError
  /-- The position after the last seek. -/
  pos : Nat
  deriving DecidableEq

namespace AsyncFile

/-- A file that is open at a position. -/
def ofFile (bytes : Contents) (cursor : Nat) : AsyncFile := ⟨bytes, cursor, none, none, 0⟩

/-- The bytes of a write arrive at the position. -/
def put (f : AsyncFile) (data : Contents) : AsyncFile :=
  { f with bytes := writeAt f.bytes f.cursor data, cursor := f.cursor + data.length }

/-- The operation in the background has ended. -/
def settle (f : AsyncFile) : Task → Outcome → AsyncFile × Option IoError
  | .write data, .done => ({ f.put data with busy := none }, none)
  | .write data, .failed k e => ({ f.put (data.take k) with busy := none }, some e)
  | .seek target, .done => ({ f with cursor := target, busy := none }, none)
  | .seek _, .failed place e => ({ f with cursor := place, busy := none }, some e)

/-- A write with nothing in the way. -/
def begin (f : AsyncFile) (src : Contents) : Start → AsyncFile × Poll (Except IoError Nat)
  | .later => (f, .pending)
  | .refused e => (f, .ready (.error e))
  | .takes n => ({ f with busy := some (.write (src.take n)) }, .ready (.ok (src.take n).length))

def pollWrite (f : AsyncFile) (src : Contents) (answer : Option Outcome) (start : Start) :
    AsyncFile × Poll (Except IoError Nat) :=
  match f.writeErr with
  | some e => ({ f with writeErr := none }, .ready (.error e))
  | none =>
    match f.busy, answer with
    | none, _ => f.begin src start
    | some _, none => (f, .pending)
    | some (.write data), some o =>
      match f.settle (.write data) o with
      | (f, some e) => (f, .ready (.error e))
      | (f, none) => f.begin src start
    -- how a seek ended does not matter to a write
    | some (.seek target), some o => (f.settle (.seek target) o).1.begin src start

/-- A read with nothing in the way. -/
def fetch (f : AsyncFile) (want : Nat) : Read → AsyncFile × Poll (Except IoError Contents)
  | .later => (f, .pending)
  | .failed e => (f, .ready (.error e))
  | .gives n =>
    let data := (f.bytes.drop f.cursor).take (min want (max n 1))
    ({ f with cursor := f.cursor + data.length }, .ready (.ok data))

/-- How an earlier operation ended does not matter to a read; the failure of a write is
kept. -/
def pollRead (f : AsyncFile) (want : Nat) (answer : Option Outcome) (read : Read) :
    AsyncFile × Poll (Except IoError Contents) :=
  match f.busy, answer with
  | none, _ => f.fetch want read
  | some _, none => (f, .pending)
  | some (.write data), some o =>
    match f.settle (.write data) o with
    | (f, some e) => ({ f with writeErr := some e }).fetch want read
    | (f, none) => f.fetch want read
  | some (.seek target), some o => (f.settle (.seek target) o).1.fetch want read

def pollFlush (f : AsyncFile) (answer : Option Outcome) : AsyncFile × Poll (Except IoError Unit) :=
  match f.writeErr with
  | some e => ({ f with writeErr := none }, .ready (.error e))
  | none =>
    match f.busy, answer with
    | none, _ => (f, .ready (.ok ()))
    | some _, none => (f, .pending)
    | some (.write data), some o =>
      match f.settle (.write data) o with
      | (f, some e) => (f, .ready (.error e))
      | (f, none) => (f, .ready (.ok ()))
    | some (.seek target), some o => ((f.settle (.seek target) o).1, .ready (.ok ()))

/-- Only one operation at a time; the system may have its own reason to refuse. -/
def startSeek (f : AsyncFile) (target : Nat) (refused : Option IoError) :
    AsyncFile × Except IoError Unit :=
  if f.busy.isSome then
    (f, .error ⟨.other,
      "other file operation is pending, call poll_complete before start_seek"⟩)
  else
    match refused with
    | some e => (f, .error e)
    | none => ({ f with busy := some (.seek target) }, .ok ())

/-- Waits for the operation in the background. The failure of a write is kept. -/
def pollComplete (f : AsyncFile) (answer : Option Outcome) :
    AsyncFile × Poll (Except IoError Nat) :=
  match f.busy, answer with
  | none, _ => (f, .ready (.ok f.pos))
  | some _, none => (f, .pending)
  | some (.write data), some o =>
    match f.settle (.write data) o with
    | (f, some e) => ({ f with writeErr := some e }, .ready (.ok f.pos))
    | (f, none) => (f, .ready (.ok f.pos))
  | some (.seek target), some o =>
    match f.settle (.seek target) o with
    | (f, some e) => (f, .ready (.error e))
    | (f, none) => ({ f with pos := target }, .ready (.ok target))

/-! ## What a poll finds -/

section Polls

variable {f : AsyncFile} {data src : Contents} {e : IoError} {answer : Option Outcome}
  {start : Start}

theorem pollFlush_of_writeErr (h : f.writeErr = some e) :
    f.pollFlush answer = ({ f with writeErr := none }, .ready (.error e)) := by
  unfold pollFlush
  rw [h]

theorem pollFlush_of_idle (he : f.writeErr = none) (h : f.busy = none) :
    f.pollFlush answer = (f, .ready (.ok ())) := by
  unfold pollFlush
  rw [he, h]

theorem pollFlush_of_write (he : f.writeErr = none) (h : f.busy = some (.write data)) :
    f.pollFlush answer =
      match answer with
      | none => (f, .pending)
      | some .done => ({ f.put data with busy := none }, .ready (.ok ()))
      | some (.failed k e) => ({ f.put (data.take k) with busy := none }, .ready (.error e)) := by
  unfold pollFlush
  rw [he, h]
  cases answer with
  | none => rfl
  | some o => cases o <;> rfl

theorem pollWrite_of_writeErr (h : f.writeErr = some e) :
    f.pollWrite src answer start = ({ f with writeErr := none }, .ready (.error e)) := by
  unfold pollWrite
  rw [h]

theorem pollWrite_of_idle (he : f.writeErr = none) (h : f.busy = none) :
    f.pollWrite src answer start = f.begin src start := by
  unfold pollWrite
  rw [he, h]

theorem pollRead_of_idle {want : Nat} {read : Read} (h : f.busy = none) :
    f.pollRead want answer read = f.fetch want read := by
  unfold pollRead
  rw [h]

theorem startSeek_of_idle {target : Nat} {refused : Option IoError} (h : f.busy = none) :
    f.startSeek target refused =
      match refused with
      | some e => (f, .error e)
      | none => ({ f with busy := some (.seek target) }, .ok ()) := by
  unfold startSeek
  rw [h]
  rfl

theorem pollComplete_of_idle (h : f.busy = none) :
    f.pollComplete answer = (f, .ready (.ok f.pos)) := by
  unfold pollComplete
  rw [h]

theorem pollComplete_of_write {o : Outcome} (h : f.busy = some (.write data)) :
    f.pollComplete (some o) =
      match o with
      | .done => ({ f.put data with busy := none }, .ready (.ok f.pos))
      | .failed k e =>
        ({ f.put (data.take k) with busy := none, writeErr := some e }, .ready (.ok f.pos)) := by
  unfold pollComplete
  rw [h]
  cases o <;> rfl

theorem pollComplete_of_seek {o : Outcome} {target : Nat} (h : f.busy = some (.seek target)) :
    f.pollComplete (some o) =
      match o with
      | .done => ({ f with cursor := target, busy := none, pos := target }, .ready (.ok target))
      | .failed place e => ({ f with cursor := place, busy := none }, .ready (.error e)) := by
  unfold pollComplete
  rw [h]
  cases o <;> rfl

end Polls

end AsyncFile
