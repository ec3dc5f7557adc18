import Beanstalkd.Store.Format

/-!
# Scanning a binlog directory

`crates/store/src/replay.rs`. The segment files are read in the order of their
numbers, each until the first position that is not a valid record, and the
records are replayed: the last one of a job wins. A torn segment is accepted
only if no later one holds a record.

A directory is the segment files by number. How the names `binlog.N` and the
numbers correspond is left out.
-/

open Std

namespace Beanstalkd.Store

open File

/-- The segment files of a directory, by number. -/
abbrev Dir := ExtTreeMap Nat Bytes

inductive WalError where
  | io (what : String)
  | corrupt (what : String)
  deriving DecidableEq

/-! ## Replaying -/

structure ReplayJob where
  record : JobRecord
  tube : TubeName
  body : Bytes
  /-- Sequence number of the record that first established the job. -/
  order : Nat
  /-- Location of the job's latest Put record. -/
  seg : Nat
  off : Nat
  putLen : Nat
  /-- Bytes of the latest Put and the records after it. -/
  used : Nat

/-- The reference's replay tube list: an `Ms` with swap-removal. -/
structure TubeList where
  order : List TubeName := []
  /-- Live jobs using the tube, and its position in `order`. -/
  info : ExtTreeMap TubeName (Nat × Nat) := ∅

namespace TubeList

/-- `Vec::swap_remove`. -/
def swapRemove (l : List TubeName) (pos : Nat) : List TubeName :=
  match l.getLast? with
  | none => l
  | some last => (l.set pos last).dropLast

def addJob (t : TubeList) (tube : TubeName) : TubeList :=
  if tube = .defaultTube then t
  else
    match t.info[tube]? with
    | some (refs, pos) => { t with info := t.info.insert tube (refs + 1, pos) }
    | none =>
      { order := t.order ++ [tube], info := t.info.insert tube (1, t.order.length) }

def removeJob (t : TubeList) (tube : TubeName) : TubeList :=
  match t.info[tube]? with
  | none => t
  | some (refs, pos) =>
    if refs - 1 > 0 then { t with info := t.info.insert tube (refs - 1, pos) }
    else
      let order := swapRemove t.order pos
      let info := t.info.erase tube
      match order[pos]? with
      | none => { order, info }
      | some moved => { order, info := info.modify moved fun (r, _) => (r, pos) }

end TubeList

structure ReplayState where
  jobs : ExtTreeMap JobId ReplayJob := ∅
  maxId : JobId := 0
  seq : Nat := 0
  tubes : TubeList := {}

/-- `Rec::id`. -/
def entryId : JournalEntry → JobId
  | .put record _ _ => record.id
  | .update record => record.id
  | .delete id => id

namespace ReplayState

/-- One record, found at `off` of segment `seg`. -/
def apply (st : ReplayState) (e : JournalEntry) (seg off len : Nat) : ReplayState :=
  let st := { st with maxId := max st.maxId (entryId e), seq := st.seq + 1 }
  match e with
  | .put record tube body =>
    match st.jobs[record.id]? with
    | some j =>
      let j := { j with record, tube, body, seg, off, putLen := len, used := len }
      { st with jobs := st.jobs.insert record.id j }
    | none =>
      let j := { record, tube, body, order := st.seq, seg, off, putLen := len, used := len }
      { st with tubes := st.tubes.addJob tube, jobs := st.jobs.insert record.id j }
  | .update record =>
    { st with jobs := st.jobs.modify record.id fun j => { j with record, used := j.used + len } }
  | .delete id =>
    match st.jobs[id]? with
    | none => st
    | some j => { st with jobs := st.jobs.erase id, tubes := st.tubes.removeJob j.tube }

end ReplayState

/-! ## Scanning -/

structure ScannedSeg where
  index : Nat
  fileLen : Nat
  /-- End of the last valid record. -/
  validEnd : Nat
  hasRecords : Bool

structure Scan where
  segs : List ScannedSeg
  maxIndex : Nat
  jobs : ExtTreeMap JobId ReplayJob
  nextId : JobId
  tubeOrder : List TubeName
  /-- Segment, offset and reason of the torn tail, if any. -/
  torn : Option (Nat × Nat × String)

/-- The state of the loop over the segments. -/
structure Scanner where
  st : ReplayState := {}
  segs : List ScannedSeg := []
  torn : Option (Nat × Nat × String) := none

def corrupt (index off : Nat) (why : String) : WalError :=
  .corrupt s!"binlog.{index} offset {off}: {why}"

namespace Scanner

/-- The first torn place is remembered. -/
def tear (s : Scanner) (index off : Nat) (why : String) : Scanner :=
  if s.torn.isNone then { s with torn := some (index, off, why) } else s

/-- A segment without readable records. -/
def blank (s : Scanner) (index : Nat) (buf : Bytes) : Scanner :=
  let s := if buf.any (· ≠ 0) then s.tear index segHeaderLen "incomplete segment header" else s
  { s with
    segs := s.segs ++ [{ index, fileLen := buf.length, validEnd := 0, hasRecords := false }] }

/-- The records of a segment are read up to `pos`. -/
def close (s : Scanner) (index : Nat) (buf : Bytes) (pos : Nat) (hasRecords : Bool) : Scanner :=
  { s with segs := s.segs ++ [{ index, fileLen := buf.length, validEnd := pos, hasRecords }] }

/-- The loop over the records of a segment. -/
def records (crc : Bytes → UInt32) (index : Nat) (buf : Bytes) :
    Nat → Nat → Bool → Scanner → Except WalError Scanner
  | 0, pos, has, s => .ok (s.close index buf pos has)
  | n + 1, pos, has, s =>
    match parseAt crc buf pos with
    | .endOfRecords =>
      let s := if (buf.drop pos).any (· ≠ 0)
        then s.tear index pos "non-zero bytes after end of records" else s
      .ok (s.close index buf pos has)
    | .record e len =>
      match s.torn with
      | some (ti, toff, why) =>
        .error (.corrupt (s!"binlog.{ti} offset {toff}: {why}, but binlog.{index} offset {pos} " ++
          "holds a later valid record"))
      | none => records crc index buf n (pos + len) true { s with st := s.st.apply e index pos len }
    | .malformed why => .error (corrupt index pos why)
    | .bad why => .ok ((s.tear index pos why).close index buf pos has)

/-- One segment file. -/
def segment (crc : Bytes → UInt32) (s : Scanner) (f : Nat × Bytes) : Except WalError Scanner :=
  let (index, buf) := f
  if buf.length < segHeaderLen ∨ (buf.take segHeaderLen).all (· = 0) then .ok (s.blank index buf)
  else if buf.take 8 ≠ magic then .error (corrupt index 0 "bad magic")
  else
    let ver := ofLe ((buf.drop 8).take 4)
    if ver ≠ version then .error (.corrupt s!"binlog.{index}: unsupported format version {ver}")
    else records crc index buf buf.length segHeaderLen false s

end Scanner

def scan (crc : Bytes → UInt32) (dir : Dir) : Except WalError Scan := do
  let s ← dir.toList.foldlM (Scanner.segment crc) {}
  return { segs := s.segs
           maxIndex := (dir.toList.getLast?.map Prod.fst).getD 0
           jobs := s.st.jobs
           nextId := max (satAdd s.st.maxId 1) 1
           tubeOrder := s.st.tubes.order
           torn := s.torn }

end Beanstalkd.Store
