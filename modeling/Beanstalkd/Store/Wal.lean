import Beanstalkd.Store.Replay
import Beanstalkd.Engine.Recover

/-!
# The open log

`crates/store/src/wal.rs`: the segment list, the job index, writes, compaction
and garbage collection.

The source's `segs` with the position `cur` of the current segment is kept as
three parts: the closed segments, the current one and the preallocated spares.
Only the current segment and the spares have an open file, so the option in the
source's `Seg::file` is which part a segment is in.

`Disk` is the directory together with the list of file operations that led to
it, in program order (the source's own test instrumentation, `file_ops`, is the
same list without the bytes). A write carries the journal entries whose records
it holds; copies made by compaction are not among them. `queued` is the same for
the buffer. Neither has any effect.

The file system may be full. Then no file gets longer: a new segment is removed again
when its first bytes do not fit, and a write past the end of a file fails. What a failed
write leaves in the file is not modelled, and no other system call fails.

An operation that fails leaves `failure` set, and what follows it in the source
is not done (`andThen` is the `?` operator). A failure is fatal: the server stops,
and the log is used again only after the next `open`.
-/

open Std

namespace Beanstalkd.Store

open File

def block : Nat := 4096

/-- Largest accepted file size. -/
def maxFileSize : Nat := 4 * 2 ^ 30

/-- Largest segment number `open` accepts. -/
def maxSegmentIndex : Nat := 2 ^ 62

/-! ## The directory -/

inductive FileOp where
  | create (seg : Nat)
  /-- Bytes written at the end of a file while it is preallocated. -/
  | extend (seg : Nat) (data : Bytes)
  | write (seg off : Nat) (data : Bytes) (entries : List JournalEntry)
  | setLen (seg len : Nat)
  | remove (seg : Nat)
  | sync (seg : Nat)
  | syncDir

/-- The directory after a file operation. -/
def FileOp.effect (dir : Dir) : FileOp → Dir
  | .create seg => dir.insert seg []
  | .extend seg data => dir.modify seg (· ++ data)
  | .write seg off data _ => dir.modify seg (writeAt · off data)
  | .setLen seg len => dir.modify seg (File.setLen · len)
  | .remove seg => dir.erase seg
  | .sync _ => dir
  | .syncDir => dir

structure Disk where
  dir : Dir := ∅
  ops : List FileOp := []
  /-- There is no space left for any file to get longer. -/
  full : Bool := false

def Disk.perform (d : Disk) (op : FileOp) : Disk :=
  { d with dir := op.effect d.dir, ops := d.ops ++ [op] }

/-- The length of a segment's file. -/
def Disk.fileLen (d : Disk) (seg : Nat) : Nat := (d.dir[seg]?.getD []).length

def noSpace : WalError := .io "No space left on device (os error 28)"

/-! ## State -/

inductive SyncPolicy where
  | always
  | interval (every : Nanos)
  | never
  deriving DecidableEq

structure WalOptions where
  fileSize : Nat
  sync : SyncPolicy
  /-- The cap on the total bytes of segment files (a full disk). -/
  limit : Option Nat := none

structure Seg where
  index : Nat
  /-- Bytes the file occupies. -/
  size : Nat
  /-- End of the last record, or of the header. -/
  written : Nat
  /-- Live jobs whose latest Put is in this segment. -/
  anchors : Nat := 0
  /-- Job and offset of the Puts written here; stale ones are skipped lazily. -/
  puts : List (JobId × Nat) := []

structure JobEntry where
  record : JobRecord
  seg : Nat
  off : Nat
  putLen : Nat
  used : Nat

structure Wal where
  policy : SyncPolicy
  segSize : Nat
  limit : Option Nat
  closed : List Seg
  current : Seg
  spares : List Seg
  nextIndex : Nat
  jobs : ExtTreeMap JobId JobEntry
  liveBytes : Nat
  diskTotal : Nat
  pendingPuts : Nat
  pendingBytes : Nat
  /-- Encoded records not yet written, destined for the current segment at
  `bufStart`. -/
  buf : Bytes
  bufStart : Nat
  /-- The journal entries among them. -/
  queued : List JournalEntry
  unsynced : Bool
  lastSync : Option Nanos
  recordsWritten : Nat
  recordsMigrated : Nat
  disk : Disk
  failure : Option WalError

namespace Wal

def fail (w : Wal) (e : WalError) : Wal := { w with failure := some e }

/-- `w?; f`: go on unless something failed. -/
def andThen (w : Wal) (f : Wal → Wal) : Wal := if w.failure.isSome then w else f w

def perform (w : Wal) (op : FileOp) : Wal := { w with disk := w.disk.perform op }

/-! ## Space -/

def capacity (w : Wal) : Nat := w.segSize - segHeaderLen

def reserved (w : Wal) : Nat := deleteRecLen * (w.jobs.size + w.pendingPuts) + w.pendingBytes

def avail (w : Wal) : Nat :=
  w.current.size - w.current.written + w.spares.length * w.capacity

def slack (w : Wal) : Nat := deleteRecLen * (w.spares.length + 1) + w.pendingBytes

/-- The sizes of the blocks of zeros that preallocation writes. -/
def zeroBlocks (left : Nat) : List Nat :=
  List.replicate (left / 65536) 65536 ++ if left % 65536 = 0 then [] else [left % 65536]

/-- The file operations of a new segment: header, then zeros. -/
def preallocate (index size : Nat) : List FileOp :=
  .create index :: .extend index segmentHeader ::
    (zeroBlocks (size - segHeaderLen)).map fun n => .extend index (zeros n)

/-- A new spare, or why there is none. If its file finds no space it is removed again, and
its number stays used. -/
def allocate (w : Wal) : Wal × Option WalError :=
  if w.limit.any fun limit => w.diskTotal + w.segSize > limit then
    (w, some (.io "binlog size limit reached"))
  else if w.nextIndex + 1 > u64Max then (w, some (.io "binlog segment numbers exhausted"))
  else if w.disk.dir.contains w.nextIndex then (w, some (.io "File exists (os error 17)"))
  else
    let index := w.nextIndex
    let w := { w with nextIndex := index + 1 }
    if w.disk.full then ((w.perform (.create index)).perform (.remove index), some noSpace)
    else
      let w := (preallocate index w.segSize).foldl perform w
      let w := if w.policy = .never then w else w.perform .syncDir
      ({ w with
        diskTotal := w.diskTotal + w.segSize
        spares := w.spares ++ [{ index, size := w.segSize, written := segHeaderLen }] }, none)

/-- Whether `n` more bytes can be reserved without a new segment. -/
def hasRoom (w : Wal) (n : Nat) (spare : Bool) : Bool :=
  w.reserved + n + w.slack + (if spare then w.capacity else 0) ≤ w.avail

/-- Rounds of `ensure_room`. -/
def roomLoop (n : Nat) (spare : Bool) : Nat → Wal → Wal × Bool
  | 0, w => (w, w.hasRoom n spare)
  | fuel + 1, w =>
    if w.hasRoom n spare then (w, true)
    else
      match w.allocate with
      | (w, some _) => (w, false)
      | (w, none) => roomLoop n spare fuel w

/-- Make sure `n` more bytes can be reserved, allocating segments as needed. A new
segment brings more room than it adds to the slack, so the missing bytes bound
the number of rounds. -/
def ensureRoom (w : Wal) (n : Nat) (spare : Bool) : Wal × Bool :=
  roomLoop n spare (w.reserved + n + w.slack + w.capacity) w

def reservePut (w : Wal) (tubeLen bodyLen : Nat) : Wal × Bool :=
  let put := putRecLen tubeLen bodyLen
  if put > w.capacity then (w, false)
  else
    let (w, ok) := { w with pendingBytes := w.pendingBytes + put }.ensureRoom deleteRecLen true
    let w := { w with pendingBytes := w.pendingBytes - put }
    if ok then
      ({ w with pendingPuts := w.pendingPuts + 1, pendingBytes := w.pendingBytes + put }, true)
    else (w, false)

/-! ## Writing -/

/-- The buffer is written. Within the preallocated file that needs no space. -/
def flush (w : Wal) : Wal :=
  if w.buf.isEmpty then w
  else if w.disk.full ∧ w.disk.fileLen w.current.index < w.bufStart + w.buf.length then
    w.fail noSpace
  else
    let w := w.perform (.write w.current.index w.bufStart w.buf w.queued)
    { w with bufStart := w.bufStart + w.buf.length, buf := [], queued := [], unsynced := true }

def syncCur (w : Wal) : Wal := { w.perform (.sync w.current.index) with unsynced := false }

/-- Sync what was flushed, under a policy that syncs. -/
def syncIfUnsynced (w : Wal) : Wal := if w.unsynced ∧ w.policy ≠ .never then w.syncCur else w

/-- What `roll` and `gc` start with. -/
def flushSync (w : Wal) : Wal := w.flush.andThen syncIfUnsynced

/-- The current segment is cut to its records and closed, and the first spare
takes its place. -/
def advance (w : Wal) : Wal :=
  match w.spares with
  | [] => w
  | next :: spares =>
    let c := w.current
    let w := if c.size > c.written then
        { w.perform (.setLen c.index c.written) with
          diskTotal := w.diskTotal - (c.size - c.written) }
      else w
    let c := { c with size := min c.size c.written }
    { w with
      closed := w.closed ++ [c], current := next, spares := spares
      bufStart := next.written, unsynced := false }

/-- The next segment becomes the current one; without a spare it is allocated now. -/
def roll (w : Wal) : Wal :=
  w.flushSync.andThen fun w =>
    if w.spares.isEmpty then
      match w.allocate with
      | (w, some e) => w.fail e
      | (w, none) => w.advance
    else w.advance

/-- `len` bytes at the end of the current segment are taken. -/
def bump (w : Wal) (len : Nat) : Wal :=
  let c := { w.current with written := w.current.written + len }
  if c.written > c.size then
    { w with
      diskTotal := w.diskTotal + (c.written - c.size)
      current := { c with size := c.written } }
  else { w with current := c }

/-- Room for a record of `len` bytes, in the next segment if it does not fit this
one. The record's offset is where the segment's records ended. -/
def place (w : Wal) (len : Nat) : Wal :=
  let c := w.current
  let w := if c.written > segHeaderLen ∧ c.written + len > c.size then w.roll else w
  w.andThen (·.bump len)

/-- Where a record of `len` bytes that was just placed starts. -/
def placed (w : Wal) (len : Nat) : Nat := w.current.written - len

def modSeg (w : Wal) (index : Nat) (f : Seg → Seg) : Wal :=
  let g (s : Seg) : Seg := if s.index = index then f s else s
  { w with closed := w.closed.map g, current := g w.current, spares := w.spares.map g }

def unanchor (w : Wal) (seg : Nat) : Wal :=
  w.modSeg seg fun s => { s with anchors := s.anchors - 1 }

/-- Job `id`'s latest Put is now at `off` of the current segment. -/
def anchor (w : Wal) (id : JobId) (off : Nat) : Wal :=
  { w with current := { w.current with
      anchors := w.current.anchors + 1, puts := w.current.puts ++ [(id, off)] } }

/-- The record of a journal entry goes into the buffer. -/
def push (crc : Bytes → UInt32) (w : Wal) (e : JournalEntry) : Wal :=
  match encode crc e with
  | .error what => w.fail (.io what)
  | .ok bytes => { w with buf := w.buf ++ bytes, queued := w.queued ++ [e] }

/-- The job index after a Put at `off` of the current segment. -/
def indexPut (w : Wal) (record : JobRecord) (off len : Nat) : Wal :=
  let w := w.anchor record.id off
  let old := w.jobs[record.id]?
  let w := { w with
    jobs := w.jobs.insert record.id
      { record, seg := w.current.index, off, putLen := len, used := len }
    liveBytes := w.liveBytes + len }
  match old with
  | none => w
  | some old => { w with liveBytes := w.liveBytes - old.used }.unanchor old.seg

def indexUpdate (w : Wal) (record : JobRecord) : Wal :=
  match w.jobs[record.id]? with
  | none => w
  | some j =>
    { w with
      jobs := w.jobs.insert record.id { j with record, used := j.used + updateRecLen }
      liveBytes := w.liveBytes + updateRecLen }

def indexDelete (w : Wal) (id : JobId) : Wal :=
  match w.jobs[id]? with
  | none => w
  | some j => { w with jobs := w.jobs.erase id, liveBytes := w.liveBytes - j.used }.unanchor j.seg

/-- A pending put is no longer pending once it is written. -/
def unreserve (w : Wal) (len : Nat) : Wal :=
  if w.pendingPuts > 0 then
    { w with pendingPuts := w.pendingPuts - 1, pendingBytes := w.pendingBytes - len }
  else w

/-- What an entry does to the job index, its record being the last one placed. -/
def index (w : Wal) : JournalEntry → Wal
  | .put record tube body =>
    let len := putRecLen tube.bytes.length body.length
    w.indexPut record (w.placed len) len
  | .update record => w.indexUpdate record
  | .delete id => w.indexDelete id

/-- The entry's record, once it has its place. -/
def enter (crc : Bytes → UInt32) (w : Wal) (e : JournalEntry) : Wal :=
  (w.push crc e).andThen fun w =>
    { w.index e with recordsWritten := (w.index e).recordsWritten + 1 }

def appendOne (crc : Bytes → UInt32) (w : Wal) (e : JournalEntry) : Wal :=
  let w := match e with
    | .put .. => w.unreserve (recLen e)
    | _ => w
  (w.place (recLen e)).andThen (·.enter crc e)

/-- The entries of an `append` are all in the buffer: nothing is pending any more, and
the buffer is written. -/
def settle (w : Wal) : Wal :=
  let w := { w with pendingPuts := 0, pendingBytes := 0 }
  w.flush.andThen fun w =>
    if w.policy = .always ∧ w.unsynced then w.syncCur else w

/-- The entries get their records in the buffer one after the other, and the first one that
fails ends it. -/
def append (crc : Bytes → UInt32) (w : Wal) (entries : List JournalEntry) : Wal :=
  (entries.foldl (fun w e => w.andThen (·.appendOne crc e)) w).andThen settle

def syncIfDue (w : Wal) (now : Nanos) : Wal :=
  match w.policy with
  | .interval every =>
    if !w.unsynced then w
    else if w.lastSync.any fun last => now - last < every then w
    else { w with lastSync := some now }.syncCur
  | _ => w

/-! ## Compaction -/

def ratio (w : Wal) : Nat :=
  let live := w.liveBytes + w.reserved
  if live = 0 then 0 else (w.diskTotal - live) / live

/-- The oldest segment from `start` on that anchors a job and has at least two after
it, up to the current one. -/
def anchoring (w : Wal) : Nat → Nat → Option Nat
  | 0, _ => none
  | fuel + 1, start =>
    if start + 2 > w.closed.length then none
    else if (w.closed[start]?).any fun s => s.anchors > 0 then some start
    else w.anchoring fuel (start + 1)

/-- The Puts of a segment from the first one on that is still some job's latest. -/
def freshPuts (w : Wal) (seg : Nat) (puts : List (JobId × Nat)) : List (JobId × Nat) :=
  puts.dropWhile fun (id, off) => !(w.jobs[id]?.any fun j => j.seg = seg ∧ j.off = off)

def setPuts (w : Wal) (index : Nat) (puts : List (JobId × Nat)) : Wal :=
  w.modSeg index fun s => { s with puts }

/-- The copy of a job's Put, once it has its place: the job is anchored there and no
longer in segment `seg`. -/
def relocate (w : Wal) (seg : Nat) (id : JobId) (j : JobEntry) (bytes : Bytes) : Wal :=
  let off := w.placed j.putLen
  let w := ({ w with buf := w.buf ++ bytes }.anchor id off).modSeg seg fun s =>
    { s with anchors := s.anchors - 1, puts := s.puts.drop 1 }
  { w with
    jobs := w.jobs.insert id { j with seg := w.current.index, off, used := j.putLen }
    liveBytes := w.liveBytes - j.used + j.putLen
    recordsWritten := w.recordsWritten + 1
    recordsMigrated := w.recordsMigrated + 1 }

/-- The job's Put is copied to the end of the log, stamped with its current record. -/
def move (crc : Bytes → UInt32) (w : Wal) (seg : Seg) (id : JobId) (j : JobEntry) : Wal :=
  match (w.disk.dir[seg.index]?).bind (readAt · j.off j.putLen) with
  | none => w.fail (.io "failed to fill whole buffer")
  | some bytes =>
    match parse crc bytes with
    | .record (.put ..) len =>
      if len = j.putLen then
        (w.place len).andThen (·.relocate seg.index id j (restampPut crc bytes j.record))
      else
        w.fail (.corrupt s!"binlog.{seg.index} offset {j.off}: job {id}'s record is damaged")
    | _ => w.fail (.corrupt s!"binlog.{seg.index} offset {j.off}: job {id}'s record is damaged")

/-- Move one live job out of the oldest segment that anchors any. The answer is
where to search next, or `none` if nothing was moved. -/
def moveOne (crc : Bytes → UInt32) (w : Wal) (start : Nat) : Wal × Option Nat :=
  match w.anchoring w.closed.length start with
  | none => (w, none)
  | some p =>
    match w.closed[p]? with
    | none => (w, none)
    | some seg =>
      let puts := w.freshPuts seg.index seg.puts
      let w := w.setPuts seg.index puts
      match puts.head? with
      | none =>
        (w.fail (.corrupt s!"internal: binlog.{seg.index} anchors jobs but lists none"), none)
      | some (id, _) =>
        match w.jobs[id]? with
        | none => (w, none)
        | some j =>
          let (w, ok) := w.ensureRoom j.putLen true
          if !ok then (w, none)
          else
            let w := w.move crc seg id j
            (w, if w.failure.isSome then none else some p)

/-- At most `moves` moves. -/
def moveLoop (crc : Bytes → UInt32) : Nat → Nat → Wal → Wal
  | 0, _, w => w
  | moves + 1, start, w =>
    match w.moveOne crc start with
    | (w, none) => w
    | (w, some start) => moveLoop crc moves start w

/-- The oldest closed segment is removed. -/
def dropFront (w : Wal) : Wal :=
  match w.closed with
  | [] => w
  | s :: closed =>
    { w.perform (.remove s.index) with closed, diskTotal := w.diskTotal - s.size }

/-- The closed segments before the first one that anchors a job are removed. -/
def gc (w : Wal) : Wal :=
  let gone := w.closed.takeWhile fun s => s.anchors = 0
  if gone.isEmpty then w
  else
    w.flushSync.andThen fun w =>
      let w := gone.foldl (fun w _ => w.dropFront) w
      if w.policy = .always then w.perform .syncDir else w

/-- Jobs are moved to the end of the log, the more the more of it is garbage, and the
segments that then anchor none are removed. -/
def maintain (crc : Bytes → UInt32) (w : Wal) : Wal :=
  let r := w.ratio
  let w := if r ≥ 2 then (moveLoop crc (r - 1) 0 w).andThen flush else w
  w.andThen gc

def stats (w : Wal) : BinlogStats where
  oldestIndex := (w.closed.head?.getD w.current).index
  currentIndex := w.current.index
  recordsWritten := w.recordsWritten
  recordsMigrated := w.recordsMigrated

end Wal

/-! ## Opening -/

/-- `file_size` rounded up to whole blocks. -/
def segmentSize (fileSize : Nat) : Except WalError Nat :=
  let size := (max fileSize 1 + (block - 1)) / block * block
  if size ≤ maxFileSize then .ok size
  else .error (.io s!"binlog file size {fileSize} is too large (max {maxFileSize})")

/-- The file operations that fix a scanned segment up. -/
def fixUp (s : ScannedSeg) : List FileOp :=
  if !s.hasRecords then [.remove s.index]
  else if s.fileLen > s.validEnd then [.setLen s.index s.validEnd, .sync s.index]
  else []

/-- The closed segments of a scanned directory, with the jobs they anchor. -/
def closedSegs (scan : Scan) : List Seg :=
  (scan.segs.filter (·.hasRecords)).map fun s =>
    let here := (scan.jobs.toList.filter fun (_, j) => j.seg = s.index).map fun (id, j) =>
      (id, j.off)
    { index := s.index, size := s.validEnd, written := s.validEnd
      anchors := here.length
      puts := here.mergeSort fun a b => a.2 < b.2 || (a.2 = b.2 && a.1 ≤ b.1) }

/-- The recovered jobs, in the order of their first surviving record. -/
def recovered (scan : Scan) : Recovery where
  jobs := ((TreeMap.values scan.jobs).mergeSort fun a b => a.order ≤ b.order).map fun j =>
    { record := j.record, tube := j.tube, body := j.body }
  nextId := scan.nextId
  tubeOrder := scan.tubeOrder

/-- The log over a fixed-up directory, its current segment still to come. -/
def Wal.ofScan (opts : WalOptions) (segSize : Nat) (scan : Scan) (disk : Disk) : Wal :=
  let closed := closedSegs scan
  { policy := opts.sync, segSize, limit := opts.limit, closed
    current := { index := 0, size := 0, written := 0 }, spares := []
    nextIndex := scan.maxIndex + 1
    jobs := scan.jobs.map fun _ j =>
      { record := j.record, seg := j.seg, off := j.off, putLen := j.putLen, used := j.used }
    liveBytes := ((TreeMap.values scan.jobs).map ReplayJob.used).sum
    diskTotal := (closed.map Seg.size).sum
    pendingPuts := 0, pendingBytes := 0
    buf := [], bufStart := segHeaderLen, queued := []
    unsynced := false, lastSync := none, recordsWritten := 0, recordsMigrated := 0
    disk, failure := none }

/-- What `open` leaves: the directory, and the log with the recovered jobs or the
reason why there is none. -/
structure Opened where
  disk : Disk
  result : Except WalError (Wal × Recovery)

/-- The log gets its current segment and the room the recovered jobs need. -/
def Wal.start (w : Wal) (recovery : Recovery) : Opened :=
  match w.allocate with
  | (w, some e) => { disk := w.disk, result := .error e }
  | (w, none) =>
    match w.spares with
    | [] => { disk := w.disk, result := .error (.io "no segment") }
    | current :: spares =>
      let (w, ok) := { w with current, spares }.ensureRoom 0 false
      if !ok then
        { disk := w.disk
          result := .error (.io "cannot preallocate binlog space for the recovered jobs") }
      else
        let w := w.gc
        { disk := w.disk
          result := match w.failure with
            | some e => .error e
            | none => .ok (w, recovery) }

def openWal (crc : Bytes → UInt32) (opts : WalOptions) (disk : Disk) : Opened :=
  match segmentSize opts.fileSize with
  | .error e => { disk, result := .error e }
  | .ok segSize =>
    match scan crc disk.dir with
    | .error e => { disk, result := .error e }
    | .ok scan =>
      if scan.maxIndex > maxSegmentIndex then
        { disk
          result := .error (.corrupt
            s!"binlog.{scan.maxIndex}: segment number out of range (max {maxSegmentIndex})") }
      else
        let disk := (scan.segs.flatMap fixUp).foldl Disk.perform disk
        let disk := if scan.segs.any (!·.hasRecords) then disk.perform .syncDir else disk
        (Wal.ofScan opts segSize scan disk).start (recovered scan)

end Beanstalkd.Store
