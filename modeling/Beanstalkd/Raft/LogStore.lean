import Mathlib.Data.List.DropRight
import Beanstalkd.Lib.File
import Beanstalkd.Proto.Types
import Beanstalkd.Raft.Types

/-!
# The segmented Raft log

`crates/raft/src/storage/log_store.rs` with the record framing of `fsutil.rs`.
The log is a list of segment files, each a header and framed records of
consecutive indexes, with the offsets of the records kept in memory, and a
bounded cache of the newest entries (`Tail`).

What third-party code computes is a parameter (`Wire`): the checksum, and
postcard's encoding of entries and log ids, of which only the round trip is
used. The payload of an entry is any type.

A segment carries the bytes of its file: the segment list and the directory
change together. So the directory that a later `open` finds (`dir`) is the
segments' files and the file with the purge marker. The vote and the commit hint
live in files of their own, which no other operation reads; they are left out,
and so are the sync calls and the file handle that `append` hands to the flusher.
-/

namespace Beanstalkd.Raft

open File

/-! ## Records -/

inductive BadRecord where
  | shortHeader
  | zeroLength
  | shortPayload
  | crcMismatch

def BadRecord.display : BadRecord → String
  | .shortHeader => "truncated record header"
  | .zeroLength => "zero record length"
  | .shortPayload => "truncated record"
  | .crcMismatch => "record checksum mismatch"

/-- The record at the start of `buf`: its payload and its whole length. -/
def parseRecord (crc : Bytes → UInt32) (buf : Bytes) : Except BadRecord (Bytes × Nat) :=
  if buf.length < frameHeader then .error .shortHeader
  else if lenField buf = 0 then .error .zeroLength
  else if buf.length < frameHeader + lenField buf then .error .shortPayload
  else
    let payload := (buf.drop frameHeader).take (lenField buf)
    if crcOf crc buf payload ≠ crcField buf then .error .crcMismatch
    else .ok (payload, frameHeader + lenField buf)

/-- The record at `off`, without trusting its length beyond the file. -/
def readRecordAt (crc : Bytes → UInt32) (file : Bytes) (off : Nat) :
    Except BadRecord (Bytes × Nat) :=
  let avail := file.length - off
  if avail < frameHeader then .error .shortHeader
  else
    let len := lenField (file.drop off)
    if len = 0 then .error .zeroLength
    else if len > avail - frameHeader then .error .shortPayload
    else
      let total := frameHeader + len
      let buf := (file.drop off).take total
      match parseRecord crc buf with
      | .ok _ => .ok (buf.drop frameHeader, total)
      | .error e => .error e

/-- A serializer that reads back what it wrote. -/
structure Codec (α : Type) where
  encode : α → Bytes
  decode : Bytes → Except String α
  decode_encode : ∀ a, decode (encode a) = .ok a
  encode_ne_nil : ∀ a, encode a ≠ []

/-- openraft's `Entry`. -/
structure Ent (P : Type) where
  logId : LogId
  payload : P

def Ent.index {P : Type} (e : Ent P) : Nat := e.logId.index

/-- What the log leaves to its libraries. -/
structure Wire (P : Type) where
  crc : Bytes → UInt32
  entries : Codec (Ent P)
  ids : Codec LogId

variable {P : Type}

namespace Wire

/-- The record of an entry. -/
def record (w : Wire P) (e : Ent P) : Bytes := frame w.crc (w.entries.encode e)

def recLen (w : Wire P) (e : Ent P) : Nat := frameHeader + (w.entries.encode e).length

end Wire

structure LogOptions where
  /-- A new segment is started when the current one would grow past this. -/
  segmentSize : Nat
  /-- `limited_get_log_entries` stops after this many bytes of records. -/
  maxReadBytes : Nat
  tailCacheBytes : Nat
  tailCacheEntries : Nat

/-! ## The tail cache -/

/-- The newest entries of the log, each with the size of its record. -/
structure Tail (P : Type) where
  ents : List (Ent P × Nat)
  bytes : Nat
  maxBytes : Nat
  maxEntries : Nat

namespace Tail

def new (opts : LogOptions) : Tail P :=
  { ents := [], bytes := 0, maxBytes := opts.tailCacheBytes, maxEntries := opts.tailCacheEntries }

def first (t : Tail P) : Option Nat := t.ents.head?.map fun e => e.1.index

def get (t : Tail P) (index : Nat) : Option (Ent P × Nat) :=
  match t.first with
  | none => none
  | some first => if index < first then none else t.ents[index - first]?

/-- How far the files serve a read at `idx` that the cache does not. -/
def diskStop (t : Tail P) (idx hi : Nat) : Nat :=
  match t.first with
  | some f => if f > idx then min f hi else hi
  | none => hi

def clear (t : Tail P) : Tail P := { t with ents := [], bytes := 0 }

/-- The oldest entries go until the rest is within the limits. -/
def evict (t : Tail P) : List (Ent P × Nat) → Nat → Tail P
  | [], bytes => { t with ents := [], bytes }
  | e :: es, bytes =>
    if bytes > t.maxBytes ∨ es.length + 1 > t.maxEntries then t.evict es (bytes - e.2)
    else { t with ents := e :: es, bytes }

/-- Called once the record is in the segment file, in log order. -/
def push (t : Tail P) (ent : Ent P) (recLen : Nat) : Tail P :=
  -- skipping an entry would leave a hole
  if recLen > t.maxBytes ∨ t.maxEntries = 0 then t.clear
  else
    let t := if t.ents.getLast?.any fun b => b.1.index + 1 ≠ ent.index then t.clear else t
    t.evict (t.ents ++ [(ent, recLen)]) (t.bytes + recLen)

/-- Drop the entries at `since` and after. -/
def truncate (t : Tail P) (since : Nat) : Tail P :=
  let gone := t.ents.rtakeWhile fun e => e.1.index ≥ since
  { t with
    ents := t.ents.rdropWhile fun e => e.1.index ≥ since
    bytes := t.bytes - (gone.map Prod.snd).sum }

/-- Drop the entries at `upto` and before. -/
def purge (t : Tail P) (upto : Nat) : Tail P :=
  let gone := t.ents.takeWhile fun e => e.1.index ≤ upto
  { t with
    ents := t.ents.dropWhile fun e => e.1.index ≤ upto
    bytes := t.bytes - (gone.map Prod.snd).sum }

end Tail

/-! ## Segments -/

def segHeaderLen : Nat := 24

/-- Magic, version 1, flags 0, first index. -/
def segHeader (first : Nat) : Bytes := ascii "BSTKRLOG" ++ le 4 1 ++ le 4 0 ++ le 8 first

/-- `{first:020}.seg`. -/
def segName (first : Nat) : String :=
  let digits := toString first
  String.ofList (List.replicate (20 - digits.length) '0') ++ digits ++ ".seg"

structure Segment where
  first : Nat
  /-- The contents of its file. -/
  file : Bytes
  /-- Where the records start. -/
  offsets : List Nat
  /-- The end of the last one. -/
  endOff : Nat

namespace Segment

def next (s : Segment) : Nat := s.first + s.offsets.length

/-- Where record `k` starts and ends. -/
def range (s : Segment) (k : Nat) : Nat × Nat :=
  ((s.offsets[k]?).getD 0, (s.offsets[k + 1]?).getD s.endOff)

/-- A segment file with its header and nothing else. -/
def new (first : Nat) : Segment :=
  { first, file := segHeader first, offsets := [], endOff := segHeaderLen }

/-- Write records, which start at `offs` of `buf`, after the last one. -/
def extend (s : Segment) (buf : Bytes) (offs : List Nat) : Segment :=
  { s with
    file := writeAt s.file s.endOff buf
    offsets := s.offsets ++ offs.map (s.endOff + ·)
    endOff := s.endOff + buf.length }

/-- Cut at the record that holds index `since`. -/
def cut (s : Segment) (since : Nat) : Segment :=
  let k := since - s.first
  match s.offsets[k]? with
  | none => s
  | some off => { s with file := setLen s.file off, offsets := s.offsets.take k, endOff := off }

end Segment

/-! ## The store -/

structure LogStore (P : Type) where
  opts : LogOptions
  segs : List Segment
  tail : Tail P
  purged : Option LogId
  lastEntry : Option LogId
  /-- The contents of the file with the purge marker. -/
  purgedFile : Option Bytes

/-- What is on disk. -/
structure LogDir where
  segs : List (Nat × Bytes)
  purged : Option Bytes

namespace LogStore

def dir (s : LogStore P) : LogDir :=
  { segs := s.segs.map fun g => (g.first, g.file), purged := s.purgedFile }

/-! ### Opening -/

/-- The records of a segment from `off` on, until the end or the first bad one. -/
def scanRecords (w : Wire P) (first : Nat) (isLast : Bool) (file : Bytes) :
    Nat → List Nat → Nat → Option LogId → Except String (Segment × Option LogId)
  | 0, offsets, off, last => .ok ({ first, file, offsets, endOff := off }, last)
  | n + 1, offsets, off, last =>
    if file.length ≤ off then .ok ({ first, file, offsets, endOff := off }, last)
    else
      -- a torn tail of the last segment is cut off, any other damage is corruption
      let torn (bad : String) : Except String (Segment × Option LogId) :=
        if !isLast then .error s!"{segName first}: {bad} at offset {off}"
        else .ok ({ first, file := setLen file off, offsets, endOff := off }, last)
      match readRecordAt w.crc file off with
      | .error why => torn why.display
      | .ok (payload, total) =>
        match w.entries.decode payload with
        | .error e => torn e
        | .ok ent =>
          let want := first + offsets.length
          if ent.index ≠ want then
            .error (s!"{segName first}: record at offset {off} holds index {ent.index}, " ++
              s!"expected {want}")
          else scanRecords w first isLast file n (offsets ++ [off]) (off + total) (some ent.logId)

/-- `none` if the (last) segment has no valid header and was removed. -/
def scanSegment (w : Wire P) (first : Nat) (isLast : Bool) (file : Bytes) :
    Except String (Option (Segment × Option LogId)) :=
  if file.length < segHeaderLen ∨ file.take segHeaderLen ≠ segHeader first then
    if isLast ∧ file.length ≤ segHeaderLen then .ok none
    else .error s!"{segName first}: bad segment header"
  else (scanRecords w first isLast file file.length [] segHeaderLen none).map some

/-- The segments that hold records, and the id of the last record. -/
def scanSegments (w : Wire P) :
    List (Nat × Bytes) → List Segment → Option LogId → Except String (List Segment × Option LogId)
  | [], segs, last => .ok (segs, last)
  | (first, file) :: files, segs, last =>
    match scanSegment w first files.isEmpty file with
    | .error e => .error e
    | .ok none => scanSegments w files segs last
    | .ok (some (seg, lastHere)) =>
      if seg.offsets.isEmpty then scanSegments w files segs last
      else
        match segs.getLast? with
        | none => scanSegments w files (segs ++ [seg]) lastHere
        | some prev =>
          if prev.next ≠ first then
            .error (s!"log gap: {segName prev.first} ends before index {prev.next}, next " ++
              s!"segment starts at {first}")
          else scanSegments w files (segs ++ [seg]) lastHere

/-- The segments that hold something above the marker. -/
def abovePurged (p : LogId) (segs : List Segment) : List Segment :=
  segs.dropWhile fun g => g.next ≤ p.index + 1

/-- `read_value_file` of the purge marker. -/
def readPurged (w : Wire P) : Option Bytes → Except String (Option LogId)
  | none => .ok none
  | some bytes =>
    match parseRecord w.crc bytes with
    | .error why => .error s!"purged: {why.display}"
    | .ok (payload, _) => (w.ids.decode payload).map some

def openDir (w : Wire P) (opts : LogOptions) (d : LogDir) : Except String (LogStore P) := do
  let purged ← readPurged w d.purged
  let (segs, lastEntry) ← scanSegments w (d.segs.mergeSort fun a b => a.1 ≤ b.1) [] none
  match purged with
  | none =>
    return { opts, segs, tail := .new opts, purged, lastEntry, purgedFile := d.purged }
  | some p =>
    let segs := abovePurged p segs
    match segs.head? with
    | none =>
      return { opts, segs, tail := .new opts, purged, lastEntry := none, purgedFile := d.purged }
    | some g =>
      if g.first > p.index + 1 then
        .error s!"log gap: purged up to {p.index}, first segment starts at {g.first}"
      else return { opts, segs, tail := .new opts, purged, lastEntry, purgedFile := d.purged }

/-! ### Reading -/

/-- The first index above the marker of a log that starts at `first`. -/
def lowest (s : LogStore P) (first : Nat) : Nat :=
  match s.purged with
  | none => first
  | some p => max first (p.index + 1)

def firstLive (s : LogStore P) : Option Nat :=
  match s.lastEntry, s.segs.head? with
  | some last, some seg =>
    let lo := s.lowest seg.first
    if lo ≤ last.index then some lo else none
  | _, _ => none

def nextIndex (s : LogStore P) : Option Nat :=
  match s.lastEntry, s.purged with
  | some l, _ => some (l.index + 1)
  | none, some p => some (p.index + 1)
  | none, none => none

/-- The segment and the record that hold an index. -/
def locate (s : LogStore P) (index : Nat) : Option (Nat × Nat) :=
  let p := (s.segs.takeWhile fun g => g.first ≤ index).length
  if p = 0 then none
  else
    match s.segs[p - 1]? with
    | none => none
    | some g =>
      let k := index - g.first
      if k < g.offsets.length then some (p - 1, k) else none

/-- What has been read so far: the entries, the next index and the bytes. -/
structure Reading (P : Type) where
  out : List (Ent P)
  idx : Nat
  bytes : Nat

/-- How many of the next `want` records of a segment fit, and where they end. -/
def fitCount (seg : Segment) (k start maxBytes : Nat) (r : Reading P) : Nat → Nat → Nat → Nat × Nat
  | 0, cnt, stop => (cnt, stop)
  | want + 1, cnt, stop =>
    let e := (seg.range (k + cnt)).2
    if (cnt > 0 ∨ !r.out.isEmpty) ∧ r.bytes + (e - start) > maxBytes then (cnt, stop)
    else fitCount seg k start maxBytes r want (cnt + 1) e

/-- Decode `cnt` records that were read in one piece, from the `k`-th on. -/
def decodeRecords (w : Wire P) (seg : Segment) :
    Nat → Nat → Bytes → Reading P → Except String (Reading P)
  | 0, _, _, r => .ok r
  | cnt + 1, k, buf, r =>
    match parseRecord w.crc buf with
    | .error why =>
      .error s!"{segName seg.first}: {why.display} at offset {(seg.range k).1}"
    | .ok (payload, total) =>
      match w.entries.decode payload with
      | .error e => .error e
      | .ok ent =>
        if ent.index ≠ r.idx then
          .error s!"{segName seg.first}: expected index {r.idx}, found {ent.index}"
        else
          decodeRecords w seg cnt (k + 1) (buf.drop total)
            { r with out := r.out ++ [ent], idx := r.idx + 1 }

/-- Append the entries up to `hi` from the segment files. -/
def readDisk (w : Wire P) (s : LogStore P) (hi maxBytes : Nat) :
    Nat → Reading P → Except String (Reading P)
  | 0, r => .ok r
  | n + 1, r =>
    if r.idx < hi then
      match s.locate r.idx with
      | none => .error s!"log index {r.idx} not found"
      | some (si, k) =>
        match s.segs[si]? with
        | none => .error s!"log index {r.idx} not found"
        | some seg =>
          let want := min (hi - r.idx) (seg.offsets.length - k)
          let start := (seg.range k).1
          let (cnt, stop) := fitCount seg k start maxBytes r want 0 start
          match readAt seg.file start (stop - start) with
          | none => .error "failed to fill whole buffer"
          | some buf =>
            match decodeRecords w seg cnt k buf r with
            | .error e => .error e
            | .ok r' =>
              let r' := { r' with bytes := r.bytes + (stop - start) }
              if cnt < want ∨ r'.bytes ≥ maxBytes then .ok r' else readDisk w s hi maxBytes n r'
    else .ok r

/-- Rounds of `read_entries`: the cache serves what it holds, the files the rest. -/
def readLoop (w : Wire P) (s : LogStore P) (hi maxBytes : Nat) :
    Nat → Reading P → Except String (List (Ent P))
  | 0, r => .ok r.out
  | n + 1, r =>
    if r.idx < hi ∧ r.bytes < maxBytes then
      match s.tail.get r.idx with
      | some (ent, len) =>
        if !r.out.isEmpty ∧ r.bytes + len > maxBytes then .ok r.out
        else
          readLoop w s hi maxBytes n
            { out := r.out ++ [ent], idx := r.idx + 1, bytes := r.bytes + len }
      | none =>
        let stop := s.tail.diskStop r.idx hi
        match readDisk w s stop maxBytes (stop - r.idx) r with
        | .error e => .error e
        | .ok r' => if r'.idx < stop then .ok r'.out else readLoop w s hi maxBytes n r'
    else .ok r.out

/-- The entries from `lo` up to `hi` (all present), stopping at `maxBytes`. -/
def readEntries (w : Wire P) (s : LogStore P) (lo hi maxBytes : Nat) :
    Except String (List (Ent P)) :=
  readLoop w s hi maxBytes (hi - lo) { out := [], idx := lo, bytes := 0 }

def entryId (w : Wire P) (s : LogStore P) (index : Nat) : Except String LogId :=
  match readEntries w s index (index + 1) u64Max with
  | .error e => .error e
  | .ok es =>
    match es.head? with
    | none => .error s!"log index {index} not found"
    | some e => .ok e.logId

/-! ### Writing -/

def modLast (s : LogStore P) (f : Segment → Segment) : LogStore P :=
  { s with segs := s.segs.modify (s.segs.length - 1) f }

/-- A batch on its way: what is buffered for the current segment, and what goes
into the cache when all of it is written. -/
structure Batch (P : Type) where
  store : LogStore P
  buf : Bytes := []
  offs : List Nat := []
  fresh : List (Ent P × Nat) := []

def flush (b : Batch P) : Except String (Batch P) :=
  if b.buf.isEmpty then .ok b
  else
    match b.store.segs.getLast? with
    | none => .error "no current segment"
    | some _ =>
      .ok { b with store := b.store.modLast (Segment.extend · b.buf b.offs), buf := [], offs := [] }

def dropPurgedSegments (s : LogStore P) : LogStore P :=
  match s.purged with
  | none => s
  | some p => { s with segs := abovePurged p s.segs }

/-- The current segment is finished and the next one begins at `idx`. -/
def startSegment (b : Batch P) (idx : Nat) : Except String (Batch P) :=
  match flush b with
  | .error e => .error e
  | .ok b =>
    let new (s : LogStore P) : LogStore P := { s with segs := s.segs ++ [Segment.new idx] }
    match b.store.segs.getLast? with
    | none => .ok { b with store := new b.store }
    | some g =>
      if g.next = idx then .ok { b with store := new b.store }
      else
        -- only when everything in the segments is at or below the purge marker
        let s := b.store.dropPurgedSegments
        match s.segs.getLast? with
        | none => .ok { b with store := new s }
        | some g => .error s!"cannot append index {idx} after segment {segName g.first}"

/-- Whether the current segment cannot take the record. -/
def needNew (b : Batch P) (idx recLen : Nat) : Bool :=
  match b.store.segs.getLast? with
  | none => true
  | some g =>
    g.next + b.offs.length ≠ idx ||
      ((!g.offsets.isEmpty || b.buf.length > 0) &&
        g.endOff + b.buf.length + recLen > b.store.opts.segmentSize)

def appendOne (w : Wire P) (b : Batch P) (ent : Ent P) : Except String (Batch P) :=
  let idx := ent.index
  -- covered by a snapshot
  if b.store.purged.any fun p => idx ≤ p.index then .ok b
  else
    match b.store.nextIndex.filter (· ≠ idx) with
    | some want => .error s!"non-consecutive append: got index {idx}, expected {want}"
    | none => do
      let b ← if needNew b idx (w.recLen ent) then startSegment b idx else .ok b
      if (w.entries.encode ent).length < 2 ^ 32 then
        return { store := { b.store with lastEntry := some ent.logId }
                 buf := b.buf ++ w.record ent
                 offs := b.offs ++ [b.buf.length]
                 fresh := b.fresh ++ [(ent, w.recLen ent)] }
      else .error "record too large"

def append (w : Wire P) (s : LogStore P) (entries : List (Ent P)) :
    Except String (LogStore P) := do
  let b ← entries.foldlM (appendOne w) { store := s }
  let b ← flush b
  return { b.store with tail := b.fresh.foldl (fun t e => t.push e.1 e.2) b.store.tail }

def firstLiveBelow (s : LogStore P) (since : Nat) : Option Nat :=
  match s.segs.head?, s.segs.getLast? with
  | some seg, some last =>
    let lo := s.lowest seg.first
    if lo < since ∧ lo < last.next then some lo else none
  | _, _ => none

/-- The entries at `since` and after go, from the cache and from the segments. -/
def cutAt (s : LogStore P) (since : Nat) : LogStore P :=
  modLast { s with
    tail := s.tail.truncate since
    segs := s.segs.rdropWhile fun g => g.first ≥ since } (Segment.cut · since)

def truncate (w : Wire P) (s : LogStore P) (since : Nat) : Except String (LogStore P) :=
  match s.lastEntry with
  | none => .ok s
  | some last =>
    if since > last.index then .ok s
    else
      match s.purged.filter fun p => since ≤ p.index with
      | some p => .error s!"truncate at {since} is at or below the purged index {p.index}"
      | none =>
        let s := s.cutAt since
        match s.firstLiveBelow since with
        | none => .ok { s with lastEntry := none }
        | some _ =>
          match entryId w s (since - 1) with
          | .error e => .error e
          | .ok id => .ok { s with lastEntry := some id }

def purge (w : Wire P) (s : LogStore P) (upto : LogId) : Except String (LogStore P) :=
  if s.purged.any fun p => p.index ≥ upto.index then .ok s
  else if (w.ids.encode upto).length < 2 ^ 32 then
    .ok (dropPurgedSegments { s with
      purgedFile := some (frame w.crc (w.ids.encode upto))
      purged := some upto
      tail := s.tail.purge upto.index
      lastEntry := s.lastEntry.filter fun l => l.index > upto.index })
  else .error "record too large"

/-! ### What openraft asks -/

inductive Bound where
  | included (x : Nat)
  | excluded (x : Nat)
  | unbounded

/-- The first index a lower bound allows. -/
def Bound.lower : Bound → Nat
  | .included x => x
  | .excluded x => satAdd x 1
  | .unbounded => 0

/-- The first index an upper bound forbids. -/
def Bound.upper : Bound → Nat
  | .included x => satAdd x 1
  | .excluded x => x
  | .unbounded => u64Max

/-- The live entries from `lo` up to `hi`, as many as `maxBytes` allow. -/
def getBetween (w : Wire P) (s : LogStore P) (lo hi maxBytes : Nat) :
    Except String (List (Ent P)) :=
  match s.firstLive, s.lastEntry with
  | some first, some last =>
    let lo := max lo first
    let hi := min hi (last.index + 1)
    if lo ≥ hi then .ok [] else readEntries w s lo hi maxBytes
  | _, _ => .ok []

/-- `try_get_log_entries`. -/
def tryGet (w : Wire P) (s : LogStore P) (lo hi : Bound) : Except String (List (Ent P)) :=
  s.getBetween w lo.lower hi.upper u64Max

/-- `limited_get_log_entries`. -/
def limitedGet (w : Wire P) (s : LogStore P) (start stop : Nat) : Except String (List (Ent P)) :=
  s.getBetween w start stop s.opts.maxReadBytes

/-- `get_log_state`: the purge marker and the last id. -/
def logState (s : LogStore P) : Option LogId × Option LogId :=
  (s.purged, s.lastEntry.or s.purged)

end LogStore

end Beanstalkd.Raft
