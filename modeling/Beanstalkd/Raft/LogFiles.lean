import Beanstalkd.Lib.Volume
import Beanstalkd.Raft.LogOpen

/-!
# The Raft log on a disk

The file operations of every call of the log store, in program order.

`atomic_write` is one operation here, the rename: its temporary file is read by
nobody, and is synced before. The lock and the commit hint, which is never synced,
are left out, and so are system calls that fail.
-/

namespace Beanstalkd.Raft

open File Volume LogStore

variable {P : Type}

/-- The files that `atomic_write` replaces. -/
inductive ValueFile where
  | purged
  | vote
  deriving DecidableEq

/-- Segment files go by their first index. -/
abbrev LogFileOp := Op Nat ValueFile

abbrev LogVolume := Vol Nat ValueFile

/-- What the log and the vote file leave to libraries. -/
structure VoteWire (P : Type) extends Wire P where
  votes : Codec Vote

/-- The store with the vote it keeps beside the log. -/
structure LogNode (P : Type) where
  store : LogStore P
  vote : Option Vote

/-! ## Opening -/

/-- The directory of the log as a process finds it. -/
def LogVolume.dir (v : LogVolume) : LogDir where
  segs := v.listing.names.map fun first => (first, (v.files first).now)
  purged := v.listing.values .purged

/-- `read_value_file` of the vote. -/
def readVote (w : VoteWire P) : Option Bytes → Except String (Option Vote)
  | none => .ok none
  | some bytes =>
    match parseRecord w.crc bytes with
    | .error why => .error s!"vote: {why.display}"
    | .ok (payload, _) => (w.votes.decode payload).map some

def LogNode.openLog (w : VoteWire P) (opts : LogOptions) (v : LogVolume) :
    Except String (LogNode P) := do
  let vote ← readVote w (v.listing.values .vote)
  let store ← openDir w.toWire opts (LogVolume.dir v)
  return { store, vote }

namespace LogStore

/-- A torn tail is cut off; a segment without a header is removed. -/
def scanSegmentOps (w : Wire P) (first : Nat) (isLast : Bool) (file : Bytes) : List LogFileOp :=
  match scanSegment w first isLast file with
  | .error _ => []
  | .ok none => [.remove first]
  | .ok (some (seg, _)) =>
    if seg.endOff < file.length then [.setLen first seg.endOff, .sync first] else []

def scanSegmentsOps (w : Wire P) : List (Nat × Bytes) → List Segment → List LogFileOp
  | [], _ => []
  | (first, file) :: files, segs =>
    scanSegmentOps w first files.isEmpty file ++
      match scanSegment w first files.isEmpty file with
      | .error _ => []
      | .ok none => scanSegmentsOps w files segs
      | .ok (some (seg, _)) =>
        if seg.offsets.isEmpty then .remove first :: scanSegmentsOps w files segs
        else
          match segs.getLast? with
          | none => scanSegmentsOps w files (segs ++ [seg])
          | some prev => if prev.next ≠ first then [] else scanSegmentsOps w files (segs ++ [seg])

/-- The segments that hold nothing above the marker are removed, oldest first. -/
def dropOps (p : LogId) (segs : List Segment) : List LogFileOp :=
  (segs.takeWhile fun g => g.next ≤ p.index + 1).map fun g => .remove g.first

def isRemove : LogFileOp → Bool
  | .remove _ => true
  | _ => false

/-- The directory is synced if a segment was removed. -/
def syncRemoved (ops : List LogFileOp) : List LogFileOp :=
  ops ++ if ops.any isRemove then [.syncDir] else []

def openOps (w : Wire P) (d : LogDir) : List LogFileOp :=
  let files := d.segs.mergeSort fun a b => a.1 ≤ b.1
  match readPurged w d.purged, scanSegments w files [] none with
  | .error _, _ => []
  | .ok _, .error _ => scanSegmentsOps w files []
  | .ok none, .ok _ => syncRemoved (scanSegmentsOps w files [])
  | .ok (some p), .ok (segs, _) =>
    let ops := scanSegmentsOps w files [] ++ dropOps p segs
    -- a gap is found before the directory is synced
    if (abovePurged p segs).head?.any fun g => g.first > p.index + 1 then ops else syncRemoved ops

/-! ## Writing -/

def newSegmentOps (first : Nat) : List LogFileOp :=
  [.create first, .write first 0 (segHeader first), .sync first, .syncDir]

def flushOps (b : Batch P) : List LogFileOp :=
  if b.buf.isEmpty then []
  else
    match b.store.segs.getLast? with
    | none => []
    | some g => [.write g.first g.endOff b.buf]

def dropPurgedOps (s : LogStore P) : List LogFileOp :=
  match s.purged with
  | none => []
  | some p => syncRemoved (dropOps p s.segs)

/-- The current segment is synced before the next one is created. -/
def startSegmentOps (b : Batch P) (idx : Nat) : List LogFileOp :=
  flushOps b ++
    match flush b with
    | .error _ => []
    | .ok b =>
      match b.store.segs.getLast? with
      | none => newSegmentOps idx
      | some g =>
        .sync g.first ::
          if g.next = idx then newSegmentOps idx
          else
            dropPurgedOps b.store ++
              if b.store.dropPurgedSegments.segs.isEmpty then newSegmentOps idx else []

def appendOneOps (w : Wire P) (b : Batch P) (ent : Ent P) : List LogFileOp :=
  if b.store.purged.any fun p => ent.index ≤ p.index then []
  else
    match b.store.nextIndex.filter (· ≠ ent.index) with
    | some _ => []
    | none => if needNew b ent.index (w.recLen ent) then startSegmentOps b ent.index else []

def appendOps (w : Wire P) : Batch P → List (Ent P) → List LogFileOp
  | b, [] => flushOps b
  | b, ent :: entries =>
    appendOneOps w b ent ++
      match appendOne w b ent with
      | .error _ => []
      | .ok b => appendOps w b entries

/-- The segments from `since` on are removed, newest first. -/
def truncateRemoves (s : LogStore P) (since : Nat) : List LogFileOp :=
  (s.segs.rtakeWhile fun g => g.first ≥ since).reverse.map fun g => .remove g.first

/-- The segment that holds `since` is cut at its record. -/
def truncateCut (s : LogStore P) (since : Nat) : List LogFileOp :=
  match (s.segs.rdropWhile fun g => g.first ≥ since).getLast? with
  | none => []
  | some g =>
    match g.offsets[since - g.first]? with
    | none => []
    | some off => [.setLen g.first off, .sync g.first]

def truncateOps (s : LogStore P) (since : Nat) : List LogFileOp :=
  match s.lastEntry with
  | none => []
  | some last =>
    if since > last.index then []
    else
      match s.purged.filter fun p => since ≤ p.index with
      | some _ => []
      | none => syncRemoved (truncateRemoves s since) ++ truncateCut s since

def purgeOps (w : Wire P) (s : LogStore P) (upto : LogId) : List LogFileOp :=
  if s.purged.any fun p => p.index ≥ upto.index then []
  else if (w.ids.encode upto).length < 2 ^ 32 then
    [.replace .purged (frame w.crc (w.ids.encode upto)), .syncDir] ++
      dropPurgedOps { s with purged := some upto }
  else []

end LogStore

/-! ## Calls -/

/-- The calls of the open store that write. -/
inductive LogCall (P : Type) where
  | append (entries : List (Ent P))
  | truncate (since : LogId)
  | purge (upto : LogId)
  | saveVote (vote : Vote)

namespace LogNode

def exec (w : VoteWire P) (n : LogNode P) : LogCall P → Except String (LogNode P)
  | .append entries => (n.store.append w.toWire entries).map fun s => { n with store := s }
  | .truncate since => (n.store.truncate w.toWire since.index).map fun s => { n with store := s }
  | .purge upto => (n.store.purge w.toWire upto).map fun s => { n with store := s }
  | .saveVote vote =>
    if (w.votes.encode vote).length < 2 ^ 32 then .ok { n with vote := some vote }
    else .error "record too large"

def ops (w : VoteWire P) (n : LogNode P) : LogCall P → List LogFileOp
  | .append entries => appendOps w.toWire { store := n.store } entries
  | .truncate since => truncateOps n.store since.index
  | .purge upto => purgeOps w.toWire n.store upto
  | .saveVote vote =>
    if (w.votes.encode vote).length < 2 ^ 32 then
      [.replace .vote (frame w.crc (w.votes.encode vote)), .syncDir]
    else []

end LogNode

/-- How openraft uses the store. -/
def LogCall.Issued (w : VoteWire P) (a : AbstractLog P) : LogCall P → Prop
  | .append entries => a.Issued w.toWire (.append entries)
  | .truncate since => a.Issued w.toWire (.truncate since)
  | .purge upto => a.Issued w.toWire (.purge upto)
  | .saveVote vote => (w.votes.encode vote).length < 2 ^ 32

instance (w : VoteWire P) (a : AbstractLog P) (c : LogCall P) : Decidable (c.Issued w a) :=
  match c with
  | .append entries => inferInstanceAs (Decidable (a.Issued w.toWire (.append entries)))
  | .truncate since => inferInstanceAs (Decidable (a.Issued w.toWire (.truncate since)))
  | .purge upto => inferInstanceAs (Decidable (a.Issued w.toWire (.purge upto)))
  | .saveVote _ => inferInstanceAs (Decidable (_ < _))

end Beanstalkd.Raft
