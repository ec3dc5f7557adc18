import Beanstalkd.Raft.SnapshotFile
import Beanstalkd.Raft.Types

/-!
# Snapshot files

`crates/raft/src/storage/snapshot.rs`. A snapshot is a file of a header, the payload and
the meta; a file of version 1 has the meta before the payload, and its checksum covers
them in that order. It is written as a temporary file and renamed.

The directory is the snapshot files by their sequence number and the temporary ones by
theirs. `commit` gives its result and the file operations it performs, in their order, so
that a crash is any number of the first of them. The sync of the directory and the removal of
the old file may fail without failing the commit; other system calls that fail, and the
lock, are left out.
-/

open Std

namespace Beanstalkd.Raft

open File

/-- `crc32c_append`, and the meta with its serializer. -/
structure SnapshotWire (M : Type) where
  append : UInt32 → Bytes → UInt32
  encode : M → Bytes
  decode : Bytes → Except String M
  lastLogId : M → Option LogId
  append_append : ∀ a b, append (append 0 a) b = append 0 (a ++ b)
  decode_encode : ∀ m, decode (encode m) = .ok m

variable {M : Type}

/-- `crc32c`. -/
def SnapshotWire.crc (w : SnapshotWire M) (b : Bytes) : UInt32 := w.append 0 b

namespace SnapshotStore

def magic : Bytes := ascii "BSTKSNAP"

def headerLen : Nat := 32

def maxMetaLen : Nat := 2 ^ 20

structure Layout where
  payloadOff : Nat
  payloadLen : Nat
  crcSeed : UInt32
  crcSuffix : Bytes
  crc : UInt32
  deriving DecidableEq

namespace Layout

/-- Whether the checksum after the payload is that of the file. -/
def crcMatches (w : SnapshotWire M) (l : Layout) (payloadCrc : UInt32) : Bool :=
  w.append payloadCrc l.crcSuffix = l.crc

def check (l : Layout) : CrcCheck := ⟨l.crcSeed, l.crcSuffix, l.crc⟩

end Layout

def lens (metaLen payloadLen : Nat) : Bytes := le 8 metaLen ++ le 8 payloadLen

/-- The header of a file. -/
def header (version : Nat) (crc : UInt32) (lens : Bytes) : Bytes :=
  magic ++ le 4 version ++ le 4 crc.toNat ++ lens

/-- The second half of `read_layout`: the meta, where the version says it is. -/
def layoutOf (w : SnapshotWire M) (path : String) (f h : Bytes) (version : Nat) (crc : UInt32)
    (metaLen payloadLen : Nat) : Except IoError (M × Layout) :=
  if version = 2 then
    let m := slice f (headerLen + payloadLen) (headerLen + payloadLen + metaLen)
    match w.decode m with
    | .error e => .error (invalid s!"{path}: snapshot meta: {e}")
    | .ok snapMeta => .ok (snapMeta, ⟨headerLen, payloadLen, 0, m ++ slice h 16 32, crc⟩)
  else if version = 1 then
    let m := slice f headerLen (headerLen + metaLen)
    match w.decode m with
    | .error e => .error (invalid s!"{path}: snapshot meta: {e}")
    | .ok snapMeta =>
      .ok (snapMeta,
        ⟨headerLen + metaLen, payloadLen, w.append (w.crc (slice h 16 32)) m, [], crc⟩)
  else .error (invalid s!"{path}: unsupported snapshot version")

/-- `read_layout`: the header and the meta, never the payload. -/
def readLayout (w : SnapshotWire M) (path : String) (f : Bytes) : Except IoError (M × Layout) :=
  let size := f.length
  if size < headerLen then .error (invalid s!"{path}: bad snapshot header")
  else
    let h := f.take headerLen
    if h.take 8 ≠ magic then .error (invalid s!"{path}: bad snapshot header")
    else
      let metaLen := ofLe (slice h 16 24)
      let payloadLen := ofLe (slice h 24 32)
      if metaLen > maxMetaLen then
        .error (invalid
          s!"{path}: snapshot meta of {metaLen} bytes exceeds the limit of {maxMetaLen}")
      else if headerLen + metaLen + payloadLen ≥ 2 ^ 64 ∨
          headerLen + metaLen + payloadLen ≠ size then
        .error (invalid s!"{path}: snapshot length mismatch")
      else
        layoutOf w path f h (ofLe (slice h 8 12)) (UInt32.ofNat (ofLe (slice h 12 16))) metaLen
          payloadLen

/-- The payload is read in pieces of 1 MiB. -/
def verifyBuf : Nat := 2 ^ 20

/-- The loop of `verify`: the checksum from `off` to the end of the payload. -/
def verifyFrom (w : SnapshotWire M) (f : Bytes) (stop : Nat) :
    Nat → Nat → UInt32 → Except IoError UInt32
  | 0, _, crc => .ok crc
  | fuel + 1, off, crc =>
    if off < stop then
      let n := min verifyBuf (stop - off)
      match readAt f off n with
      | none => .error ⟨.unexpectedEof, "failed to fill whole buffer"⟩
      | some buf => verifyFrom w f stop fuel (off + n) (w.append crc buf)
    else .ok crc

def verify (w : SnapshotWire M) (path : String) (f : Bytes) (l : Layout) : Except IoError Unit := do
  let crc ← verifyFrom w f (l.payloadOff + l.payloadLen) l.payloadLen l.payloadOff l.crcSeed
  if ¬ l.crcMatches w crc then throw (invalid s!"{path}: snapshot checksum mismatch")

end SnapshotStore

open SnapshotStore

/-- The snapshot directory. -/
structure SnapshotDir where
  snaps : ExtTreeMap Nat Bytes
  temps : ExtTreeMap Nat Bytes

inductive OpenError where
  | io (e : IoError)
  | corrupt (what : String)

/-- `snap_name`. -/
def snapName (seq : Nat) : String :=
  let digits := toString seq
  String.ofList (List.replicate (20 - digits.length) '0') ++ digits ++ ".snap"

structure SnapshotStore (M : Type) where
  dir : String
  /-- Meta, sequence number and layout. -/
  current : Option (M × Nat × Layout)
  nextSeq : Nat
  nextTmp : Nat

namespace SnapshotStore

/-- The path of a snapshot file. -/
def path (dir : String) (seq : Nat) : String := s!"{dir}/{snapName seq}"

/-- Damage is corruption; other errors are the system's. -/
def refuse (e : IoError) : OpenError :=
  if e.kind = .invalidData then .corrupt e.message else .io e

/-- `SnapshotStore::open`, and the directory it leaves. -/
def «open» (w : SnapshotWire M) (dir : String) (d : SnapshotDir) :
    Except OpenError (SnapshotStore M × SnapshotDir) :=
  match d.snaps.toList.getLast? with
  | none => .ok (⟨dir, none, 1, 1⟩, ⟨d.snaps, ∅⟩)
  | some (newest, f) =>
    if newest + 1 ≥ 2 ^ 64 then
      .error (.corrupt s!"{snapName newest}: sequence number out of range")
    else
      match readLayout w (path dir newest) f with
      | .error e => .error (refuse e)
      | .ok (snapMeta, layout) =>
        match verify w (path dir newest) f layout with
        | .error e => .error (refuse e)
        | .ok () =>
          .ok (⟨dir, some (snapMeta, newest, layout), newest + 1, 1⟩,
            ⟨(∅ : ExtTreeMap Nat Bytes).insert newest f, ∅⟩)

/-! ## Storing a snapshot -/

inductive FileOp where
  | setLen (tmp n : Nat)
  | write (tmp off : Nat) (data : Bytes)
  | sync (tmp : Nat)
  | rename (tmp seq : Nat)
  | syncDir
  | remove (seq : Nat)
  | removeTemp (tmp : Nat)
  deriving DecidableEq

def FileOp.perform (d : SnapshotDir) : FileOp → SnapshotDir
  | .setLen tmp n => { d with temps := d.temps.modify tmp fun f => File.setLen f n }
  | .write tmp off data => { d with temps := d.temps.modify tmp fun f => writeAt f off data }
  | .sync _ | .syncDir => d
  | .rename tmp seq =>
    match d.temps[tmp]? with
    | none => d
    | some f => { snaps := d.snaps.insert seq f, temps := d.temps.erase tmp }
  | .remove seq => { d with snaps := d.snaps.erase seq }
  | .removeTemp tmp => { d with temps := d.temps.erase tmp }

/-- The order of log ids, `None` being the least. -/
def beyond : Option LogId → Option LogId → Bool
  | none, _ => false
  | some _, none => true
  | some a, some b =>
    decide (b.term < a.term) || (b.term = a.term && (decide (b.node < a.node) ||
      (b.node = a.node && decide (b.index < a.index))))

/-- What becomes of the calls whose failure `commit` only reports. -/
structure Luck where
  dirSynced : Bool
  removed : Bool

/-- `commit` of the temporary file `tmp`: its result, the store after it, and its file
operations. A temporary file that is not kept is removed. -/
def commit (w : SnapshotWire M) (s : SnapshotStore M) (tmp : Nat) (snapMeta : M) (payloadLen : Nat)
    (payloadCrc : UInt32) (installed : Bool) (luck : Luck) :
    Except IoError Bool × SnapshotStore M × List FileOp :=
  if !installed && (s.current.any fun c => beyond (w.lastLogId c.1) (w.lastLogId snapMeta)) then
    (.ok false, s, [.removeTemp tmp])
  else
    let m := w.encode snapMeta
    if m.length > maxMetaLen then
      (.error (invalid s!"snapshot meta of {m.length} bytes exceeds the limit of {maxMetaLen}"), s,
        [.removeTemp tmp])
    else
      let lens := lens m.length payloadLen
      let crc := w.append (w.append payloadCrc m) lens
      let metaOff := headerLen + payloadLen
      let written : List FileOp :=
        [.setLen tmp metaOff, .write tmp metaOff m, .write tmp 0 (header 2 crc lens), .sync tmp]
      let seq := s.nextSeq
      if seq + 1 ≥ 2 ^ 64 then
        (.error (ioOther "snapshot sequence numbers exhausted"), s, written ++ [.removeTemp tmp])
      else
        let layout : Layout := ⟨headerLen, payloadLen, 0, m ++ lens, crc⟩
        let cleanup : List FileOp :=
          match s.current with
          | some (_, old, _) => if luck.dirSynced && luck.removed then [.remove old] else []
          | none => []
        (.ok true, { s with current := some (snapMeta, seq, layout), nextSeq := seq + 1 },
          written ++ [.rename tmp seq, .syncDir] ++ cleanup)

/-- A file of version 1, as earlier versions wrote it. -/
def fileV1 (w : SnapshotWire M) (snapMeta : M) (payload : Bytes) : Bytes :=
  let m := w.encode snapMeta
  let rest := lens m.length payload.length ++ m ++ payload
  magic ++ le 4 1 ++ le 4 (w.crc rest).toNat ++ rest

end SnapshotStore

end Beanstalkd.Raft
