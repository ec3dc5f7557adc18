import Beanstalkd.Raft.SnapshotStore

/-!
# Snapshot files are read back

The file of a snapshot, in both versions, and what `read_layout`, `verify` and the
reader of its payload make of it.

All three compute the checksum in pieces, each beginning somewhere else: `Reached w c x`
says that `c` is the state after the bytes `x`, whatever pieces led there.
-/

namespace Beanstalkd.Raft

open File AsyncFile

variable {M : Type} {w : SnapshotWire M}

/-! ## Checksums in pieces -/

/-- The state of the checksum after these bytes. -/
def SnapshotWire.Reached (w : SnapshotWire M) (c : UInt32) (x : Bytes) : Prop :=
  ∀ b, w.append c b = w.crc (x ++ b)

namespace SnapshotWire

variable {w : SnapshotWire M} {c : UInt32} {x : Bytes}

theorem reached_zero : w.Reached 0 [] := fun _ => rfl

theorem reached_crc : w.Reached (w.crc x) x := fun b => w.append_append x b

theorem Reached.append (h : w.Reached c x) (y : Bytes) : w.Reached (w.append c y) (x ++ y) := by
  intro b
  rw [h y, crc, w.append_append, crc]

end SnapshotWire

/-! ## Files -/

open SnapshotStore

/-- A meta and a payload that fit a file. -/
structure Snapshot (w : SnapshotWire M) where
  snapMeta : M
  payload : Bytes
  small : (w.encode snapMeta).length ≤ maxMetaLen
  fits : headerLen + (w.encode snapMeta).length + payload.length < 2 ^ 64

namespace Snapshot

variable {w : SnapshotWire M}

def encoded (s : Snapshot w) : Bytes := w.encode s.snapMeta

def lens (s : Snapshot w) : Bytes := SnapshotStore.lens s.encoded.length s.payload.length

def crc (s : Snapshot w) : UInt32 := w.crc (s.payload ++ (s.encoded ++ s.lens))

/-- The file `commit` writes. -/
def file (s : Snapshot w) : Bytes := header 2 s.crc s.lens ++ (s.payload ++ s.encoded)

def layout (s : Snapshot w) : Layout where
  payloadOff := headerLen
  payloadLen := s.payload.length
  crcSeed := 0
  crcSuffix := s.encoded ++ s.lens
  crc := s.crc

def crcV1 (s : Snapshot w) : UInt32 := w.crc (s.lens ++ s.encoded ++ s.payload)

def layoutV1 (s : Snapshot w) : Layout where
  payloadOff := headerLen + s.encoded.length
  payloadLen := s.payload.length
  crcSeed := w.append (w.crc s.lens) s.encoded
  crcSuffix := []
  crc := s.crcV1

/-- The file with other bytes for the payload. -/
def fileWith (s : Snapshot w) (p : Bytes) : Bytes := header 2 s.crc s.lens ++ (p ++ s.encoded)

def fileV1With (s : Snapshot w) (p : Bytes) : Bytes := header 1 s.crcV1 s.lens ++ (s.encoded ++ p)

theorem fileV1_eq (s : Snapshot w) : fileV1 w s.snapMeta s.payload = s.fileV1With s.payload := by
  simp only [fileV1, fileV1With, header, crcV1, lens, encoded, List.append_assoc]

theorem length_lens (s : Snapshot w) : s.lens.length = 16 := by
  simp only [lens, SnapshotStore.lens, List.length_append, length_le]

theorem length_header {version : Nat} {crc : UInt32} (s : Snapshot w) :
    (header version crc s.lens).length = headerLen := by
  rfl

end Snapshot

/-- A part of a file, found by its offsets. -/
theorem slice_mid {a b c : Bytes} {n m : Nat} (hn : a.length = n) (hm : n + b.length = m) :
    slice (a ++ (b ++ c)) n m = b := by
  have hlen : m - n = b.length := by omega
  rw [slice, List.drop_left' hn, hlen, List.take_left]

theorem slice_right {a b : Bytes} {n m : Nat} (hn : a.length = n) (hm : n + b.length = m) :
    slice (a ++ b) n m = b := by
  have h := slice_mid (c := []) hn hm
  rwa [List.append_nil] at h

/-- The fields of a header. -/
theorem header_fields {version metaLen payloadLen : Nat} {c : UInt32} (hv : version < 2 ^ 32)
    (hm : metaLen < 2 ^ 64) (hp : payloadLen < 2 ^ 64) :
    let h := header version c (SnapshotStore.lens metaLen payloadLen)
    h.take 8 = magic ∧ ofLe (slice h 8 12) = version ∧ ofLe (slice h 12 16) = c.toNat ∧
      ofLe (slice h 16 24) = metaLen ∧ ofLe (slice h 24 32) = payloadLen := by
  have hmagic : magic.length = 8 := rfl
  simp only [header, SnapshotStore.lens]
  refine ⟨?_, ?_, ?_, ?_, ?_⟩
  · exact List.take_left' hmagic
  · simp only [List.append_assoc]
    rw [slice_mid hmagic (by rw [length_le]), ofLe_le hv]
  · rw [List.append_assoc (magic ++ le 4 version), slice_mid (by simp [hmagic]) (by simp),
      ofLe_le c.toNat_lt]
  · rw [slice_mid (by simp [hmagic]) (by simp), ofLe_le hm]
  · rw [← List.append_assoc, slice_right (by simp [hmagic]) (by simp), ofLe_le hp]

namespace Snapshot

variable {w : SnapshotWire M} {p : Bytes}

theorem lt_of_fits (s : Snapshot w) :
    s.encoded.length < 2 ^ 64 ∧ s.payload.length < 2 ^ 64 := by
  have hfits : headerLen + s.encoded.length + s.payload.length < 2 ^ 64 := s.fits
  omega

/-- What `read_layout` finds in the header. -/
theorem readLayout_eq (s : Snapshot w) (path : String) {version : Nat} {crc : UInt32} {rest : Bytes}
    (hv : version < 2 ^ 32) (hrest : rest.length = s.encoded.length + s.payload.length) :
    readLayout w path (header version crc s.lens ++ rest) =
      layoutOf w path (header version crc s.lens ++ rest) (header version crc s.lens) version crc
        s.encoded.length s.payload.length := by
  obtain ⟨hm, hp⟩ := s.lt_of_fits
  have hfields := header_fields (c := crc) hv hm hp
  have hl : SnapshotStore.lens s.encoded.length s.payload.length = s.lens := rfl
  rw [hl] at hfields
  obtain ⟨hmagic, hversion, hcrc, hmeta, hpayload⟩ := hfields
  have hsize : (header version crc s.lens ++ rest).length =
      headerLen + s.encoded.length + s.payload.length := by
    rw [List.length_append, s.length_header, hrest, Nat.add_assoc]
  have htake : (header version crc s.lens ++ rest).take headerLen = header version crc s.lens :=
    List.take_left' s.length_header
  have hsmall : ¬ s.encoded.length > maxMetaLen := Nat.not_lt.mpr s.small
  have hfits : ¬ (headerLen + s.encoded.length + s.payload.length ≥ 2 ^ 64 ∨
      headerLen + s.encoded.length + s.payload.length ≠
        headerLen + s.encoded.length + s.payload.length) := by
    have := s.fits
    rintro (h | h)
    · exact absurd h (Nat.not_le.mpr this)
    · exact h rfl
  unfold readLayout
  simp only [hsize, htake]
  rw [if_neg (by omega), if_neg (not_not_intro hmagic)]
  simp only [hversion, hcrc, hmeta, hpayload]
  rw [if_neg hsmall, if_neg hfits, UInt32.ofNat_toNat]

theorem slice_header {version : Nat} {crc : UInt32} (s : Snapshot w) :
    slice (header version crc s.lens) 16 32 = s.lens :=
  slice_right (by simp [show magic.length = 8 from rfl]) (by rw [s.length_lens])

theorem readLayout_fileWith (s : Snapshot w) (path : String) (hp : p.length = s.payload.length) :
    readLayout w path (s.fileWith p) = .ok (s.snapMeta, s.layout) := by
  have hm : slice (s.fileWith p) (headerLen + s.payload.length)
      (headerLen + s.payload.length + s.encoded.length) = s.encoded := by
    rw [fileWith, ← List.append_assoc]
    exact slice_right (by rw [List.length_append, s.length_header, hp]) rfl
  rw [fileWith, s.readLayout_eq path (by decide) (by rw [List.length_append, hp, Nat.add_comm]),
    ← fileWith, layoutOf, if_pos rfl]
  simp only
  rw [hm, s.slice_header, encoded, w.decode_encode]
  rfl

theorem readLayout_fileV1With (s : Snapshot w) (path : String) (hp : p.length = s.payload.length) :
    readLayout w path (s.fileV1With p) = .ok (s.snapMeta, s.layoutV1) := by
  have hm : slice (s.fileV1With p) headerLen (headerLen + s.encoded.length) = s.encoded :=
    slice_mid s.length_header rfl
  rw [fileV1With, s.readLayout_eq path (by decide) (by rw [List.length_append, hp]), ← fileV1With,
    layoutOf, if_neg (by decide), if_pos rfl]
  simp only
  rw [hm, s.slice_header, encoded, w.decode_encode]
  rfl

/-- Where the payload is. -/
theorem slice_fileWith (s : Snapshot w) (hp : p.length = s.payload.length) :
    slice (s.fileWith p) headerLen (headerLen + s.payload.length) = p :=
  slice_mid s.length_header (by rw [hp])

theorem slice_fileV1With (s : Snapshot w) (hp : p.length = s.payload.length) :
    slice (s.fileV1With p) (headerLen + s.encoded.length)
      (headerLen + s.encoded.length + s.payload.length) = p := by
  rw [fileV1With, ← List.append_assoc]
  exact slice_right (by rw [List.length_append, s.length_header]) (by rw [hp])

theorem reached_seedV1 (s : Snapshot w) : w.Reached s.layoutV1.crcSeed (s.lens ++ s.encoded) :=
  SnapshotWire.reached_crc.append s.encoded

end Snapshot

/-! ## `verify` -/

section Verify

variable {w : SnapshotWire M} {f x : Bytes} {c : UInt32} {off stop : Nat}

/-- The loop reads to the end of the payload. -/
theorem verifyFrom_reached (fuel : Nat) :
    ∀ (off : Nat) {c : UInt32} {x : Bytes}, off ≤ stop → stop ≤ f.length → stop - off ≤ fuel →
      w.Reached c x →
      ∃ c', verifyFrom w f stop fuel off c = .ok c' ∧ w.Reached c' (x ++ slice f off stop) := by
  induction fuel with
  | zero =>
    intro off c x hle hstop hfuel hc
    refine ⟨c, rfl, ?_⟩
    rw [slice, Nat.eq_zero_of_le_zero hfuel, List.take_zero, List.append_nil]
    exact hc
  | succ fuel ih =>
    intro off c x hle hstop hfuel hc
    by_cases hlt : off < stop
    · obtain ⟨n, hn⟩ : ∃ n, n = min verifyBuf (stop - off) := ⟨_, rfl⟩
      have hpos : 0 < n := by
        rw [hn]
        exact Nat.lt_min.mpr ⟨by decide, by omega⟩
      have hread : readAt f off n = some ((f.drop off).take n) := if_pos (by omega)
      obtain ⟨c', hrun, hreached⟩ := ih (off + n) (by omega) hstop (by omega)
        (hc.append ((f.drop off).take n))
      refine ⟨c', ?_, ?_⟩
      · rw [verifyFrom, if_pos hlt]
        simp only
        rw [← hn, hread]
        exact hrun
      · have hjoin : (f.drop off).take n ++ slice f (off + n) stop = slice f off stop := by
          have hsum : stop - off = n + (stop - (off + n)) := by omega
          rw [slice, slice, hsum, List.take_add, List.drop_drop]
        rw [List.append_assoc, hjoin] at hreached
        exact hreached
    · refine ⟨c, by rw [verifyFrom, if_neg hlt], ?_⟩
      rw [slice, show stop - off = 0 by omega, List.take_zero, List.append_nil]
      exact hc

/-- A payload whose checksum is that of the layout is accepted. -/
theorem verify_ok {l : Layout} {seed p : Bytes} (path : String)
    (hp : slice f l.payloadOff (l.payloadOff + l.payloadLen) = p)
    (hlen : l.payloadOff + l.payloadLen ≤ f.length) (hseed : w.Reached l.crcSeed seed)
    (hcrc : w.crc (seed ++ p ++ l.crcSuffix) = l.crc) : verify w path f l = .ok () := by
  obtain ⟨c, hrun, hreached⟩ := verifyFrom_reached l.payloadLen
    l.payloadOff (Nat.le_add_right ..) hlen (by omega) hseed
  rw [hp] at hreached
  have hmatch : l.crcMatches w c = true := by
    rw [Layout.crcMatches, hreached, hcrc]
    exact decide_eq_true rfl
  rw [verify, hrun]
  show (if ¬ l.crcMatches w c = true then _ else _) = _
  rw [if_neg (not_not_intro hmatch)]
  rfl

end Verify

theorem Snapshot.verify_file (s : Snapshot w) (path : String) :
    verify w path s.file s.layout = .ok () := by
  have hlen : headerLen + s.payload.length ≤ s.file.length := by
    rw [Snapshot.file, List.length_append, s.length_header, List.length_append]
    omega
  refine verify_ok path (s.slice_fileWith rfl) hlen SnapshotWire.reached_zero ?_
  rfl

theorem Snapshot.verify_fileV1 (s : Snapshot w) (path : String) :
    verify w path (s.fileV1With s.payload) s.layoutV1 = .ok () := by
  have hlen : headerLen + s.encoded.length + s.payload.length ≤
      (s.fileV1With s.payload).length := by
    rw [Snapshot.fileV1With, List.length_append, s.length_header, List.length_append]
    omega
  refine verify_ok path (s.slice_fileV1With rfl) hlen s.reached_seedV1 ?_
  show w.crc (s.lens ++ s.encoded ++ s.payload ++ []) = _
  rw [List.append_nil]
  rfl

/-! ## The reader of the payload -/

namespace SnapshotFile

/-- A read into a buffer of some size, of which the file gives as many bytes as it likes, or
a seek back. -/
inductive ReadOp where
  | read (remaining n : Nat)
  | back (target : Nat)

/-- A read: where, how much was asked for, what came, and where the reader is then. -/
structure Delivery where
  start : Nat
  asked : Nat
  result : Poll (Except IoError Bytes)
  next : Nat

/-- The reads of a sequence of reads and backward seeks. -/
def deliver (append : UInt32 → Bytes → UInt32) : SnapshotFile → List ReadOp → List Delivery
  | _, [] => []
  | s, .read remaining n :: ops =>
    let (s', result) := s.pollRead append remaining none (.gives n)
    ⟨s.pos, remaining, result, s'.pos⟩ :: s'.deliver append ops
  | s, .back target :: ops =>
    if target ≤ s.pos then (s.seek (.start target) .done .done none).1.deliver append ops
    else s.deliver append ops

/-- A reader of the payload `p`, of which it has read some in order; `seed` is what the checksum
covers before the payload. -/
structure Reading (w : SnapshotWire M) (seed p suffix : Bytes) (expect : UInt32)
    (s : SnapshotFile) : Prop where
  window : slice s.file.bytes s.base (s.base + s.len) = p
  len : s.len = p.length
  idle : s.file.busy = none
  seeking : s.seeking = false
  pos_le : s.pos ≤ s.checked
  checked_le : s.checked ≤ s.len
  check : ∃ c, s.check = some ⟨c, suffix, expect⟩ ∧ w.Reached c (seed ++ p.take s.checked)
  placed : s.damaged = false → s.file.cursor = s.base + s.pos
  whole : s.damaged = false → 0 < s.len → s.checked = s.len →
    w.crc (seed ++ p ++ suffix) = expect
  damage : s.damaged = true → w.crc (seed ++ p ++ suffix) ≠ expect ∧ s.pos < s.len

variable {w : SnapshotWire M} {seed p suffix : Bytes} {expect : UInt32} {s : SnapshotFile}

/-- What a read finds at the position. -/
theorem Reading.fetch (h : s.Reading w seed p suffix expect) (hsound : s.damaged = false) {k : Nat}
    (hk : k ≤ s.len - s.pos) :
    (s.file.bytes.drop s.file.cursor).take k = (p.drop s.pos).take k := by
  have hwindow : p.drop s.pos = (s.file.bytes.drop s.file.cursor).take (s.len - s.pos) := by
    rw [← h.window, slice, Nat.add_sub_cancel_left, List.drop_take, List.drop_drop, h.placed hsound]
  rw [hwindow, List.take_take, Nat.min_eq_left hk]

/-- The bytes of a read that were not read before. -/
theorem take_append_fresh {pos checked k : Nat} (hpos : pos ≤ checked) (hk : checked ≤ pos + k)
    (p : Bytes) :
    p.take checked ++ ((p.drop pos).take k).drop (checked - pos) = p.take (pos + k) := by
  have hsum : pos + k = checked + (pos + k - checked) := by omega
  have hdrop : ((p.drop pos).take k).drop (checked - pos) =
      (p.drop checked).take (pos + k - checked) := by
    rw [List.drop_take, List.drop_drop]
    congr 1
    · omega
    · congr 1
      omega
  rw [hdrop]
  conv_rhs => rw [hsum, List.take_add]

/-- The reader has gone on, and found nothing wrong. -/
theorem Reading.goes (h : s.Reading w seed p suffix expect) {f : AsyncFile} {c : UInt32}
    {pos checked : Nat} (hwindow : slice f.bytes s.base (s.base + s.len) = p)
      (hidle : f.busy = none)
    (hcursor : f.cursor = s.base + pos) (hpos : pos ≤ checked) (hle : checked ≤ s.len)
    (hreached : w.Reached c (seed ++ p.take checked))
    (hwhole : 0 < s.len → checked = s.len → w.crc (seed ++ p ++ suffix) = expect) :
    ({ s with file := f, pos := pos, check := some ⟨c, suffix, expect⟩, checked := checked,
              damaged := false } : SnapshotFile).Reading w seed p suffix expect :=
  { h with
    window := hwindow
    idle := hidle
    pos_le := hpos
    checked_le := hle
    check := ⟨c, rfl, hreached⟩
    placed := fun _ => hcursor
    whole := fun _ => hwhole
    damage := nofun }

/-- A piece of the payload is checked: the reader is past it, or has found the damage. -/
theorem Reading.verify (h : s.Reading w seed p suffix expect) (hsound : s.damaged = false) {k : Nat}
    (hk : 0 < k) (hle : s.pos + k ≤ s.len) {f : AsyncFile}
    (hwindow : slice f.bytes s.base (s.base + s.len) = p) (hidle : f.busy = none)
    (hcursor : f.cursor = s.base + (s.pos + k)) :
    (∃ s', ({ s with file := f } : SnapshotFile).verify w.append s.pos ((p.drop s.pos).take k) =
        (s', .ok ()) ∧
      ({ s' with pos := s'.pos + k } : SnapshotFile).Reading w seed p suffix expect ∧
        s'.pos = s.pos ∧ s'.damaged = false) ∨
      ∃ s' e, ({ s with file := f } : SnapshotFile).verify w.append s.pos ((p.drop s.pos).take k) =
        (s', .error e) ∧ s'.Reading w seed p suffix expect ∧
        w.crc (seed ++ p ++ suffix) ≠ expect := by
  obtain ⟨c, hcheck, hreached⟩ := h.check
  have hlen : ((p.drop s.pos).take k).length = k := by
    rw [List.length_take, List.length_drop, ← h.len]
    omega
  have hstart : ¬ s.pos > s.checked := Nat.not_lt.mpr h.pos_le
  unfold SnapshotFile.verify
  simp only [hcheck, hsound, hlen]
  rw [if_neg Bool.false_ne_true, if_neg hstart]
  by_cases hnew : s.pos + k > s.checked
  · rw [if_pos hnew]
    obtain ⟨c', hc'⟩ : ∃ c', c' = w.append c (((p.drop s.pos).take k).drop (s.checked - s.pos)) :=
      ⟨_, rfl⟩
    have hreached' : w.Reached c' (seed ++ p.take (s.pos + k)) := by
      have := hreached.append (((p.drop s.pos).take k).drop (s.checked - s.pos))
      rw [List.append_assoc, take_append_fresh h.pos_le (Nat.le_of_lt hnew), ← hc'] at this
      exact this
    rw [← hc']
    by_cases hend : s.pos + k = s.len
    · have hall : p.take (s.pos + k) = p := List.take_of_length_le (by rw [hend, h.len])
      have hsum : w.append c' suffix = w.crc (seed ++ p ++ suffix) := by
        rw [hreached', hall]
      by_cases hgood : w.crc (seed ++ p ++ suffix) = expect
      · left
        refine ⟨_, if_neg fun hc => hc.2 (hsum.trans hgood), ?_, rfl, rfl⟩
        exact h.goes hwindow hidle hcursor (Nat.le_refl _) hle hreached' fun _ _ => hgood
      right
      refine ⟨_, _, if_pos ⟨hend, fun hc => hgood (hsum.symm.trans hc)⟩, ?_, hgood⟩
      exact { h with
        window := hwindow
        idle := hidle
        pos_le := Nat.le_add_right ..
        checked_le := hle
        check := ⟨c', rfl, hreached'⟩
        placed := nofun
        whole := nofun
        damage := fun _ => ⟨hgood, show s.pos < s.len by omega⟩ }
    · left
      refine ⟨_, if_neg fun hc => hend hc.1, ?_, rfl, rfl⟩
      exact h.goes hwindow hidle hcursor (Nat.le_refl _) hle hreached' fun _ hc => absurd hc hend
  · left
    rw [if_neg hnew]
    refine ⟨_, rfl, ?_, rfl, rfl⟩
    exact h.goes hwindow hidle hcursor (Nat.not_lt.mp hnew) h.checked_le hreached (h.whole hsound)

/-- Once the checksum did not match, nothing passes. -/
theorem verify_of_damaged {append : UInt32 → Bytes → UInt32} {c : CrcCheck} {start : Nat}
    {bytes : Bytes} (f : AsyncFile) (hcheck : s.check = some c) (hdamaged : s.damaged = true) :
    ({ s with file := f } : SnapshotFile).verify append start bytes =
      ({ s with file := f }, .error (invalid "snapshot file checksum mismatch")) := by
  unfold SnapshotFile.verify
  simp only [hcheck, hdamaged, if_true]

/-- A read: it gives what is at the position, or finds damage that is there. -/
theorem Reading.pollRead (h : s.Reading w seed p suffix expect) (remaining n : Nat) :
    ∃ s' result, s.pollRead w.append remaining none (.gives n) = (s', .ready result) ∧
      s'.Reading w seed p suffix expect ∧
      ((∃ data, result = .ok data ∧ data <+: p.drop s.pos ∧ s'.pos = s.pos + data.length ∧
          (data = [] → s.pos = s.len ∨ remaining = 0) ∧ (data ≠ [] → s'.damaged = false)) ∨
        (∃ e, result = .error e) ∧ w.crc (seed ++ p ++ suffix) ≠ expect) := by
  have hpos := Nat.le_trans h.pos_le h.checked_le
  unfold SnapshotFile.pollRead
  by_cases hnone : s.len - s.pos = 0 ∨ remaining = 0
  · simp only [if_pos hnone]
    refine ⟨s, .ok [], rfl, h, .inl ⟨[], rfl, List.nil_prefix, rfl, fun _ => ?_, fun hne => ?_⟩⟩
    · exact hnone.imp (by omega) id
    · exact absurd rfl hne
  simp only [if_neg hnone, pollRead_of_idle h.idle, AsyncFile.fetch]
  -- so many bytes are asked of the file and there, if the position is known
  generalize hk : min (min remaining (s.len - s.pos)) (Max.max n 1) = k
  have hkpos : 0 < k := by omega
  have hkle : k ≤ s.len - s.pos := by omega
  rcases Bool.eq_false_or_eq_true s.damaged with hdamaged | hdamaged
  · -- wherever the file is read, nothing is delivered any more
    obtain ⟨hbad, -⟩ := h.damage hdamaged
    obtain ⟨c, hcheck, -⟩ := h.check
    have hstay (cursor : Nat) : ({ s with file := { s.file with cursor } } : SnapshotFile).Reading w
        seed p suffix expect :=
      { h with placed := fun hd => absurd (hdamaged.symm.trans hd) nofun }
    split
    · exact ⟨_, .error _, rfl, hstay _, .inr ⟨⟨_, rfl⟩, hbad⟩⟩
    · rw [verify_of_damaged _ hcheck hdamaged]
      exact ⟨_, .error _, rfl, hstay _, .inr ⟨⟨_, rfl⟩, hbad⟩⟩
  · have hdata := h.fetch hdamaged hkle
    have hlen : ((p.drop s.pos).take k).length = k := by
      rw [List.length_take, List.length_drop, ← h.len]
      omega
    have hverify := h.verify hdamaged
      (f := ⟨s.file.bytes, s.file.cursor + k, s.file.busy, s.file.writeErr, s.file.pos⟩) hkpos
      (by omega) h.window h.idle (by rw [h.placed hdamaged, Nat.add_assoc])
    rw [hdata]
    simp only [hlen]
    rw [if_neg (by omega)]
    rcases hverify with ⟨s', heq, hs', hsame, hfine⟩ | ⟨s', e, heq, hs', hbad⟩
    · rw [heq]
      refine ⟨_, .ok _, rfl, hs',
        .inl ⟨_, rfl, List.take_prefix .., ?_, fun hnil => ?_, fun _ => hfine⟩⟩
      · rw [hlen, ← hsame]
      · rw [hnil] at hlen
        exact absurd hlen (Nat.ne_of_lt hkpos)
    · rw [heq]
      exact ⟨s', .error e, rfl, hs', .inr ⟨⟨e, rfl⟩, hbad⟩⟩

/-- A seek back to a place that was read. -/
theorem Reading.back (h : s.Reading w seed p suffix expect) {t : Nat} (ht : t ≤ s.pos) :
    (s.seek (.start t) .done .done none).1.Reading w seed p suffix expect ∧
      (s.seek (.start t) .done .done none).1.pos = t := by
  have hlen := Nat.le_trans ht (Nat.le_trans h.pos_le h.checked_le)
  have hfirst : s.pollComplete (some .done) = (s, .ready (.ok s.pos)) := by
    unfold SnapshotFile.pollComplete
    rw [pollComplete_of_idle h.idle, h.seeking]
    simp only [if_neg Bool.false_ne_true]
    rw [← h.seeking]
  have hin : ¬ ¬ (0 ≤ s.target (.start t) ∧ s.target (.start t) ≤ (s.len : Int)) :=
    not_not_intro ⟨Int.natCast_nonneg t, Int.ofNat_le.mpr hlen⟩
  have hto : (s.target (.start t)).toNat = t := rfl
  rw [SnapshotFile.seek, hfirst]
  unfold SnapshotFile.startSeek
  simp only
  rw [if_neg hin, hto, startSeek_of_idle h.idle]
  simp only
  unfold SnapshotFile.pollComplete
  rw [pollComplete_of_seek rfl]
  simp only [if_true]
  rw [if_neg (by omega)]
  have hback : s.base + t - s.base = t := Nat.add_sub_cancel_left ..
  refine ⟨?_, hback⟩
  exact { h with
    idle := rfl
    seeking := rfl
    pos_le := Nat.le_trans (Nat.le_of_eq hback) (Nat.le_trans ht h.pos_le)
    placed := fun _ => congrArg (s.base + ·) hback.symm
    damage := fun hd => by
      obtain ⟨hbad, hshort⟩ := h.damage hd
      exact ⟨hbad, Nat.lt_of_le_of_lt (Nat.le_trans (Nat.le_of_eq hback) ht) hshort⟩ }

/-! ## Whole sequences -/

/-- From a sound file, every read gives what is at its position. -/
theorem Reading.deliver_good (ops : List ReadOp) :
    ∀ {s : SnapshotFile}, s.Reading w seed p suffix expect →
      w.crc (seed ++ p ++ suffix) = expect →
      ∀ d ∈ s.deliver w.append ops, ∃ data, d.result = .ready (.ok data) ∧ data <+: p.drop d.start ∧
        d.next = d.start + data.length ∧ (data = [] → d.start = p.length ∨ d.asked = 0) := by
  induction ops with
  | nil => intro s _ _ d hd; cases hd
  | cons op ops ih =>
    intro s h hgood d hd
    cases op with
    | read remaining n =>
      obtain ⟨s', result, heq, hs', hcases⟩ := h.pollRead remaining n
      rw [deliver, heq] at hd
      rcases List.mem_cons.mp hd with rfl | hd
      · rcases hcases with ⟨data, rfl, hpre, hnext, hend, -⟩ | ⟨-, hbad⟩
        · exact ⟨data, rfl, hpre, hnext, fun hnil => h.len ▸ hend hnil⟩
        · exact absurd hgood hbad
      · exact ih hs' hgood d hd
    | back t =>
      rw [deliver] at hd
      split at hd
      next ht => exact ih (h.back ht).1 hgood d hd
      · exact ih h hgood d hd

/-- From a damaged file, no read gets to the end. -/
theorem Reading.deliver_bad (ops : List ReadOp) :
    ∀ {s : SnapshotFile}, s.Reading w seed p suffix expect →
      w.crc (seed ++ p ++ suffix) ≠ expect → 0 < p.length →
      ∀ d ∈ s.deliver w.append ops, ∀ data, d.result = .ready (.ok data) →
        d.start + data.length < p.length := by
  induction ops with
  | nil => intro s _ _ _ d hd; cases hd
  | cons op ops ih =>
    intro s h hbad hpos d hd data hdata
    -- the position is never at the end: it would have been checked
    have hshort : ∀ {s : SnapshotFile}, s.Reading w seed p suffix expect → s.pos < p.length := by
      intro s h
      rw [← h.len]
      cases hdamaged : s.damaged with
      | true => exact (h.damage hdamaged).2
      | false =>
        refine Nat.lt_of_le_of_lt h.pos_le (Nat.lt_of_le_of_ne h.checked_le fun hall => ?_)
        exact hbad (h.whole hdamaged (h.len ▸ hpos) hall)
    cases op with
    | read remaining n =>
      obtain ⟨s', result, heq, hs', hcases⟩ := h.pollRead remaining n
      rw [deliver, heq] at hd
      rcases List.mem_cons.mp hd with rfl | hd
      · rcases hcases with ⟨got, rfl, -, hnext, -⟩ | ⟨⟨e, rfl⟩, -⟩
        · cases hdata
          exact hnext ▸ hshort hs'
        · cases hdata
      · exact ih hs' hbad hpos d hd data hdata
    | back t =>
      rw [deliver] at hd
      split at hd
      next ht => exact ih (h.back ht).1 hbad hpos d hd data hdata
      · exact ih h hbad hpos d hd data hdata

end SnapshotFile

/-- The reader of a file with a layout is at its beginning. -/
theorem reading_start {f seed p : Bytes} {l : Layout}
    (hp : slice f l.payloadOff (l.payloadOff + l.payloadLen) = p) (hlen : p.length = l.payloadLen)
    (hseed : w.Reached l.crcSeed seed) :
    (SnapshotFile.reader f l.payloadOff l.payloadLen (some l.check)).Reading w seed p l.crcSuffix
      l.crc where
  window := hp
  len := hlen.symm
  idle := rfl
  seeking := rfl
  pos_le := Nat.le_refl _
  checked_le := Nat.zero_le _
  check := ⟨l.crcSeed, rfl, by rw [show (SnapshotFile.reader f l.payloadOff l.payloadLen
    (some l.check)).checked = 0 from rfl, List.take_zero, List.append_nil]; exact hseed⟩
  placed _ := rfl
  whole _ hpos hall := absurd (show 0 = l.payloadLen from hall) (Nat.ne_of_lt hpos)
  damage := nofun

end Beanstalkd.Raft
