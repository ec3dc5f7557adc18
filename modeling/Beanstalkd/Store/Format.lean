import Beanstalkd.Lib.File
import Beanstalkd.Engine.Model

/-!
# The on-disk format of the binlog

`crates/store/src/format.rs`: a segment file is a 16-byte header and framed
records, zero-filled up to its preallocated size; a record is a Put, an Update or
a Delete. A parsed record (`Rec`) has the data of the journal entry it was
written from, so both are `JournalEntry`. The checksum is a parameter.

What an entry encodes to is read back (`parse_frame`), when its numbers fit
their fields: they are `u32` and `u64` values in the source, and job ids are at
most `MAX_RECORD_ID`. So is a file of records and its zero padding
(`records_round_trip`).
-/

namespace Beanstalkd.Store

open File

def magic : Bytes := ascii "BSTKWAL" ++ [0]

def version : Nat := 1

def segHeaderLen : Nat := 16

def jobRecLen : Nat := 57

/-- Largest job id a record may carry. -/
def maxRecordId : JobId := 2 ^ 62 - 1

def kindPut : UInt8 := 1

def kindUpdate : UInt8 := 2

def kindDelete : UInt8 := 3

def deleteRecLen : Nat := frameHeader + 1 + 8

def updateRecLen : Nat := frameHeader + 1 + jobRecLen

def jobRecOffset : Nat := frameHeader + 1

def putRecLen (tubeLen bodyLen : Nat) : Nat := frameHeader + 1 + jobRecLen + 1 + tubeLen + bodyLen

def segmentHeader : Bytes := magic ++ le 4 version ++ le 4 0

/-! ## Encoding -/

def stateByte : RecordState → UInt8
  | .ready => 0
  | .delayed => 1
  | .buried => 2

def encodeJobRec (r : JobRecord) : Bytes :=
  le 8 r.id ++ (le 4 r.pri ++ (le 4 r.delay ++ (le 4 r.ttr ++ (le 8 r.createdAt ++
    (le 8 r.deadlineAt ++ ([stateByte r.state] ++ (le 4 r.reserveCt ++ (le 4 r.timeoutCt ++
      (le 4 r.releaseCt ++ (le 4 r.buryCt ++ le 4 r.kickCt))))))))))

theorem length_encodeJobRec (r : JobRecord) : (encodeJobRec r).length = jobRecLen := by
  rfl

/-- What a record's frame holds. -/
def payload : JournalEntry → Bytes
  | .put record tube body =>
    [kindPut] ++ (encodeJobRec record ++ ([UInt8.ofNat tube.bytes.length] ++ (tube.bytes ++ body)))
  | .update record => [kindUpdate] ++ encodeJobRec record
  | .delete id => [kindDelete] ++ le 8 id

/-- `encode_put`, `encode_update`, `encode_delete`: a payload that does not fit
the length field is refused. A tube name always fits its own. -/
def encode (crc : Bytes → UInt32) (e : JournalEntry) : Except String Bytes :=
  if (payload e).length < 2 ^ 32 then .ok (frame crc (payload e))
  else .error "binlog record too large"

/-- The length of an entry's record. -/
def recLen : JournalEntry → Nat
  | .put _ tube body => putRecLen tube.bytes.length body.length
  | .update _ => updateRecLen
  | .delete _ => deleteRecLen

theorem length_frame_payload (crc : Bytes → UInt32) (e : JournalEntry) :
    (frame crc (payload e)).length = recLen e := by
  cases e with
  | put record tube body =>
    simp only [length_frame, payload, List.length_append, length_encodeJobRec, List.length_cons,
      List.length_nil, recLen, putRecLen]
    omega
  | update record =>
    simp only [length_frame, payload, List.length_append, length_encodeJobRec, List.length_cons,
      List.length_nil, recLen, updateRecLen]
    omega
  | delete id =>
    simp only [length_frame, payload, List.length_append, length_le, List.length_cons,
      List.length_nil, recLen, deleteRecLen]

/-- Re-stamp an encoded Put with a new job record and a fresh checksum. -/
def restampPut (crc : Bytes → UInt32) (old : Bytes) (record : JobRecord) : Bytes :=
  let new := old.take jobRecOffset ++ encodeJobRec record ++ old.drop (jobRecOffset + jobRecLen)
  let hdr := new.take 4
  let payload := new.drop frameHeader
  hdr ++ le 4 (crc (hdr ++ payload)).toNat ++ payload

/-! ## Decoding -/

/-! `Cur`, the little-endian cursor over a payload: what is read, and the rest. Every
getter fails on underrun. -/

namespace Cur

def take (n : Nat) (c : Bytes) : Option (Bytes × Bytes) :=
  if c.length < n then none else some (c.take n, c.drop n)

def u8 : Bytes → Option (UInt8 × Bytes)
  | [] => none
  | x :: c => some (x, c)

def u32 (c : Bytes) : Option (Nat × Bytes) := (take 4 c).map fun (b, c) => (ofLe b, c)

def u64 (c : Bytes) : Option (Nat × Bytes) := (take 8 c).map fun (b, c) => (ofLe b, c)

end Cur

def recordState : UInt8 → Option RecordState
  | 0 => some .ready
  | 1 => some .delayed
  | 2 => some .buried
  | _ => none

def decodeJobRec (c : Bytes) : Option (JobRecord × Bytes) := do
  let (id, c) ← Cur.u64 c
  let (pri, c) ← Cur.u32 c
  let (delay, c) ← Cur.u32 c
  let (ttr, c) ← Cur.u32 c
  let (createdAt, c) ← Cur.u64 c
  let (deadlineAt, c) ← Cur.u64 c
  let (byte, c) ← Cur.u8 c
  let state ← recordState byte
  let (reserveCt, c) ← Cur.u32 c
  let (timeoutCt, c) ← Cur.u32 c
  let (releaseCt, c) ← Cur.u32 c
  let (buryCt, c) ← Cur.u32 c
  let (kickCt, c) ← Cur.u32 c
  if id = 0 ∨ id > maxRecordId then none
  else
    some ({ id, pri, delay, ttr, createdAt, deadlineAt, state, reserveCt, timeoutCt, releaseCt,
            buryCt, kickCt }, c)

def decodePayload (b : Bytes) : Except String JournalEntry :=
  match Cur.u8 b with
  | none => .error "empty payload"
  | some (kind, b) =>
    if kind = kindPut then
      match decodeJobRec b with
      | none => .error "bad job record"
      | some (record, b) =>
        match Cur.u8 b with
        | none => .error "missing tube length"
        | some (tl, b) =>
          match Cur.take tl.toNat b with
          | none => .error "truncated tube name"
          | some (tube, body) =>
            -- a valid name is ASCII, so the UTF-8 check adds nothing
            match TubeName.new tube with
            | none => .error "invalid tube name"
            | some tube => .ok (.put record tube body)
    else if kind = kindUpdate then
      match decodeJobRec b with
      | none => .error "bad job record"
      | some (record, rest) =>
        if !rest.isEmpty then .error "trailing bytes in update record" else .ok (.update record)
    else if kind = kindDelete then
      match Cur.u64 b with
      | none => .error "truncated delete record"
      | some (id, rest) =>
        if id = 0 ∨ id > maxRecordId ∨ !rest.isEmpty then .error "bad delete record"
        else .ok (.delete id)
    else .error "unknown record kind"

inductive Parsed where
  /-- A zero length field, or fewer than 8 bytes left that are all zero. -/
  | endOfRecords
  | record (e : JournalEntry) (len : Nat)
  /-- A torn or corrupt record. -/
  | bad (why : String)
  /-- The checksum matches but the payload is malformed: never a torn write. -/
  | malformed (why : String)

/-- The record at the start of `rest`. -/
def parse (crc : Bytes → UInt32) (rest : Bytes) : Parsed :=
  if rest.length < frameHeader then
    if rest.all (· = 0) then .endOfRecords else .bad "truncated record header"
  else
    let len := lenField rest
    if len = 0 then .endOfRecords
    else
      let total := frameHeader + len
      if rest.length < total then .bad "record extends past end of file"
      else
        let payload := (rest.drop frameHeader).take len
        if crcOf crc rest payload ≠ crcField rest then .bad "CRC mismatch"
        else
          match decodePayload payload with
          | .ok e => .record e total
          | .error why => .malformed why

def parseAt (crc : Bytes → UInt32) (buf : Bytes) (pos : Nat) : Parsed := parse crc (buf.drop pos)

/-- The loop every reader of records runs: `parseAt` from `pos` on, each record with its
length, and where and how the reading ends. -/
def parseFrom (crc : Bytes → UInt32) (buf : Bytes) :
    Nat → Nat → List (JournalEntry × Nat) × Nat × Parsed
  | 0, pos => ([], pos, parseAt crc buf pos)
  | n + 1, pos =>
    match parseAt crc buf pos with
    | .record e len =>
      let (es, stop) := parseFrom crc buf n (pos + len)
      ((e, len) :: es, stop)
    | other => ([], pos, other)

/-- From the first byte; a record has at least one, so `buf.length` rounds are enough. -/
def parseAll (crc : Bytes → UInt32) (buf : Bytes) : List (JournalEntry × Nat) × Nat × Parsed :=
  parseFrom crc buf buf.length 0

/-- Entries encoded into one buffer. -/
def encodeAll (crc : Bytes → UInt32) (es : List JournalEntry) : Except String Bytes :=
  es.foldlM (fun out e => (encode crc e).map (out ++ ·)) []

/-! ### What a reader accepts -/

theorem length_of_take {n : Nat} {c b c' : Bytes} (h : Cur.take n c = some (b, c')) :
    c.length = n + c'.length := by
  rw [Cur.take] at h
  split at h
  · cases h
  cases h
  rw [List.length_drop]
  omega

theorem length_of_u8 {c c' : Bytes} {x : UInt8} (h : Cur.u8 c = some (x, c')) :
    c.length = 1 + c'.length := by
  cases c with
  | nil => cases h
  | cons => cases h; rw [List.length_cons, Nat.add_comm]

theorem length_of_u32 {x : Nat} {c c' : Bytes} (h : Cur.u32 c = some (x, c')) :
    c.length = 4 + c'.length := by
  obtain ⟨_, hb, heq⟩ := Option.map_eq_some_iff.mp h
  cases heq
  exact length_of_take hb

theorem length_of_u64 {x : Nat} {c c' : Bytes} (h : Cur.u64 c = some (x, c')) :
    c.length = 8 + c'.length := by
  obtain ⟨_, hb, heq⟩ := Option.map_eq_some_iff.mp h
  cases heq
  exact length_of_take hb

/-- A job record is as long as its encoding. -/
theorem length_of_decodeJobRec {c c' : Bytes} {r : JobRecord} (h : decodeJobRec c = some (r, c')) :
    c.length = jobRecLen + c'.length := by
  obtain ⟨⟨_, _⟩, h₁, h⟩ := Option.bind_eq_some_iff.mp h
  obtain ⟨⟨_, _⟩, h₂, h⟩ := Option.bind_eq_some_iff.mp h
  obtain ⟨⟨_, _⟩, h₃, h⟩ := Option.bind_eq_some_iff.mp h
  obtain ⟨⟨_, _⟩, h₄, h⟩ := Option.bind_eq_some_iff.mp h
  obtain ⟨⟨_, _⟩, h₅, h⟩ := Option.bind_eq_some_iff.mp h
  obtain ⟨⟨_, _⟩, h₆, h⟩ := Option.bind_eq_some_iff.mp h
  obtain ⟨⟨_, _⟩, h₇, h⟩ := Option.bind_eq_some_iff.mp h
  obtain ⟨_, -, h⟩ := Option.bind_eq_some_iff.mp h
  obtain ⟨⟨_, _⟩, h₈, h⟩ := Option.bind_eq_some_iff.mp h
  obtain ⟨⟨_, _⟩, h₉, h⟩ := Option.bind_eq_some_iff.mp h
  obtain ⟨⟨_, _⟩, h₁₀, h⟩ := Option.bind_eq_some_iff.mp h
  obtain ⟨⟨_, _⟩, h₁₁, h⟩ := Option.bind_eq_some_iff.mp h
  obtain ⟨⟨_, _⟩, h₁₂, h⟩ := Option.bind_eq_some_iff.mp h
  dsimp only at h
  split at h
  · cases h
  cases h
  rw [length_of_u64 h₁, length_of_u32 h₂, length_of_u32 h₃, length_of_u32 h₄, length_of_u64 h₅,
    length_of_u64 h₆, length_of_u8 h₇, length_of_u32 h₈, length_of_u32 h₉, length_of_u32 h₁₀,
    length_of_u32 h₁₁, length_of_u32 h₁₂]
  simp only [← Nat.add_assoc, jobRecLen]

theorem length_of_decode_put {b : Bytes} {record : JobRecord} {tube : TubeName} {body : Bytes}
    (h : decodePayload b = .ok (.put record tube body)) : 1 + jobRecLen ≤ b.length := by
  unfold decodePayload at h
  split at h
  · cases h
  next kind c hkind =>
    rw [length_of_u8 hkind]
    split at h
    · split at h
      · cases h
      next r c' hrec =>
        rw [length_of_decodeJobRec hrec]
        omega
    · -- no other kind of record is a Put
      split at h
      · repeat' split at h
        all_goals cases h
      · repeat' split at h
        all_goals cases h

/-- A Put that is read has room for its job record. -/
theorem length_of_parse_put {crc : Bytes → UInt32} {b : Bytes} {record : JobRecord}
    {tube : TubeName} {body : Bytes} {len : Nat}
    (h : parse crc b = .record (.put record tube body) len) :
    jobRecOffset + jobRecLen ≤ b.length := by
  unfold parse at h
  split at h
  · split at h <;> cases h
  simp only at h
  repeat' split at h
  all_goals cases h
  next hdec =>
    have hpayload := length_of_decode_put hdec
    rw [List.length_take, List.length_drop] at hpayload
    simp only [jobRecOffset]
    omega

theorem length_restampPut (crc : Bytes → UInt32) {b : Bytes} (record : JobRecord)
    (h : jobRecOffset + jobRecLen ≤ b.length) : (restampPut crc b record).length = b.length := by
  simp only [restampPut, jobRecOffset, jobRecLen, frameHeader, List.length_append, List.length_take,
    List.length_drop, length_encodeJobRec, length_le] at h ⊢
  omega
/-! ## Round trip -/

/-- The numbers of a job record are in the range of their types. -/
structure JobRecordFits (r : JobRecord) : Prop where
  id_pos : 0 < r.id
  id_le : r.id ≤ maxRecordId
  pri : r.pri < 2 ^ 32
  delay : r.delay < 2 ^ 32
  ttr : r.ttr < 2 ^ 32
  createdAt : r.createdAt < 2 ^ 64
  deadlineAt : r.deadlineAt < 2 ^ 64
  reserveCt : r.reserveCt < 2 ^ 32
  timeoutCt : r.timeoutCt < 2 ^ 32
  releaseCt : r.releaseCt < 2 ^ 32
  buryCt : r.buryCt < 2 ^ 32
  kickCt : r.kickCt < 2 ^ 32

/-- An entry whose numbers are in the range of their types. -/
def EntryFits : JournalEntry → Prop
  | .put record _ _ => JobRecordFits record
  | .update record => JobRecordFits record
  | .delete id => 0 < id ∧ id ≤ maxRecordId

section RoundTrip

variable {rest : Bytes} {n : Nat} {es : List JournalEntry}

theorem take_append {a : Bytes} (h : a.length = n) : Cur.take n (a ++ rest) = some (a, rest) := by
  have hl : ¬ (a ++ rest).length < n := by
    rw [List.length_append]
    omega
  rw [Cur.take, if_neg hl, List.take_left' h, List.drop_left' h]

theorem u32_le (h : n < 2 ^ 32) : Cur.u32 (le 4 n ++ rest) = some (n, rest) := by
  simp only [Cur.u32, take_append (length_le 4 n), Option.map_some,
    ofLe_le (show n < 256 ^ 4 from h)]

theorem u64_le (h : n < 2 ^ 64) : Cur.u64 (le 8 n ++ rest) = some (n, rest) := by
  simp only [Cur.u64, take_append (length_le 8 n), Option.map_some,
    ofLe_le (show n < 256 ^ 8 from h)]

theorem u8_cons (x : UInt8) : Cur.u8 ([x] ++ rest) = some (x, rest) := rfl

theorem recordState_stateByte (s : RecordState) : recordState (stateByte s) = some s := by
  cases s <;> rfl

theorem lt_of_le_maxRecordId (h : n ≤ maxRecordId) : n < 2 ^ 64 :=
  Nat.lt_of_le_of_lt h (by decide)

theorem id_inRange {id : Nat} (hpos : 0 < id) (hle : id ≤ maxRecordId) :
    ¬ (id = 0 ∨ id > maxRecordId) := by
  rintro (h | h)
  · exact absurd h (Nat.ne_of_gt hpos)
  · exact absurd h (Nat.not_lt.2 hle)

theorem bind_read {α β : Type} {x : Option α} {a : α} (hx : x = some a) (f : α → Option β) :
    (x >>= f) = f a := by
  rw [hx]
  rfl

theorem decodeJobRec_encode {r : JobRecord} (h : JobRecordFits r) :
    decodeJobRec (encodeJobRec r ++ rest) = some (r, rest) := by
  have hid := id_inRange h.id_pos h.id_le
  refine (bind_read (u64_le (lt_of_le_maxRecordId h.id_le)) _).trans ?_
  refine (bind_read (u32_le h.pri) _).trans ?_
  refine (bind_read (u32_le h.delay) _).trans ?_
  refine (bind_read (u32_le h.ttr) _).trans ?_
  refine (bind_read (u64_le h.createdAt) _).trans ?_
  refine (bind_read (u64_le h.deadlineAt) _).trans ?_
  refine (bind_read (u8_cons _) _).trans ?_
  refine (bind_read (recordState_stateByte r.state) _).trans ?_
  refine (bind_read (u32_le h.reserveCt) _).trans ?_
  refine (bind_read (u32_le h.timeoutCt) _).trans ?_
  refine (bind_read (u32_le h.releaseCt) _).trans ?_
  refine (bind_read (u32_le h.buryCt) _).trans ?_
  refine (bind_read (u32_le h.kickCt) _).trans ?_
  exact if_neg hid

/-- A tube name's length fits one byte. -/
theorem toNat_length (t : TubeName) : (UInt8.ofNat t.bytes.length).toNat = t.bytes.length := by
  have hlen : t.bytes.length ≤ maxTubeNameLen := by
    have := t.valid
    simp only [validateTubeName, Bool.and_eq_true, decide_eq_true_eq] at this
    exact this.1.1.2
  rw [UInt8.toNat_ofNat', Nat.mod_eq_of_lt (Nat.lt_of_le_of_lt hlen (by decide))]

theorem decodePayload_payload {e : JournalEntry} (h : EntryFits e) :
    decodePayload (payload e) = .ok e := by
  cases e with
  | put record tube body =>
    have htake : Cur.take (UInt8.ofNat tube.bytes.length).toNat (tube.bytes ++ body) =
        some (tube.bytes, body) := by
      rw [toNat_length]
      exact take_append rfl
    simp only [decodePayload, payload, u8_cons, if_true, decodeJobRec_encode h, htake,
      TubeName.new_bytes]
  | update record =>
    have hdec : decodeJobRec (encodeJobRec record ++ []) = some (record, []) :=
      decodeJobRec_encode h
    rw [List.append_nil] at hdec
    simp only [decodePayload, payload, u8_cons, hdec]
    rfl
  | delete id =>
    have hdec : Cur.u64 (le 8 id ++ []) = some (id, []) := u64_le (lt_of_le_maxRecordId h.2)
    rw [List.append_nil] at hdec
    have hid : ¬ (id = 0 ∨ id > maxRecordId ∨ (!([] : Bytes).isEmpty) = true) := by
      simp only [List.isEmpty_nil, Bool.not_true, Bool.false_eq_true, or_false]
      exact id_inRange h.1 h.2
    simp only [decodePayload, payload, u8_cons, hdec, if_neg hid]
    rfl

theorem payload_ne_nil (e : JournalEntry) : payload e ≠ [] := by
  cases e <;> simp [payload]

variable {crc : Bytes → UInt32}

/-- A record is read back, whatever follows it. -/
theorem parse_frame {e : JournalEntry} (h : EntryFits e) (hlen : (payload e).length < 2 ^ 32) :
    parse crc (frame crc (payload e) ++ rest) = .record e (recLen e) := by
  have hpos : (payload e).length ≠ 0 := by simpa using payload_ne_nil e
  have hl : (frame crc (payload e) ++ rest).length =
      frameHeader + (payload e).length + rest.length := by
    rw [List.length_append, length_frame]
  have hrec : frameHeader + (payload e).length = recLen e := by
    rw [← length_frame_payload crc, length_frame]
  rw [parse, lenField_frame hlen, hl, if_neg (by omega)]
  rw [if_neg hpos, if_neg (by omega), payload_frame, if_neg (not_not_intro crcOf_frame),
    decodePayload_payload h, hrec]

/-- Zeros are the end of the records. -/
theorem parse_zeros (n : Nat) : parse crc (zeros n) = .endOfRecords := by
  rw [parse]
  split
  · rw [if_pos (by simp [zeros])]
  next h =>
    have hlen : lenField (zeros n) = 0 := by
      have h4 : (zeros n).take 4 = zeros 4 := by
        rw [length_zeros, frameHeader] at h
        rw [zeros, List.take_replicate, Nat.min_eq_left (by omega)]
        rfl
      rw [lenField, h4]
      rfl
    rw [if_pos hlen]

/-- A re-stamped Put is the Put of the new job record. -/
theorem restampPut_frame (old new : JobRecord) (tube : TubeName) (body : Bytes) :
    restampPut crc (frame crc (payload (.put old tube body))) new =
      frame crc (payload (.put new tube body)) := by
  obtain ⟨t, ht⟩ : ∃ t, t = [UInt8.ofNat tube.bytes.length] ++ (tube.bytes ++ body) := ⟨_, rfl⟩
  obtain ⟨len, hlen⟩ : ∃ len, len = (payload (.put old tube body)).length := ⟨_, rfl⟩
  have hlen' : (payload (.put new tube body)).length = len := by
    simp only [hlen, payload, List.length_append, length_encodeJobRec]
  have hold : frame crc (payload (.put old tube body)) =
      (le 4 len ++ le 4 (crc (le 4 len ++ payload (.put old tube body))).toNat ++ [kindPut]) ++
        (encodeJobRec old ++ t) := by
    rw [frame, ← hlen, ht]
    simp only [payload, List.append_assoc]
  have hnew : payload (.put new tube body) = [kindPut] ++ (encodeJobRec new ++ t) := by
    rw [ht]
    rfl
  -- the bytes before and after the job record
  have htake : (frame crc (payload (.put old tube body))).take jobRecOffset =
      le 4 len ++ le 4 (crc (le 4 len ++ payload (.put old tube body))).toNat ++ [kindPut] := by
    rw [hold]
    exact List.take_left' (by simp [jobRecOffset, frameHeader])
  have hdrop : (frame crc (payload (.put old tube body))).drop (jobRecOffset + jobRecLen) = t := by
    rw [hold, ← List.drop_drop, List.drop_left' (by simp [jobRecOffset, frameHeader]),
      List.drop_left' (length_encodeJobRec old)]
  rw [restampPut, htake, hdrop]
  generalize crc (le 4 len ++ payload (.put old tube body)) = c
  have hpayload : (le 4 len ++ le 4 c.toNat ++ ([kindPut] ++ (encodeJobRec new ++ t))).drop
      frameHeader = payload (.put new tube body) := by
    rw [hnew]
    exact List.drop_left' (by simp [frameHeader])
  simp only [List.append_assoc] at hpayload ⊢
  rw [List.take_left' (length_le 4 len), hpayload, frame, hlen', List.append_assoc]

/-- The records of a list of entries. -/
def frames (crc : Bytes → UInt32) (es : List JournalEntry) : Bytes :=
  es.flatMap fun e => frame crc (payload e)

theorem length_le_length_frames (es : List JournalEntry) : es.length ≤ (frames crc es).length := by
  induction es with
  | nil => exact Nat.le_refl 0
  | cons e es ih =>
    have hpos : 0 < (frame crc (payload e)).length := List.length_pos_iff.mpr frame_ne_nil
    rw [frames, List.flatMap_cons, List.length_append, List.length_cons]
    rw [frames] at ih
    omega

theorem encodeAll_ok (h : ∀ e ∈ es, (payload e).length < 2 ^ 32) :
    encodeAll crc es = .ok (frames crc es) := by
  have hloop : ∀ (es : List JournalEntry) (out : Bytes),
      (∀ e ∈ es, (payload e).length < 2 ^ 32) →
      es.foldlM (fun out e => (encode crc e).map (out ++ ·)) out =
        (.ok (out ++ frames crc es) : Except String Bytes) := by
    intro es
    induction es with
    | nil =>
      intro out _
      rw [frames, List.flatMap_nil, List.append_nil]
      rfl
    | cons e es ih =>
      intro out h
      have he : (encode crc e).map (out ++ ·) = .ok (out ++ frame crc (payload e)) := by
        rw [encode, if_pos (h e List.mem_cons_self)]
        rfl
      rw [List.foldlM_cons, he]
      show es.foldlM _ (out ++ frame crc (payload e)) = _
      rw [ih _ fun e' h' => h e' (List.mem_cons_of_mem _ h'), frames, frames, List.flatMap_cons,
        List.append_assoc]
  exact hloop es [] h

/-- From the end of `done` the records of `es` are read, up to the zeros. -/
theorem parseFrom_frames (done : Bytes) (z : Nat) (hfits : ∀ e ∈ es, EntryFits e)
    (hlen : ∀ e ∈ es, (payload e).length < 2 ^ 32) (fuel : Nat) (hfuel : es.length ≤ fuel) :
    parseFrom crc (done ++ (frames crc es ++ zeros z)) fuel done.length =
      (es.map fun e => (e, recLen e), (done ++ frames crc es).length, .endOfRecords) := by
  induction es generalizing done fuel with
  | nil =>
    have hend : parseAt crc (done ++ (frames crc [] ++ zeros z)) done.length = .endOfRecords := by
      rw [parseAt, List.drop_left, frames, List.flatMap_nil, List.nil_append, parse_zeros]
    rw [frames, List.flatMap_nil, List.append_nil] at *
    cases fuel with
    | zero => rw [parseFrom, hend, List.map_nil]
    | succ fuel =>
      rw [parseFrom, hend]
      rfl
  | cons e es ih =>
    cases fuel with
    | zero => cases hfuel
    | succ fuel =>
      have hread : parseAt crc (done ++ (frames crc (e :: es) ++ zeros z)) done.length =
          .record e (recLen e) := by
        rw [parseAt, List.drop_left, frames, List.flatMap_cons, List.append_assoc]
        exact parse_frame (hfits e List.mem_cons_self) (hlen e List.mem_cons_self)
      have hnext : done ++ (frames crc (e :: es) ++ zeros z) =
          (done ++ frame crc (payload e)) ++ (frames crc es ++ zeros z) := by
        simp only [frames, List.flatMap_cons, List.append_assoc]
      have hpos : done.length + recLen e = (done ++ frame crc (payload e)).length := by
        rw [List.length_append, length_frame_payload]
      have hall : done ++ frames crc (e :: es) =
          (done ++ frame crc (payload e)) ++ frames crc es := by
        simp only [frames, List.flatMap_cons, List.append_assoc]
      have hrest := ih (done ++ frame crc (payload e))
        (fun e' h' => hfits e' (List.mem_cons_of_mem _ h'))
        (fun e' h' => hlen e' (List.mem_cons_of_mem _ h')) fuel (Nat.le_of_succ_le_succ hfuel)
      rw [parseFrom, hread]
      simp only
      rw [hnext, hpos, hrest, hall]
      rfl

end RoundTrip

/-- A list of entries is encoded, read back in order with the lengths the source
computes for its records, and ends at the first byte of the padding; and a re-stamped Put
is the Put of the new job record. The payload of an Update or a Delete always fits. -/
theorem records_round_trip (crc : Bytes → UInt32) :
    (∀ (es : List JournalEntry) (z : Nat), (∀ e ∈ es, EntryFits e) →
        (∀ record tube body, .put record tube body ∈ es →
          (payload (.put record tube body)).length < 2 ^ 32) →
        ∃ buf, encodeAll crc es = .ok buf ∧
          parseAll crc (buf ++ zeros z) =
            (es.map fun e => (e, recLen e), buf.length, .endOfRecords)) ∧
      ∀ (old new : JobRecord) (tube : TubeName) (body buf : Bytes),
        encode crc (.put old tube body) = .ok buf →
        encode crc (.put new tube body) = .ok (restampPut crc buf new) := by
  constructor
  · intro es z hfits hput
    have hlen : ∀ e ∈ es, (payload e).length < 2 ^ 32 := by
      intro e he
      cases e with
      | put record tube body => exact hput record tube body he
      | update record =>
        rw [payload, List.length_append, length_encodeJobRec]
        decide
      | delete id =>
        rw [payload, List.length_append, length_le]
        decide
    refine ⟨frames crc es, encodeAll_ok hlen, ?_⟩
    have hfuel : es.length ≤ (frames crc es ++ zeros z).length := by
      rw [List.length_append]
      exact Nat.le_add_right_of_le (length_le_length_frames es)
    exact parseFrom_frames [] z hfits hlen _ hfuel
  · intro old new tube body buf h
    rw [encode] at h
    split at h
    next hlen =>
      obtain rfl := Except.ok.inj h
      have hsame : (payload (.put new tube body)).length =
          (payload (.put old tube body)).length := by
        simp only [payload, List.length_append, length_encodeJobRec]
      rw [encode, if_pos (hsame ▸ hlen), restampPut_frame]
    · cases h

/-- A Put, an Update and a Delete, with less padding than a frame's header. -/
theorem records_round_trip_mixed :
    let r : JobRecord := ⟨7, 1024, 0, 60, 1000, 0, .ready, 0, 0, 0, 0, 0⟩
    let es := [.put r ⟨[97], by decide⟩ [104, 105],
      .update { r with state := .buried, buryCt := 1 }, .delete 7]
    ∃ buf, encodeAll (fun _ => 5) es = .ok buf ∧
      parseAll (fun _ => 5) (buf ++ zeros 3) =
        (es.map fun e => (e, recLen e), buf.length, .endOfRecords) := by
  refine (records_round_trip _).1 _ 3 ?_ ?_
  · simp only [List.forall_mem_cons, EntryFits]
    exact ⟨by constructor <;> decide, by constructor <;> decide, by decide, by simp⟩
  simp only [List.mem_cons, JournalEntry.put.injEq, reduceCtorEq, List.not_mem_nil, or_false]
  rintro _ _ _ ⟨rfl, rfl, rfl⟩
  decide

end Beanstalkd.Store
