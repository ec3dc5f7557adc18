import Mathlib.Algebra.Ring.Nat

/-!
# Files of framed records

A file is the list of its bytes. `writeAt`, `setLen` and `readAt` are the
positioned operations of an open file; a log writes its records back to back,
each in a frame `len u32 | crc u32 | payload` whose checksum covers the length
and the payload. The checksum is a parameter: what is written is read back
whatever it computes.

`starts` gives the offsets of records laid one after another, and `slice` the
bytes between two offsets.
-/

namespace File

abbrev Contents := List UInt8

/-! ## Little-endian numbers -/

/-- `n` in `w` bytes, the lowest first. -/
def le : Nat → Nat → Contents
  | 0, _ => []
  | w + 1, n => UInt8.ofNat n :: le w (n / 256)

def ofLe : Contents → Nat
  | [] => 0
  | b :: bs => b.toNat + 256 * ofLe bs

@[simp] theorem length_le (w n : Nat) : (le w n).length = w := by
  induction w generalizing n with
  | zero => rfl
  | succ w ih => simp [le, ih]

theorem ofLe_le {w : Nat} : ∀ {n : Nat}, n < 256 ^ w → ofLe (le w n) = n := by
  induction w with
  | zero => intro n h; simp only [Nat.pow_zero] at h; simp only [le, ofLe]; omega
  | succ w ih =>
    intro n h
    have hd : n / 256 < 256 ^ w := by
      rw [Nat.div_lt_iff_lt_mul (by decide), ← Nat.pow_succ]
      exact h
    rw [le, ofLe, ih hd, UInt8.toNat_ofNat']
    show n % 256 + 256 * (n / 256) = n
    exact Nat.mod_add_div n 256

/-! ## Positioned reads and writes -/

def zeros (n : Nat) : Contents := List.replicate n 0

@[simp] theorem length_zeros (n : Nat) : (zeros n).length = n := List.length_replicate

/-- `set_len`: cut, or extended by zeros. -/
def setLen (f : Contents) (n : Nat) : Contents := f.take n ++ zeros (n - f.length)

/-- `write_all_at`. -/
def writeAt (f : Contents) (off : Nat) (data : Contents) : Contents :=
  setLen f off ++ data ++ f.drop (off + data.length)

/-- The bytes from `off` up to `stop`. -/
def slice (f : Contents) (off stop : Nat) : Contents := (f.drop off).take (stop - off)

/-- `read_exact_at`: all `n` bytes or none. -/
def readAt (f : Contents) (off n : Nat) : Option Contents :=
  if off + n ≤ f.length then some ((f.drop off).take n) else none

theorem setLen_of_le {f : Contents} {n : Nat} (h : n ≤ f.length) : setLen f n = f.take n := by
  simp [setLen, Nat.sub_eq_zero_of_le h, zeros]

theorem setLen_append (f g : Contents) : setLen (f ++ g) f.length = f := by
  rw [setLen_of_le (by simp), List.take_left]

/-- A write at the end of a file extends it. -/
theorem writeAt_end (f data : Contents) : writeAt f f.length data = f ++ data := by
  rw [writeAt, setLen_of_le (Nat.le_refl _), List.take_length, List.drop_eq_nil_of_le (by omega),
    List.append_nil]

/-- A write over what follows `f`. -/
theorem writeAt_append (f old rest data : Contents) (h : old.length = data.length) :
    writeAt (f ++ (old ++ rest)) f.length data = f ++ data ++ rest := by
  rw [writeAt, setLen_append, ← List.append_assoc f old rest]
  have hd : (f ++ old ++ rest).drop (f.length + data.length) = rest := by
    rw [← h, ← List.length_append, List.drop_left]
  rw [hd]

theorem readAt_append (f g rest : Contents) :
    readAt (f ++ (g ++ rest)) f.length g.length = some g := by
  rw [readAt, if_pos (by simp only [List.length_append]; omega), List.drop_left, List.take_left]

theorem length_readAt {f data : Contents} {off n : Nat} (h : readAt f off n = some data) :
    data.length = n := by
  rw [readAt] at h
  split at h
  · cases h
    rw [List.length_take, List.length_drop]
    omega
  · cases h

theorem length_setLen (f : Contents) (n : Nat) : (setLen f n).length = n := by
  rw [setLen, List.length_append, List.length_take, length_zeros]
  omega

section Windows

/-! A window of a file that holds the bytes `c`, and a write at its end or behind it. -/

variable {f c data : Contents} {base off : Nat}

variable (h : slice f base (base + c.length) = c)
include h

theorem le_length_of_slice (hc : c ≠ []) : base + c.length ≤ f.length := by
  have hlen := congrArg List.length h
  have hpos := List.length_pos_iff.mpr hc
  rw [slice, List.length_take, List.length_drop] at hlen
  omega

theorem drop_setLen : (setLen f (base + c.length)).drop base = c := by
  by_cases hc : c = []
  · subst hc
    exact List.drop_eq_nil_of_le (by rw [length_setLen]; exact Nat.le_refl _)
  · rw [setLen_of_le (le_length_of_slice h hc), List.drop_take]
    exact h

theorem slice_writeAt (data : Contents) :
    slice (writeAt f (base + c.length) data) base (base + (c ++ data).length) = c ++ data := by
  have hle : base ≤ (setLen f (base + c.length)).length := by
    rw [length_setLen]
    exact Nat.le_add_right ..
  rw [slice, Nat.add_sub_cancel_left, writeAt, List.append_assoc, List.drop_append_of_le_length hle,
    drop_setLen h, ← List.append_assoc, List.take_left]

theorem slice_writeAt_of_le (hoff : base + c.length ≤ off) :
    slice (writeAt f off data) base (base + c.length) = c := by
  by_cases hc : c = []
  · subst hc
    rw [slice, List.length_nil, Nat.add_zero, Nat.sub_self, List.take_zero]
  have hlen := le_length_of_slice h hc
  have htake : (writeAt f off data).take (base + c.length) = f.take (base + c.length) := by
    have hle : base + c.length ≤ (f.take off).length := by
      rw [List.length_take]
      omega
    rw [writeAt, setLen, List.append_assoc, List.append_assoc, List.take_append_of_le_length hle,
      List.take_take, Nat.min_eq_left hoff]
  have hdrop := congrArg (List.drop base) htake
  rw [List.drop_take, List.drop_take] at hdrop
  exact hdrop.trans h

end Windows

/-! ## Frames -/

/-- A frame's header. -/
def frameHeader : Nat := 8

def frame (crc : Contents → UInt32) (payload : Contents) : Contents :=
  le 4 payload.length ++ le 4 (crc (le 4 payload.length ++ payload)).toNat ++ payload

/-- The length field of the bytes at hand. -/
def lenField (b : Contents) : Nat := ofLe (b.take 4)

/-- The checksum field. -/
def crcField (b : Contents) : Nat := ofLe ((b.drop 4).take 4)

/-- The checksum of a payload with the length field of `b`. -/
def crcOf (crc : Contents → UInt32) (b payload : Contents) : Nat :=
  (crc (b.take 4 ++ payload)).toNat

section Frames

variable {crc : Contents → UInt32} {payload rest : Contents}

@[simp] theorem length_frame : (frame crc payload).length = frameHeader + payload.length := by
  simp only [frame, List.length_append, length_le, frameHeader]

theorem frame_ne_nil : frame crc payload ≠ [] := by
  intro h
  have hl := congrArg List.length h
  simp [frameHeader] at hl

theorem take_frame : (frame crc payload ++ rest).take 4 = le 4 payload.length := by
  exact List.take_left' (length_le 4 _)

theorem lenField_frame (h : payload.length < 2 ^ 32) :
    lenField (frame crc payload ++ rest) = payload.length := by
  rw [lenField, take_frame, ofLe_le h]

theorem crcField_frame :
    crcField (frame crc payload ++ rest) = (crc (le 4 payload.length ++ payload)).toNat := by
  rw [crcField, frame, List.append_assoc, List.append_assoc, List.drop_left' (length_le 4 _),
    List.take_left' (length_le 4 _)]
  exact ofLe_le (crc _).toNat_lt

theorem crcOf_frame :
    crcOf crc (frame crc payload ++ rest) payload = crcField (frame crc payload ++ rest) := by
  rw [crcOf, take_frame, crcField_frame]

theorem drop_header_frame : (frame crc payload ++ rest).drop frameHeader = payload ++ rest := by
  rw [frame, List.append_assoc]
  exact List.drop_left' (by simp [frameHeader])

theorem payload_frame :
    ((frame crc payload ++ rest).drop frameHeader).take payload.length = payload := by
  rw [drop_header_frame, List.take_left]

end Frames

/-! ## Records back to back -/

/-- The offset of each record when they follow one another from `base`. -/
def starts (base : Nat) : List Contents → List Nat
  | [] => []
  | r :: rs => base :: starts (base + r.length) rs

@[simp] theorem length_starts (base : Nat) (rs : List Contents) :
    (starts base rs).length = rs.length := by
  induction rs generalizing base with
  | nil => rfl
  | cons r rs ih => simp [starts, ih]

theorem starts_append (base : Nat) (rs ss : List Contents) :
    starts base (rs ++ ss) = starts base rs ++ starts (base + rs.flatten.length) ss := by
  induction rs generalizing base with
  | nil => simp [starts]
  | cons r rs ih =>
    simp only [List.cons_append, starts, ih, List.flatten_cons, List.length_append, Nat.add_assoc]

/-- Offsets are relative to where the records begin. -/
theorem starts_shift (base d : Nat) (rs : List Contents) :
    starts (base + d) rs = (starts d rs).map (base + ·) := by
  induction rs generalizing d with
  | nil => rfl
  | cons r rs ih => simp only [starts, List.map_cons, ← ih, Nat.add_assoc]

/-- The `k`-th record starts after the `k` before it. -/
theorem starts_getElem? (base : Nat) (rs : List Contents) (k : Nat) :
    (starts base rs)[k]? =
      if k < rs.length then some (base + (rs.take k).flatten.length) else none := by
  induction rs generalizing base k with
  | nil => simp [starts]
  | cons r rs ih =>
    cases k with
    | zero => simp [starts]
    | succ k => simp [starts, ih, Nat.add_assoc]

end File
