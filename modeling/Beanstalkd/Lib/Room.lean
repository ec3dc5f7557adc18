import Mathlib.Data.Nat.Basic

/-!
# Room in a log of segments

An append-only log writes into its current segment and rolls over to a preallocated
one when a record does not fit. What is left of the old segment is then lost. A
record that fits no segment extends a fresh one.

Some future records are promised room: one of `unit` bytes for every live item, and
those announced in advance (`pending` of them, `bytes` together). A roll loses less
than the record that did not fit, so the announced bytes count twice, and `unit`
bytes count for every segment that can still be left behind (`slack`). `Sound` is the
resulting invariant: as long as it holds, no promised record needs a new segment.
-/

namespace Room

structure Space where
  /-- The current segment: its size, and the end of what is written. -/
  size : Nat
  written : Nat
  /-- Preallocated segments. -/
  spares : Nat
  live : Nat
  pending : Nat
  bytes : Nat

namespace Space

variable (head cap unit : Nat) (s : Space)

def reserved : Nat := unit * (s.live + s.pending) + s.bytes

def slack : Nat := unit * (s.spares + 1) + s.bytes

/-- A segment has `cap` bytes after its `head`. -/
def avail : Nat := s.size - s.written + s.spares * cap

/-- `len` bytes go to the end of the current segment. -/
def bump (len : Nat) : Space :=
  { s with written := s.written + len, size := max s.size (s.written + len) }

/-- Before a record of `len` bytes: the log rolls over if it does not fit and the current
segment is not fresh. Without a spare there is no place for it. -/
def roll (len : Nat) : Option Space :=
  if s.written > head ∧ s.written + len > s.size then
    match s.spares with
    | 0 => none
    | n + 1 => some { s with size := head + cap, written := head, spares := n }
  else some s

structure Sound : Prop where
  room : s.reserved unit + s.slack unit ≤ s.avail cap
  head_le : head ≤ s.written
  le_size : s.written ≤ s.size
  fresh : s.written = head → s.size = head + cap

variable {head cap unit s} {len : Nat}

namespace Sound

/-- Less may be promised. -/
theorem mono (h : s.Sound head cap unit) {s' : Space} (hsize : s'.size = s.size)
    (hwritten : s'.written = s.written) (hspares : s'.spares = s.spares)
    (hlive : s'.live + s'.pending ≤ s.live + s.pending) (hbytes : s'.bytes ≤ s.bytes) :
    s'.Sound head cap unit := by
  obtain ⟨hroom, hhead, hle, hfresh⟩ := h
  refine ⟨?_, by omega, by omega, by omega⟩
  have hunit : unit * (s'.live + s'.pending) ≤ unit * (s.live + s.pending) :=
    Nat.mul_le_mul_left unit hlive
  simp only [reserved, slack, avail, hsize, hwritten, hspares] at hroom ⊢
  omega

/-- A new spare brings more than its share of the slack. -/
theorem spare (h : s.Sound head cap unit) (hunit : unit ≤ cap) :
    Sound head cap unit { s with spares := s.spares + 1 } := by
  obtain ⟨hroom, hhead, hle, hfresh⟩ := h
  refine ⟨?_, hhead, hle, hfresh⟩
  simp only [reserved, slack, avail, Nat.mul_add, Nat.add_mul] at hroom ⊢
  omega

theorem spares (h : s.Sound head cap unit) (hunit : unit ≤ cap) (k : Nat) :
    Sound head cap unit { s with spares := s.spares + k } := by
  induction k with
  | zero => exact h
  | succ k ih => exact ih.spare hunit

end Sound

/-- What `roll` leaves of the current segment. -/
theorem roll_cases (head cap : Nat) (s : Space) (len : Nat) :
    (¬ (s.written > head ∧ s.written + len > s.size) ∧ s.roll head cap len = some s) ∨
      (s.written > head ∧ s.written + len > s.size ∧
        ((s.spares = 0 ∧ s.roll head cap len = none) ∨
          ∃ n, s.spares = n + 1 ∧ s.roll head cap len = some
            { s with size := head + cap, written := head, spares := n })) := by
  by_cases hroll : s.written > head ∧ s.written + len > s.size
  · right
    refine ⟨hroll.1, hroll.2, ?_⟩
    rw [roll, if_pos hroll]
    cases hspares : s.spares with
    | zero => exact .inl ⟨rfl, rfl⟩
    | succ n => exact .inr ⟨n, rfl, rfl⟩
  · left
    exact ⟨hroll, by rw [roll, if_neg hroll]⟩

/-- What is promised stays as it is. -/
theorem roll_promises {s' : Space} (h : s.roll head cap len = some s') :
    s'.live = s.live ∧ s'.pending = s.pending ∧ s'.bytes = s.bytes := by
  rcases roll_cases head cap s len with ⟨-, hroll⟩ | ⟨-, -, ⟨-, hroll⟩ | ⟨n, -, hroll⟩⟩ <;>
    cases hroll.symm.trans h
  · exact ⟨rfl, rfl, rfl⟩
  · exact ⟨rfl, rfl, rfl⟩

/-- A record that fits a segment extends none. -/
theorem roll_fits {s' : Space} (h : s.roll head cap len = some s') (hhead : head ≤ s.written)
    (hfresh : s.written = head → s.size = head + cap) (hlen : len ≤ cap) :
    s'.written + len ≤ s'.size := by
  rcases roll_cases head cap s len with ⟨hstay, hroll⟩ | ⟨-, -, ⟨-, hroll⟩ | ⟨n, -, hroll⟩⟩ <;>
    cases hroll.symm.trans h
  · omega
  · dsimp only
    omega

/-- A record gets its place if the room suffices where it fits, where it makes the log
roll over, and where it extends a fresh segment. Afterwards there are `live` items. -/
theorem place_sound (live : Nat) (hhead : head ≤ s.written) (hle : s.written ≤ s.size)
    (hfresh : s.written = head → s.size = head + cap) (hcap : 0 < cap)
    (hfit : len ≤ s.size - s.written →
      unit * (live + s.pending) + s.bytes + s.slack unit + len ≤ s.avail cap)
    (hroll : s.size - s.written < len →
      unit * (live + s.pending) + s.bytes + s.slack unit + min len cap ≤ s.spares * cap + unit)
    (hextend : s.size - s.written < len → cap < len →
      unit * (live + s.pending) + s.bytes + s.slack unit ≤ s.spares * cap) :
    ∃ s', s.roll head cap len = some s' ∧ Sound head cap unit { s'.bump len with live } := by
  simp only [slack, avail, Nat.mul_add] at hfit hroll hextend
  rcases roll_cases head cap s len with ⟨hstay, hplace⟩ | ⟨hpast, hover, hspares⟩
  · refine ⟨_, hplace, ?_, ?_, ?_, ?_⟩
    · simp only [reserved, slack, avail, bump, Nat.mul_add]
      by_cases hlen : len ≤ s.size - s.written
      · omega
      · omega
    · simp only [bump]
      omega
    · simp only [bump]
      omega
    · simp only [bump]
      intro h0
      omega
  · have hlost := hroll (by omega)
    have hlong := hextend (by omega)
    rcases hspares with ⟨hnone, -⟩ | ⟨n, hn, hplace⟩
    · -- there would be no room for the record
      rw [hnone] at hlost
      omega
    · rw [hn] at hlost hlong
      simp only [Nat.add_mul, Nat.mul_add, Nat.one_mul] at hlost hlong
      refine ⟨_, hplace, ?_, ?_, ?_, ?_⟩
      · simp only [reserved, slack, avail, bump, Nat.mul_add]
        omega
      · simp only [bump]
        omega
      · simp only [bump]
        omega
      · simp only [bump]
        omega

/-- An announced record, of a new item. -/
theorem place_announced (h : s.Sound head cap unit) (hpending : 0 < s.pending)
    (hbytes : len ≤ s.bytes) (hlen : 0 < len) (hcap : len ≤ cap) :
    ∃ s', roll head cap { s with pending := s.pending - 1, bytes := s.bytes - len } len = some s' ∧
      Sound head cap unit { s'.bump len with live := s.live + 1 } := by
  obtain ⟨hroom, hhead, hle, hfresh⟩ := h
  have hunit : unit * (s.live + 1 + (s.pending - 1)) = unit * (s.live + s.pending) := by
    congr 1
    omega
  simp only [reserved, slack, avail] at hroom
  refine place_sound (s.live + 1) hhead hle hfresh (by omega) ?_ ?_ ?_
  · simp only [slack, avail, hunit]
    omega
  · simp only [slack, hunit]
    omega
  · omega

/-- The record that ends a live item. -/
theorem place_unit (h : s.Sound head cap unit) (hlive : 0 < s.live) (hunit : 0 < unit)
    (hcap : unit ≤ cap) :
    ∃ s', s.roll head cap unit = some s' ∧
      Sound head cap unit { s'.bump unit with live := s.live - 1 } := by
  obtain ⟨hroom, hhead, hle, hfresh⟩ := h
  have hless : unit * (s.live - 1 + s.pending) + unit = unit * (s.live + s.pending) := by
    rw [← Nat.mul_succ]
    congr 1
    omega
  simp only [reserved, slack, avail] at hroom
  refine place_sound (s.live - 1) hhead hle hfresh (by omega) ?_ ?_ ?_
  · simp only [slack, avail]
    omega
  · simp only [slack, Nat.mul_add] at hroom hless ⊢
    omega
  · omega

/-- A record of any length, where there is room for it and for a whole segment. -/
theorem place_spare (h : s.Sound head cap unit) (hcap : 0 < cap)
    (hroom : s.reserved unit + len + s.slack unit + cap ≤ s.avail cap) :
    ∃ s', s.roll head cap len = some s' ∧
      Sound head cap unit { s'.bump len with live := s.live } := by
  obtain ⟨-, hhead, hle, hfresh⟩ := h
  simp only [reserved, slack, avail] at hroom
  refine place_sound s.live hhead hle hfresh hcap ?_ ?_ ?_
  · simp only [slack, avail]
    omega
  · simp only [slack]
    omega
  · simp only [slack]
    omega

end Space

end Room
