import Beanstalkd.Proto.Parse

/-!
# The kick count against `strtoul`

`parse_kick_count` stands in for the reference's `count = strtoul(s, &end, 10)`.
`strtoul` below is that function on a 64-bit host in the C locale, written from its
description in the C standard and not from the Rust code.

The code's saturating `u128` decides overflow correctly for a run of digits of any
length (`foldl_pushDigit`). It differs from `strtoul` in one byte: `isspace` accepts
the vertical tab, `u8::is_ascii_whitespace` does not.
-/

namespace Beanstalkd.Parse

/-- C's `isspace`: a space, or one of `\t`, `\n`, `\v`, `\f`, `\r`. -/
def isSpace (b : UInt8) : Bool := b == 32 || (9 ≤ b && b ≤ 13)

/-- The number a run of digits denotes. -/
def magnitude (digits : Bytes) : Nat := digits.foldl (fun v d => v * 10 + (d.toNat - 48)) 0

/-- One optional sign: whether it is a minus, and what follows. -/
def signed : Bytes → Bool × Bytes
  | 45 :: s => (true, s)
  | 43 :: s => (false, s)
  | s => (false, s)

/-- The run of digits at the front, as an `unsigned long`: `none` if there is no digit
(`end == s`) or the magnitude does not fit (`ERANGE`). -/
def unsignedLong (negative : Bool) (s : Bytes) : Option Nat :=
  let v := magnitude (s.takeWhile isAsciiDigit)
  if s.takeWhile isAsciiDigit = [] ∨ v > u64Max then none
  else some (if negative then (2 ^ 64 - v) % 2 ^ 64 else v)

/-- `strtoul(s, &end, 10)`. -/
def strtoul (s : Bytes) : Option Nat :=
  let (negative, s) := signed (s.dropWhile isSpace)
  unsignedLong negative s

/-! ## After the white space -/

/-- Saturation loses nothing but the excess over `u128::MAX`. -/
theorem foldl_pushDigit (digits : Bytes) :
    digits.foldl pushDigit 0 = min (magnitude digits) u128Max := by
  have hfold : ∀ v, digits.foldl pushDigit (min v u128Max) =
      min (digits.foldl (fun v d => v * 10 + (d.toNat - 48)) v) u128Max := by
    induction digits with
    | nil => intro v; rfl
    | cons d digits ih =>
      intro v
      have hstep : pushDigit (min v u128Max) d = min (v * 10 + (d.toNat - 48)) u128Max := by
        unfold pushDigit u128Max
        omega
      rw [List.foldl_cons, List.foldl_cons, hstep]
      exact ih _
  exact hfold 0

/-- The code reads the digits as `strtoul` does, and cuts the number down. -/
theorem digits_eq_unsignedLong (negative : Bool) (s : Bytes) :
    (let digits := s.takeWhile isAsciiDigit
      if digits.isEmpty then none
      else
        let val := digits.foldl pushDigit 0
        if val > u64Max then none
        else
          let val := if negative then (2 ^ 64 - val) % 2 ^ 64 else val
          some (val % 2 ^ 32)) = (unsignedLong negative s).map (· % 2 ^ 32) := by
  have hcut : ∀ v : Nat, (min v u128Max > u64Max ↔ v > u64Max) ∧
      (¬ v > u64Max → min v u128Max = v) := by
    unfold u128Max u64Max
    omega
  obtain ⟨hgt, heq⟩ := hcut (magnitude (s.takeWhile isAsciiDigit))
  simp only [unsignedLong, foldl_pushDigit, List.isEmpty_iff]
  by_cases hnil : s.takeWhile isAsciiDigit = []
  · rw [if_pos hnil, if_pos (.inl hnil)]
    rfl
  rw [if_neg hnil]
  by_cases hbig : magnitude (s.takeWhile isAsciiDigit) > u64Max
  · rw [if_pos (hgt.2 hbig), if_pos (.inr hbig)]
    rfl
  have hok : ¬ (s.takeWhile isAsciiDigit = [] ∨
      magnitude (s.takeWhile isAsciiDigit) > u64Max) :=
    fun h => h.elim hnil hbig
  rw [if_neg hok, if_neg (fun h => hbig (hgt.1 h)), heq hbig]
  rfl

theorem signed_plain {b : UInt8} (hminus : b ≠ 45) (hplus : b ≠ 43) (s : Bytes) :
    signed (b :: s) = (false, b :: s) := by
  unfold signed
  split
  · next h => exact absurd (List.cons.inj h).1 hminus
  · next h => exact absurd (List.cons.inj h).1 hplus
  · rfl

theorem parseKickCount_eq (s : Bytes) :
    parseKickCount s =
      (unsignedLong (signed (s.dropWhile isAsciiWhitespace)).1
        (signed (s.dropWhile isAsciiWhitespace)).2).map (· % 2 ^ 32) := by
  unfold parseKickCount
  cases s.dropWhile isAsciiWhitespace with
  | nil => rfl
  | cons b t =>
    by_cases hminus : b = 45
    · subst hminus
      exact digits_eq_unsignedLong true t
    by_cases hplus : b = 43
    · subst hplus
      exact digits_eq_unsignedLong false t
    rw [signed_plain hminus hplus]
    simp only [List.head?_cons, Option.some_beq_some, beq_eq_false_iff_ne.mpr hminus,
      beq_eq_false_iff_ne.mpr hplus, Bool.or_self, Bool.false_eq_true, if_false]
    exact digits_eq_unsignedLong false (b :: t)

/-! ## The white space -/

/-- The two notions of white space differ in the vertical tab. -/
theorem isSpace_eq (b : UInt8) : isSpace b = (isAsciiWhitespace b || b == 11) := by
  have hall : ∀ n : Fin 256, isSpace (UInt8.ofNat n) =
      (isAsciiWhitespace (UInt8.ofNat n) || UInt8.ofNat n == 11) := by decide +kernel
  have hb := hall ⟨b.toNat, b.toNat_lt⟩
  rwa [UInt8.ofNat_toNat] at hb

theorem dropWhile_of_no_tab {s : Bytes} (h : 11 ∉ s.takeWhile isSpace) :
    s.dropWhile isAsciiWhitespace = s.dropWhile isSpace := by
  induction s with
  | nil => rfl
  | cons b s ih =>
    cases hb : isAsciiWhitespace b with
    | true =>
      have hsp : isSpace b = true := by rw [isSpace_eq, hb]; rfl
      rw [List.takeWhile_cons_of_pos hsp, List.mem_cons, not_or] at h
      rw [List.dropWhile_cons_of_pos hb, List.dropWhile_cons_of_pos hsp]
      exact ih h.2
    | false =>
      have htab : isSpace b = (b == 11) := by rw [isSpace_eq, hb]; rfl
      have hsp : isSpace b = false := by
        rw [htab, beq_eq_false_iff_ne]
        intro h11
        subst h11
        exact h List.mem_cons_self
      rw [List.dropWhile_cons_of_neg (by simp [hb]), List.dropWhile_cons_of_neg (by simp [hsp])]

/-- The code stops at a vertical tab. -/
theorem dropWhile_of_tab {s : Bytes} (h : 11 ∈ s.takeWhile isSpace) :
    ∃ t, s.dropWhile isAsciiWhitespace = 11 :: t := by
  induction s with
  | nil => cases h
  | cons b s ih =>
    by_cases h11 : b = 11
    · subst h11
      exact ⟨s, rfl⟩
    have hne : ¬ 11 = b := fun h => h11 h.symm
    cases hsp : isSpace b with
    | false =>
      rw [List.takeWhile_cons_of_neg (by simp [hsp])] at h
      cases h
    | true =>
      rw [List.takeWhile_cons_of_pos hsp, List.mem_cons] at h
      have hb : isAsciiWhitespace b = true := by
        rw [isSpace_eq, beq_eq_false_iff_ne.mpr h11, Bool.or_false] at hsp
        exact hsp
      rw [List.dropWhile_cons_of_pos hb]
      exact ih (h.resolve_left hne)

/-- The kick count is `strtoul`'s, cut down to 32 bits, exactly if no vertical tab is
among the leading white space of a number that `strtoul` accepts. -/
theorem kick_count_eq_strtoul_iff (s : Bytes) :
    parseKickCount s = (strtoul s).map (· % 2 ^ 32) ↔
      (11 ∈ s.takeWhile isSpace → strtoul s = none) := by
  rw [parseKickCount_eq]
  by_cases htab : 11 ∈ s.takeWhile isSpace
  · obtain ⟨t, ht⟩ := dropWhile_of_tab htab
    have hnone : unsignedLong (signed (11 :: t)).1 (signed (11 :: t)).2 = none := rfl
    rw [ht, hnone]
    cases strtoul s with
    | none => simp
    | some v => simp [htab]
  · rw [dropWhile_of_no_tab htab]
    exact ⟨fun _ h => absurd h htab, fun _ => rfl⟩

/-- A vertical tab before the count: `strtoul` skips it, the code finds no number. -/
theorem kick_count_after_tab :
    parseKickCount [11, 53] = none ∧ (strtoul [11, 53]).map (· % 2 ^ 32) = some 5 := by decide

end Beanstalkd.Parse
