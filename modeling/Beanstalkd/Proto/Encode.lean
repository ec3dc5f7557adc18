import Mathlib.Tactic.IntervalCases
import Beanstalkd.Proto.Stats
import Beanstalkd.Proto.Framing

/-!
# What a client sends is what the server reads

`Command.encode` is the client's side of the protocol, the encoder of
`crates/proto/tests/support.rs`: the command word, decimal arguments after one
space each, `\r\n`, and for a put the body with its own `\r\n`. Decoding a list
of encoded commands yields the list (`decode_encode`).

A line is shown to be read back in three parts: its bytes are printable and few
enough for the window (`Command.line_printable`, `Command.line_length`), its
word is recognized (`whichCmd` on each word), and its arguments are read back
(`readU64Partial_decimal` and what is built on it). The body of a put is then
taken by its length, so its bytes do not matter.
-/

namespace Beanstalkd

open Parse

/-! ## The client's encoding -/

def crlf : Bytes := [13, 10]

/-- The command line, without its `\r\n`. -/
def Command.line : Command → Bytes
  | .put pri delay ttr body =>
    ascii "put " ++ decimal pri ++ ascii " " ++ decimal delay ++ ascii " " ++ decimal ttr ++
      ascii " " ++ decimal body.length
  | .use t => ascii "use " ++ t.bytes
  | .reserve => ascii "reserve"
  | .reserveWithTimeout t => ascii "reserve-with-timeout " ++ decimal t
  | .reserveJob id => ascii "reserve-job " ++ decimal id
  | .delete id => ascii "delete " ++ decimal id
  | .release id pri delay =>
    ascii "release " ++ decimal id ++ ascii " " ++ decimal pri ++ ascii " " ++ decimal delay
  | .bury id pri => ascii "bury " ++ decimal id ++ ascii " " ++ decimal pri
  | .touch id => ascii "touch " ++ decimal id
  | .watch t => ascii "watch " ++ t.bytes
  | .ignore t => ascii "ignore " ++ t.bytes
  | .peek id => ascii "peek " ++ decimal id
  | .peekReady => ascii "peek-ready"
  | .peekDelayed => ascii "peek-delayed"
  | .peekBuried => ascii "peek-buried"
  | .kick n => ascii "kick " ++ decimal n
  | .kickJob id => ascii "kick-job " ++ decimal id
  | .statsJob id => ascii "stats-job " ++ decimal id
  | .statsTube t => ascii "stats-tube " ++ t.bytes
  | .stats => ascii "stats"
  | .listTubes => ascii "list-tubes"
  | .listTubeUsed => ascii "list-tube-used"
  | .listTubesWatched => ascii "list-tubes-watched"
  | .quit => ascii "quit"
  | .pauseTube t delay => ascii "pause-tube " ++ t.bytes ++ ascii " " ++ decimal delay
  | .pauseTubeBadName => ascii "pause-tube -bad 0"

/-- What follows the line: a put's body. -/
def Command.payload : Command → Bytes
  | .put _ _ _ body => body ++ crlf
  | _ => []

def Command.encode (cmd : Command) : Bytes := cmd.line ++ crlf ++ cmd.payload

/-- The values the fields of the Rust type can take, the timeout the protocol
allows and a body within the limit. Tube names are valid by their type. -/
def Command.Valid (maxJobSize : UInt32) : Command → Prop
  | .put pri delay ttr body =>
    pri ≤ u32Max ∧ delay ≤ u32Max ∧ ttr ≤ u32Max ∧ body.length ≤ maxJobSize.toNat
  | .reserveWithTimeout t => t ≤ i32Max
  | .reserveJob id | .delete id | .touch id | .peek id | .kickJob id | .statsJob id => id ≤ u64Max
  | .release id pri delay => id ≤ u64Max ∧ pri ≤ u32Max ∧ delay ≤ u32Max
  | .bury id pri => id ≤ u64Max ∧ pri ≤ u32Max
  | .kick n => n ≤ u32Max
  | .pauseTube _ delay => delay ≤ u32Max
  | .use _ | .watch _ | .ignore _ | .statsTube _ | .reserve | .peekReady | .peekDelayed
  | .peekBuried | .stats | .listTubes | .listTubeUsed | .listTubesWatched | .quit
  | .pauseTubeBadName => True

/-! ## Decimal numbers -/

/-- The last digit comes off the end. -/
theorem decimal_eq (n : Nat) :
    decimal n = (if n < 10 then [] else decimal (n / 10)) ++ [(48 + n % 10).toUInt8] := by
  have hdigit (d : Nat) (h : d < 10) : (Nat.digitChar d).toNat.toUInt8 = (48 + d).toUInt8 := by
    interval_cases d <;> rfl
  unfold decimal
  rw [Nat.toDigits_eq_if (by omega)]
  split
  · next h => simp [hdigit n h, Nat.mod_eq_of_lt h]
  · simp [hdigit (n % 10) (Nat.mod_lt _ (by omega))]

variable {n : Nat} {rest : Bytes} {b : UInt8}

theorem decimal_length_le {k : Nat} (hk : 0 < k) (h : n < 10 ^ k) : (decimal n).length ≤ k := by
  rw [decimal, List.length_map]
  exact (Nat.length_toDigits_le_iff (by decide) hk).mpr h

theorem digit_byte {d : Nat} (h : d < 10) :
    isAsciiDigit (48 + d).toUInt8 = true ∧ (48 + d).toUInt8.toNat - 48 = d := by
  interval_cases d <;> decide

theorem decimal_digits (n : Nat) : ∀ b ∈ decimal n, isAsciiDigit b = true := by
  induction n using Nat.strongRecOn with
  | _ n ih =>
    intro b hb
    rw [decimal_eq, List.mem_append, List.mem_singleton] at hb
    rcases hb with hb | rfl
    · split at hb
      · cases hb
      · exact ih (n / 10) (by omega) b hb
    · exact (digit_byte (Nat.mod_lt n (by decide))).1

theorem decimal_ne_nil (n : Nat) : decimal n ≠ [] := by
  rw [decimal_eq]
  simp

/-- Reading the digits back gives the number; nothing saturates on the way. -/
theorem foldl_pushDigit_decimal (n : Nat) (h : n ≤ u128Max) :
    (decimal n).foldl pushDigit 0 = n := by
  induction n using Nat.strongRecOn with
  | _ n ih =>
    have hlast := (digit_byte (Nat.mod_lt n (by decide : 10 > 0))).2
    rw [decimal_eq]
    split
    · next hlt =>
      rw [List.nil_append, List.foldl_cons, List.foldl_nil, pushDigit, hlast]
      omega
    next hge =>
    rw [List.foldl_append, ih (n / 10) (by omega) (by omega), List.foldl_cons, List.foldl_nil,
      pushDigit, hlast]
    omega

/-! ## Arguments are read back -/

/-- What follows a number on a line: a space, or nothing. -/
def Ended (rest : Bytes) : Prop := ∀ b, rest.head? = some b → b = 32

theorem ended_nil : Ended [] := nofun

theorem ended_space (rest : Bytes) : Ended (ascii " " ++ rest) := by
  intro b h
  cases h
  rfl

theorem span_exact {p : UInt8 → Bool} {body : Bytes} (hbody : ∀ b ∈ body, p b = true)
    (hrest : Ended rest) (hp : p 32 = false) :
    (body ++ rest).takeWhile p = body ∧ (body ++ rest).dropWhile p = rest := by
  rw [List.takeWhile_append_of_pos hbody, List.dropWhile_append_of_pos hbody]
  cases rest with
  | nil => exact ⟨List.append_nil _, rfl⟩
  | cons b rest =>
    have hb : p b = false := by rw [hrest b rfl, hp]
    rw [List.takeWhile_cons_of_neg (by simp [hb]), List.dropWhile_cons_of_neg (by simp [hb])]
    exact ⟨List.append_nil _, rfl⟩

theorem skipLeadingSpaces_space (buf : Bytes) :
    skipLeadingSpaces (ascii " " ++ buf) = skipLeadingSpaces buf := rfl

theorem skipLeadingSpaces_cons (hb : b ≠ 32) (buf : Bytes) :
    skipLeadingSpaces (b :: buf) = b :: buf :=
  List.dropWhile_cons_of_neg (by simpa using hb)

theorem parseDigits_decimal (hn : n ≤ u128Max) (hrest : Ended rest) :
    parseDigits (decimal n ++ rest) = some (n, rest) ∧
      skipLeadingSpaces (decimal n ++ rest) = decimal n ++ rest := by
  obtain ⟨htake, hdrop⟩ := span_exact (decimal_digits n) hrest (by decide)
  have hval := foldl_pushDigit_decimal n hn
  have hall := decimal_digits n
  cases hd : decimal n with
  | nil => exact absurd hd (decimal_ne_nil n)
  | cons b bs =>
    rw [hd] at htake hdrop hval hall
    have hb : isAsciiDigit b = true := hall b List.mem_cons_self
    constructor
    · rw [parseDigits, htake, hdrop, hval, if_neg]
      simp only [List.cons_append, List.head?_cons, Option.all_some, hb, Bool.not_true,
        Bool.false_eq_true, not_false_eq_true]
    refine skipLeadingSpaces_cons ?_ _
    rintro rfl
    cases hb

theorem readU64Partial_decimal (hn : n ≤ u64Max) (hrest : Ended rest) :
    readU64Partial (decimal n ++ rest) = some (n, rest) := by
  have h128 : n ≤ u128Max := by unfold u64Max at hn; unfold u128Max; omega
  obtain ⟨hparse, hskip⟩ := parseDigits_decimal h128 hrest
  simp only [readU64Partial, hskip, hparse, Option.bind_eq_bind, Option.bind_some,
    if_neg (Nat.not_lt.mpr hn)]

theorem readU32Partial_decimal (hn : n ≤ u32Max) (hrest : Ended rest) :
    readU32Partial (decimal n ++ rest) = some (n, rest) := by
  have h64 : n ≤ u64Max := by unfold u32Max at hn; unfold u64Max; omega
  simp only [readU32Partial, readU64Partial_decimal h64 hrest, Option.bind_eq_bind,
    Option.bind_some, if_neg (Nat.not_lt.mpr hn)]

theorem readU32Partial_space (buf : Bytes) :
    readU32Partial (ascii " " ++ buf) = readU32Partial buf := rfl

theorem readU32Full_space (buf : Bytes) : readU32Full (ascii " " ++ buf) = readU32Full buf := rfl

theorem readU64Full_decimal (hn : n ≤ u64Max) : readU64Full (decimal n) = some n := by
  have h := readU64Partial_decimal hn ended_nil
  rw [List.append_nil] at h
  simp only [readU64Full, h, Option.bind_eq_bind, Option.bind_some, List.isEmpty_nil, if_true]

theorem readU32Full_decimal (hn : n ≤ u32Max) : readU32Full (decimal n) = some n := by
  have h := readU32Partial_decimal hn ended_nil
  rw [List.append_nil] at h
  simp only [readU32Full, h, Option.bind_eq_bind, Option.bind_some, List.isEmpty_nil, if_true]

/-- A digit is neither whitespace nor a sign. -/
theorem digit_plain (h : isAsciiDigit b = true) :
    isAsciiWhitespace b = false ∧ (b == 45) = false ∧ (b == 43) = false := by
  have hall : ∀ n : Fin 256, isAsciiDigit (UInt8.ofNat n) = true →
      isAsciiWhitespace (UInt8.ofNat n) = false ∧ (UInt8.ofNat n == 45) = false ∧
        (UInt8.ofNat n == 43) = false := by decide +kernel
  have hb := hall ⟨b.toNat, b.toNat_lt⟩
  rw [UInt8.ofNat_toNat] at hb
  exact hb h

theorem parseKickCount_decimal (hn : n ≤ u32Max) : parseKickCount (decimal n) = some n := by
  have h128 : n ≤ u128Max := by unfold u32Max at hn; unfold u128Max; omega
  obtain ⟨htake, -⟩ := span_exact (decimal_digits n) ended_nil (by decide)
  rw [List.append_nil] at htake
  have hval := foldl_pushDigit_decimal n h128
  have hall := decimal_digits n
  cases hd : decimal n with
  | nil => exact absurd hd (decimal_ne_nil n)
  | cons b bs =>
    rw [hd] at htake hval hall
    obtain ⟨hwhite, hminus, hplus⟩ := digit_plain (hall b List.mem_cons_self)
    have hdrop : (b :: bs).dropWhile isAsciiWhitespace = b :: bs :=
      List.dropWhile_cons_of_neg (by simp [hwhite])
    simp only [parseKickCount, hdrop, List.head?_cons, Option.some_beq_some, hminus, hplus,
      Bool.or_false, Bool.false_eq_true, if_false, htake, List.isEmpty_cons, hval,
      if_neg (Nat.not_lt.mpr (show n ≤ u64Max by unfold u32Max at hn; unfold u64Max; omega))]
    rw [Nat.mod_eq_of_lt (by unfold u32Max at hn; omega)]

/-- A byte that may stand in a line: neither a NUL nor part of a line end. -/
def printable (b : UInt8) : Bool := 32 ≤ b && b < 127

theorem isNameChar_printable (h : isNameChar b = true) : printable b = true ∧ b ≠ 32 := by
  have hall : ∀ n : Fin 256, isNameChar (UInt8.ofNat n) = true →
      printable (UInt8.ofNat n) = true ∧ UInt8.ofNat n ≠ 32 := by decide +kernel
  have hb := hall ⟨b.toNat, b.toNat_lt⟩
  rw [UInt8.ofNat_toNat] at hb
  exact hb h

theorem isAsciiDigit_printable (h : isAsciiDigit b = true) : printable b = true := by
  simp only [isAsciiDigit, Bool.and_eq_true, decide_eq_true_eq, UInt8.le_iff_toNat_le] at h
  simp only [printable, Bool.and_eq_true, decide_eq_true_eq, UInt8.le_iff_toNat_le,
    UInt8.lt_iff_toNat_lt]
  have h48 : (48 : UInt8).toNat = 48 := rfl
  have h57 : (57 : UInt8).toNat = 57 := rfl
  have h32 : (32 : UInt8).toNat = 32 := rfl
  have h127 : (127 : UInt8).toNat = 127 := rfl
  omega

namespace TubeName

theorem bytes_spec (t : TubeName) : t.bytes ≠ [] ∧ t.bytes.length ≤ maxTubeNameLen ∧
    ∀ b ∈ t.bytes, isNameChar b = true := by
  have h := t.valid
  simp only [validateTubeName, Bool.and_eq_true, Bool.not_eq_true', List.isEmpty_eq_false_iff,
    decide_eq_true_eq, List.all_eq_true] at h
  exact ⟨h.1.1.1, h.1.1.2, h.2⟩

end TubeName

theorem readTubeNameSpan_tube (t : TubeName) (hrest : Ended rest) :
    readTubeNameSpan (ascii " " ++ (t.bytes ++ rest)) = some (t.bytes, rest) := by
  obtain ⟨hne, -, hall⟩ := t.bytes_spec
  obtain ⟨htake, hdrop⟩ := span_exact hall hrest (by decide)
  have hskip : skipLeadingSpaces (t.bytes ++ rest) = t.bytes ++ rest := by
    cases hb : t.bytes with
    | nil => exact absurd hb hne
    | cons b bs =>
      exact skipLeadingSpaces_cons (isNameChar_printable (hall b (by rw [hb]; simp))).2 _
  simp only [readTubeNameSpan, skipLeadingSpaces_space, hskip, htake, hdrop, List.isEmpty_iff, hne,
    if_false]

/-! ## Lines are read back -/

namespace Command

/-- What a command's line is parsed to. -/
def parsed : Command → ParsedLine
  | .put pri delay ttr body =>
    .put { pri, delay, ttr, bodySize := body.length, trailingGarbage := false }
  | cmd => .command cmd

theorem line_printable (cmd : Command) : ∀ b ∈ cmd.line, printable b = true := by
  have hnum (n : Nat) : (decimal n).all printable = true :=
    List.all_eq_true.mpr fun b hb => isAsciiDigit_printable (decimal_digits n b hb)
  have htube (t : TubeName) : t.bytes.all printable = true :=
    List.all_eq_true.mpr fun b hb => (isNameChar_printable (t.bytes_spec.2.2 b hb)).1
  rw [← List.all_eq_true]
  cases cmd <;> simp only [line, List.all_append, hnum, htube, Bool.and_true] <;> rfl

variable {maxJobSize : UInt32}

theorem line_length {cmd : Command} (h : cmd.Valid maxJobSize) :
    cmd.line.length + 2 ≤ lineBufSize := by
  have h32 {n : Nat} (h : n ≤ u32Max) : (decimal n).length ≤ 10 :=
    decimal_length_le (by decide) (by unfold u32Max at h; omega)
  have h64 {n : Nat} (h : n ≤ u64Max) : (decimal n).length ≤ 20 :=
    decimal_length_le (by decide) (by unfold u64Max at h; omega)
  have htube (t : TubeName) : t.bytes.length ≤ 200 := t.bytes_spec.2.1
  unfold lineBufSize
  cases cmd with
  | put pri delay ttr body =>
    obtain ⟨hpri, hdelay, httr, hbody⟩ := h
    have hsize : body.length ≤ u32Max := by
      have := maxJobSize.toNat_lt
      unfold u32Max
      omega
    have h₁ := h32 hpri
    have h₂ := h32 hdelay
    have h₃ := h32 httr
    have h₄ := h32 hsize
    simp [line, ascii]
    omega
  | reserveWithTimeout t =>
    have h₁ := h32 (Nat.le_trans h (by decide))
    simp [line, ascii]
    omega
  | release id pri delay =>
    obtain ⟨hid, hpri, hdelay⟩ := h
    have h₁ := h64 hid
    have h₂ := h32 hpri
    have h₃ := h32 hdelay
    simp [line, ascii]
    omega
  | bury id pri =>
    obtain ⟨hid, hpri⟩ := h
    have h₁ := h64 hid
    have h₂ := h32 hpri
    simp [line, ascii]
    omega
  | kick n =>
    have h₁ := h32 h
    simp [line, ascii]
    omega
  | pauseTube t delay =>
    -- the longest line there is: it just fits
    have h₁ := htube t
    have h₂ := h32 h
    simp [line, ascii]
    omega
  | reserveJob id | delete id | touch id | peek id | kickJob id | statsJob id =>
    have h₁ := h64 h
    simp [line, ascii]
    omega
  | use t | watch t | ignore t | statsTube t =>
    have h₁ := htube t
    simp [line, ascii]
    omega
  | reserve | peekReady | peekDelayed | peekBuried | stats | listTubes | listTubeUsed
  | listTubesWatched | quit | pauseTubeBadName => simp [line, ascii]

/-- The word of a line is recognized, and what follows it is left. -/
theorem parseLineRaw_word {word args : Bytes} {op : Op}
    (hword : whichCmd (word ++ args) = some (op, word.length))
    (hp : ∀ b ∈ word ++ args, printable b = true) :
    parseLineRaw (word ++ args) = parseArgs op args := by
  have hnul : (word ++ args).contains 0 = false := by
    rw [List.contains_eq_mem, decide_eq_false_iff_not]
    intro h
    have := hp 0 h
    cases this
  rw [parseLineRaw, hnul, hword]
  simp only [Bool.false_eq_true, if_false, List.drop_left]

theorem withId_decimal {id : JobId} (h : id ≤ u64Max) (cmd : JobId → Command) :
    withId cmd (decimal id) = .ok (.command (cmd id)) := by
  rw [withId, readU64Full_decimal h]

theorem withTube_bytes (t : TubeName) (cmd : TubeName → Command) :
    withTube cmd t.bytes = .ok (.command (cmd t)) := by
  rw [withTube, t.new_bytes]

theorem parsePut_args {pri delay ttr size : Nat} (hpri : pri ≤ u32Max) (hdelay : delay ≤ u32Max)
    (httr : ttr ≤ u32Max) (hsize : size ≤ u32Max) :
    parsePut (decimal pri ++ (ascii " " ++ (decimal delay ++ (ascii " " ++ (decimal ttr ++
      (ascii " " ++ decimal size)))))) =
      some (.put { pri, delay, ttr, bodySize := size, trailingGarbage := false }) := by
  have h₄ := readU32Partial_decimal hsize ended_nil
  rw [List.append_nil] at h₄
  simp only [parsePut, readU32Partial_decimal hpri (ended_space _), readU32Partial_space,
    readU32Partial_decimal hdelay (ended_space _), readU32Partial_decimal httr (ended_space _), h₄,
    Option.bind_eq_bind, Option.bind_some, Option.pure_def, List.isEmpty_nil, Bool.not_true]

theorem parseLineRaw_line {cmd : Command} (h : cmd.Valid maxJobSize) :
    parseLineRaw cmd.line = .ok cmd.parsed := by
  have hp := cmd.line_printable
  cases cmd with
  | put pri delay ttr body =>
    obtain ⟨hpri, hdelay, httr, hbody⟩ := h
    have hsize : body.length ≤ u32Max := by
      have := maxJobSize.toNat_lt
      unfold u32Max
      omega
    simp only [line, List.append_assoc] at hp ⊢
    rw [parseLineRaw_word rfl hp, parseArgs, parsePut_args hpri hdelay httr hsize]
    rfl
  | reserveWithTimeout t =>
    have ht : t ≤ u32Max := Nat.le_trans h (by decide)
    have hread := readU32Partial_decimal ht ended_nil
    rw [List.append_nil] at hread
    rw [line, parseLineRaw_word rfl hp, parseArgs]
    simp only [parseReserveTimeout, hread, Option.bind_eq_bind, Option.bind_some,
      if_neg (Nat.not_lt.mpr h)]
    rfl
  | release id pri delay =>
    obtain ⟨hid, hpri, hdelay⟩ := h
    simp only [line, List.append_assoc] at hp ⊢
    rw [parseLineRaw_word rfl hp, parseArgs]
    simp only [parseRelease, readU64Partial_decimal hid (ended_space _), readU32Partial_space,
      readU32Partial_decimal hpri (ended_space _), readU32Full_space, readU32Full_decimal hdelay,
      Option.bind_eq_bind, Option.bind_some]
    rfl
  | bury id pri =>
    obtain ⟨hid, hpri⟩ := h
    simp only [line, List.append_assoc] at hp ⊢
    rw [parseLineRaw_word rfl hp, parseArgs]
    simp only [parseBury, readU64Partial_decimal hid (ended_space _), readU32Full_space,
      readU32Full_decimal hpri, Option.bind_eq_bind, Option.bind_some]
    rfl
  | kick n =>
    rw [line, parseLineRaw_word rfl hp, parseArgs]
    simp only [parseKick, parseKickCount_decimal h, Option.bind_eq_bind, Option.bind_some]
    rfl
  | pauseTube t delay =>
    -- the word ends before the space, which `read_tube_name` skips
    have hline : (pauseTube t delay).line =
        ascii "pause-tube" ++ (ascii " " ++ (t.bytes ++ (ascii " " ++ decimal delay))) := by
      simp [line, ascii]
    rw [hline] at hp ⊢
    rw [parseLineRaw_word rfl hp, parseArgs]
    simp only [parsePauseTube, readTubeNameSpan_tube t (ended_space _), readU32Full_space,
      readU32Full_decimal h, t.new_bytes, Option.bind_eq_bind, Option.bind_some]
    rfl
  | reserveJob id | delete id | touch id | peek id | kickJob id | statsJob id =>
    rw [line, parseLineRaw_word rfl hp, parseArgs, withId_decimal h]
    rfl
  | use t | watch t | ignore t | statsTube t =>
    rw [line, parseLineRaw_word rfl hp, parseArgs, withTube_bytes]
    rfl
  | reserve | peekReady | peekDelayed | peekBuried | stats | listTubes | listTubeUsed
  | listTubesWatched | quit | pauseTubeBadName => rfl

/-- No command looks like an `auth` line. -/
theorem line_not_auth (cmd : Command) (c : ServerCodec) : c.authToken cmd.line = none := by
  have h : (ascii "auth ").isPrefixOf cmd.line = false := by cases cmd <;> rfl
  rw [ServerCodec.authToken, h]
  exact if_neg fun h => Bool.false_ne_true h.2

end Command

/-! ## Streams are read back -/

namespace ServerCodec

open Reader

variable {c c' : ServerCodec} {fs : List Frame} {rest rest' : Bytes}

/-- A codec between frames that announces nothing takes a command's line. -/
theorem turn_encoded {cmd : Command} (hst : c.state = .line false)
    (hvalid : cmd.Valid c.maxJobSize) (rest : Bytes) :
    c.turn (cmd.line ++ crlf ++ rest) = match cmd.parsed with
      | .command cmd => .give (.command cmd) c.between rest
      | .put h => c.startPut h rest := by
  have hscan : scanLineEnd (cmd.line ++ crlf ++ rest) = .found cmd.line.length := by
    rw [List.append_assoc]
    refine scanLineEnd_found_iff.mpr ⟨?_, ?_, ?_, Command.line_length hvalid⟩
    · rw [List.take_left]
      intro h
      have := cmd.line_printable 13 h
      cases this
    · rw [List.getElem?_append_right (Nat.le_refl _), Nat.sub_self]
      rfl
    · rw [List.getElem?_append_right (Nat.le_add_right _ 1), Nat.add_sub_cancel_left]
      rfl
  have hdrop : (cmd.line ++ crlf ++ rest).drop (cmd.line.length + 2) = rest := by
    rw [show cmd.line.length + 2 = (cmd.line ++ crlf).length by rw [List.length_append]; rfl,
      List.drop_left]
  have htake : (cmd.line ++ crlf ++ rest).take cmd.line.length = cmd.line := by
    rw [List.append_assoc, List.take_left]
  rw [turn_line hst, hscan]
  simp only [Bool.false_eq_true, if_false, hdrop, htake, dispatchLine, cmd.line_not_auth,
    Command.parseLineRaw_line hvalid]
  cases cmd.parsed <;> rfl

theorem between_self (hst : c.state = .line false) : c.between = c := by
  rw [between, ← hst]

/-- A put's body and its line end, whatever the bytes of the body. -/
theorem turn_body {pri delay ttr : Nat} (body rest : Bytes) :
    { c with state := .putBody pri delay ttr body.length }.turn (body ++ crlf ++ rest) =
      .give (.command (.put pri delay ttr body)) c.between rest := by
  have hneed : body.length + 2 = (body ++ crlf).length := by rw [List.length_append]; rfl
  rw [turn_putBody rfl, if_neg (by rw [hneed, List.length_append]; omega), hneed, List.take_left,
    List.drop_left]
  have hframe : finishPut pri delay ttr body.length (body ++ crlf) =
      .command (.put pri delay ttr body) := by
    have hend : (body ++ crlf)[body.length]? = some 13 ∧
        (body ++ crlf)[body.length + 1]? = some 10 := by
      rw [List.getElem?_append_right (Nat.le_refl _), Nat.sub_self,
        List.getElem?_append_right (Nat.le_add_right _ 1), Nat.add_sub_cancel_left]
      exact ⟨rfl, rfl⟩
    rw [finishPut, if_pos hend, List.take_left]
  rw [hframe]
  rfl

/-- One encoded command in front of a stream is one command frame more. -/
theorem reads_encoded {cmd : Command} (hst : c.state = .line false)
    (hquiet : c.emitPutStarted = false) (hvalid : cmd.Valid c.maxJobSize)
    (h : Reads turn c rest fs c' rest') :
    Reads turn c (cmd.encode ++ rest) (.command cmd :: fs) c' rest' := by
  have hturn := turn_encoded hst hvalid (cmd.payload ++ rest)
  rw [← List.append_assoc] at hturn
  have hself := between_self hst
  cases cmd with
  | put pri delay ttr body =>
    obtain ⟨-, -, -, hbody⟩ := hvalid
    have hstart (src : Bytes) : c.startPut
        { pri, delay, ttr, bodySize := body.length, trailingGarbage := false } src =
          .again { c with state := .putBody pri delay ttr body.length } src := by
      rw [startPut, if_neg (Nat.not_lt.mpr hbody), if_neg Bool.false_ne_true]
      exact if_neg (by rw [hquiet]; exact Bool.false_ne_true)
    refine .again (hturn.trans (hstart _)) (.give (turn_body body rest) ?_)
    rw [hself]
    exact h
  | _ =>
    refine .give hturn ?_
    rw [hself]
    exact h

/-- Decoding what clients encode gives the commands, with nothing left over and
the codec as new. -/
theorem decode_encode (maxJobSize : UInt32) (auth : Bool) (cmds : List Command)
    (hvalid : ∀ cmd ∈ cmds, cmd.Valid maxJobSize) :
    (fresh maxJobSize auth).decodeStream (cmds.flatMap Command.encode) =
      (cmds.map .command, fresh maxJobSize auth, []) := by
  have hreads : Reads turn (fresh maxJobSize auth) (cmds.flatMap Command.encode)
      (cmds.map .command) (fresh maxJobSize auth) [] := by
    induction cmds with
    | nil => exact .wait (turn_nil _)
    | cons cmd cmds ih =>
      rw [List.flatMap_cons, List.map_cons]
      exact reads_encoded rfl rfl (hvalid cmd List.mem_cons_self)
        (ih fun cmd h => hvalid cmd (List.mem_cons_of_mem _ h))
  have h := drain_eq turn_round hreads
  rw [decodeStream, feed]
  simp only [List.nil_append, h]

/-- A put whose body looks like commands, and a reservation. -/
theorem decode_encode_put_reserve :
    (fresh 65535 false).decodeStream
        ([Command.put 1 0 60 (ascii "quit\r\n"), .reserve].flatMap Command.encode) =
      ([.command (.put 1 0 60 (ascii "quit\r\n")), .command .reserve], fresh 65535 false, []) :=
  decode_encode 65535 false [.put 1 0 60 (ascii "quit\r\n"), .reserve] (by
    intro cmd h
    rcases List.mem_cons.mp h with rfl | h
    · exact ⟨by decide, by decide, by decide, by decide⟩
    · rw [List.mem_singleton.mp h]
      exact trivial)

end ServerCodec

end Beanstalkd
