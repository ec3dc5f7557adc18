import Beanstalkd.Proto.Encode
import Beanstalkd.Proto.KickCount

/-!
# A client can tell the replies apart

`Response::encode` (`crates/proto/src/response.rs`), and a client's decoder for it.
Every reply is a line of words, and some are followed by a body whose length is the
line's last word. So a decoder finds the end of the line, reads the words, and then
takes as many bytes as the line says (`Response.read`): the body is never looked at.

That one reading of one reply gives the reply and all that follows it
(`read_encode`), and that nothing is read before its last byte is there
(`read_part`), make a stream of replies readable in one way only.
-/

namespace Beanstalkd

open Parse

namespace Response

/-! ## The server's encoding -/

def pushWithBody (header body : Bytes) : Bytes := header ++ body ++ crlf

def encode : Response → Bytes
  | .inserted id => ascii "INSERTED " ++ decimal id ++ crlf
  | .buriedId id => ascii "BURIED " ++ decimal id ++ crlf
  | .buried => ascii "BURIED\r\n"
  | .using tube => ascii "USING " ++ tube.bytes ++ crlf
  | .reserved id body =>
    pushWithBody (ascii "RESERVED " ++ decimal id ++ ascii " " ++ decimal body.length ++ crlf) body
  | .found id body =>
    pushWithBody (ascii "FOUND " ++ decimal id ++ ascii " " ++ decimal body.length ++ crlf) body
  | .watching n => ascii "WATCHING " ++ decimal n ++ crlf
  | .kicked n => ascii "KICKED " ++ decimal n ++ crlf
  | .kickedJob => ascii "KICKED\r\n"
  | .ok body => pushWithBody (ascii "OK " ++ decimal body.length ++ crlf) body
  | .deadlineSoon => ascii "DEADLINE_SOON\r\n"
  | .timedOut => ascii "TIMED_OUT\r\n"
  | .deleted => ascii "DELETED\r\n"
  | .released => ascii "RELEASED\r\n"
  | .touched => ascii "TOUCHED\r\n"
  | .notFound => ascii "NOT_FOUND\r\n"
  | .notIgnored => ascii "NOT_IGNORED\r\n"
  | .paused => ascii "PAUSED\r\n"
  | .expectedCrlf => ascii "EXPECTED_CRLF\r\n"
  | .jobTooBig => ascii "JOB_TOO_BIG\r\n"
  | .draining => ascii "DRAINING\r\n"
  | .outOfMemory => ascii "OUT_OF_MEMORY\r\n"
  | .internalError => ascii "INTERNAL_ERROR\r\n"
  | .badFormat => ascii "BAD_FORMAT\r\n"
  | .unknownCommand => ascii "UNKNOWN_COMMAND\r\n"
  | .authenticated => ascii "AUTHENTICATED\r\n"
  | .unauthorized => ascii "UNAUTHORIZED\r\n"

/-! ## The client's decoder -/

/-- The replies of one word. -/
def bare : List (Bytes × Response) :=
  [(ascii "BURIED", .buried), (ascii "KICKED", .kickedJob), (ascii "DEADLINE_SOON", .deadlineSoon),
    (ascii "TIMED_OUT", .timedOut), (ascii "DELETED", .deleted), (ascii "RELEASED", .released),
    (ascii "TOUCHED", .touched), (ascii "NOT_FOUND", .notFound), (ascii "NOT_IGNORED", .notIgnored),
    (ascii "PAUSED", .paused), (ascii "EXPECTED_CRLF", .expectedCrlf),
    (ascii "JOB_TOO_BIG", .jobTooBig), (ascii "DRAINING", .draining),
    (ascii "OUT_OF_MEMORY", .outOfMemory), (ascii "INTERNAL_ERROR", .internalError),
    (ascii "BAD_FORMAT", .badFormat), (ascii "UNKNOWN_COMMAND", .unknownCommand),
    (ascii "AUTHENTICATED", .authenticated), (ascii "UNAUTHORIZED", .unauthorized)]

/-- The replies of a word and a number. -/
def numbered : List (Bytes × (Nat → Response)) :=
  [(ascii "INSERTED", .inserted), (ascii "BURIED", .buriedId), (ascii "WATCHING", .watching),
    (ascii "KICKED", .kicked)]

/-- The replies with a job. -/
def withJob : List (Bytes × (JobId → Bytes → Response)) :=
  [(ascii "RESERVED", .reserved), (ascii "FOUND", .found)]

/-- What a line says: all of the reply, or the length of the body that makes it one. -/
inductive Head where
  | whole (r : Response)
  | body (len : Nat) (r : Bytes → Response)

/-- A word that is a number. -/
def number (word : Bytes) : Option Nat :=
  if word ≠ [] ∧ word.all isAsciiDigit then some (magnitude word) else none

def headOf : List Bytes → Option Head
  | [word] => (bare.lookup word).map .whole
  | [word, arg] =>
    if word = ascii "USING" then (TubeName.new arg).map fun t => .whole (.using t)
    else if word = ascii "OK" then (number arg).map fun len => .body len .ok
    else do
      let r ← numbered.lookup word
      let n ← number arg
      return .whole (r n)
  | [word, id, len] => do
    let r ← withJob.lookup word
    let id ← number id
    let len ← number len
    return .body len (r id)
  | _ => none

/-- The line at the front, without its `\r\n`, and what follows it. -/
def splitLine (buf : Bytes) : Option (Bytes × Bytes) :=
  let line := buf.takeWhile (· ≠ 10)
  if line.length < buf.length ∧ line.getLast? = some 13 then
    some (line.dropLast, buf.drop (line.length + 1))
  else none

/-- One reply and what follows it; `none` if it is not all there yet. -/
def read (buf : Bytes) : Option (Response × Bytes) := do
  let (line, rest) ← splitLine buf
  match ← headOf (line.splitOn 32) with
  | .whole r => return (r, rest)
  | .body len r =>
    if len + 2 ≤ rest.length ∧ (rest.drop len).take 2 = crlf then
      return (r (rest.take len), rest.drop (len + 2))
    else none

/-- A stream of replies. Every reply takes at least one byte. -/
def readAll : Nat → Bytes → Option (List Response)
  | 0, buf => if buf.isEmpty then some [] else none
  | fuel + 1, buf =>
    if buf.isEmpty then some []
    else do
      let (r, rest) ← read buf
      let rs ← readAll fuel rest
      return r :: rs

def decode (buf : Bytes) : Option (List Response) := readAll buf.length buf

/-! ## A reply as words and a body -/

def words : Response → List Bytes
  | .inserted id => [ascii "INSERTED", decimal id]
  | .buriedId id => [ascii "BURIED", decimal id]
  | .buried => [ascii "BURIED"]
  | .using tube => [ascii "USING", tube.bytes]
  | .reserved id body => [ascii "RESERVED", decimal id, decimal body.length]
  | .found id body => [ascii "FOUND", decimal id, decimal body.length]
  | .watching n => [ascii "WATCHING", decimal n]
  | .kicked n => [ascii "KICKED", decimal n]
  | .kickedJob => [ascii "KICKED"]
  | .ok body => [ascii "OK", decimal body.length]
  | .deadlineSoon => [ascii "DEADLINE_SOON"]
  | .timedOut => [ascii "TIMED_OUT"]
  | .deleted => [ascii "DELETED"]
  | .released => [ascii "RELEASED"]
  | .touched => [ascii "TOUCHED"]
  | .notFound => [ascii "NOT_FOUND"]
  | .notIgnored => [ascii "NOT_IGNORED"]
  | .paused => [ascii "PAUSED"]
  | .expectedCrlf => [ascii "EXPECTED_CRLF"]
  | .jobTooBig => [ascii "JOB_TOO_BIG"]
  | .draining => [ascii "DRAINING"]
  | .outOfMemory => [ascii "OUT_OF_MEMORY"]
  | .internalError => [ascii "INTERNAL_ERROR"]
  | .badFormat => [ascii "BAD_FORMAT"]
  | .unknownCommand => [ascii "UNKNOWN_COMMAND"]
  | .authenticated => [ascii "AUTHENTICATED"]
  | .unauthorized => [ascii "UNAUTHORIZED"]

/-- What follows the line. -/
def payload : Response → Bytes
  | .reserved _ body | .found _ body | .ok body => body ++ crlf
  | _ => []

/-- What the line of a reply says. -/
def head : Response → Head
  | .reserved id body => .body body.length (.reserved id)
  | .found id body => .body body.length (.found id)
  | .ok body => .body body.length .ok
  | r => .whole r

def line (r : Response) : Bytes := [32].intercalate r.words

theorem encode_eq (r : Response) : r.encode = r.line ++ crlf ++ r.payload := by
  have hspace : ∀ (word : String) (arg : Bytes), ascii (word ++ " ") ++ arg =
      [32].intercalate [ascii word, arg] := by
    intro word arg
    simp [List.intercalate, ascii, String.toList_append]
  have hspaces : ∀ (word : String) (a b : Bytes), ascii (word ++ " ") ++ a ++ ascii " " ++ b =
      [32].intercalate [ascii word, a, b] := by
    intro word a b
    simp [List.intercalate, ascii, String.toList_append]
  cases r with
  | inserted id => exact (congrArg (· ++ crlf) (hspace "INSERTED" _)).trans (List.append_nil _).symm
  | buriedId id => exact (congrArg (· ++ crlf) (hspace "BURIED" _)).trans (List.append_nil _).symm
  | «using» tube => exact (congrArg (· ++ crlf) (hspace "USING" _)).trans (List.append_nil _).symm
  | watching n => exact (congrArg (· ++ crlf) (hspace "WATCHING" _)).trans (List.append_nil _).symm
  | kicked n => exact (congrArg (· ++ crlf) (hspace "KICKED" _)).trans (List.append_nil _).symm
  | ok body =>
    exact (congrArg (· ++ crlf ++ body ++ crlf) (hspace "OK" _)).trans (List.append_assoc ..)
  | reserved id body =>
    exact (congrArg (· ++ crlf ++ body ++ crlf) (hspaces "RESERVED" _ _)).trans
      (List.append_assoc ..)
  | found id body =>
    exact (congrArg (· ++ crlf ++ body ++ crlf) (hspaces "FOUND" _ _)).trans (List.append_assoc ..)
  | _ => rfl

/-! ## Words are read back -/

theorem magnitude_decimal (n : Nat) : magnitude (decimal n) = n := by
  induction n using Nat.strongRecOn with
  | _ n ih =>
    have hlast := (digit_byte (Nat.mod_lt n (by decide : 10 > 0))).2
    rw [decimal_eq, magnitude]
    split
    · next hlt =>
      rw [List.nil_append, List.foldl_cons, List.foldl_nil, hlast]
      omega
    next hge =>
    have hrest : (decimal (n / 10)).foldl (fun v d => v * 10 + (d.toNat - 48)) 0 = n / 10 :=
      ih (n / 10) (by omega)
    rw [List.foldl_append, hrest, List.foldl_cons, List.foldl_nil, hlast]
    omega

theorem number_decimal (n : Nat) : number (decimal n) = some n := by
  have hall : (decimal n).all isAsciiDigit = true := List.all_eq_true.2 (decimal_digits n)
  rw [number, if_pos ⟨decimal_ne_nil n, hall⟩, magnitude_decimal]

theorem headOf_words (r : Response) : headOf r.words = some r.head := by
  cases r with
  | inserted id | buriedId id | watching id | kicked id =>
    simp only [words, headOf, number_decimal]
    rfl
  | «using» tube =>
    simp only [words, headOf, if_true, TubeName.new_bytes]
    rfl
  | ok | reserved | found =>
    simp only [words, headOf, number_decimal]
    rfl
  | _ => rfl

/-- The bytes of a word stand for themselves: no space, and no part of a line end. -/
def Plain (word : Bytes) : Prop := ∀ b ∈ word, printable b = true ∧ b ≠ 32

instance (word : Bytes) : Decidable (Plain word) :=
  List.decidableBAll (fun b => printable b = true ∧ b ≠ 32) word

theorem decimal_plain (n : Nat) : Plain (decimal n) := by
  intro b hb
  have hd := decimal_digits n b hb
  refine ⟨isAsciiDigit_printable hd, ?_⟩
  rintro rfl
  cases hd

theorem tube_plain (t : TubeName) : Plain t.bytes := by
  intro b hb
  have hv := t.valid
  simp only [validateTubeName, Bool.and_eq_true, List.all_eq_true] at hv
  exact isNameChar_printable (hv.2 b hb)

theorem words_plain (r : Response) : ∀ word ∈ r.words, Plain word := by
  cases r with
  | inserted n | buriedId n | watching n | kicked n =>
    exact List.forall_mem_cons.2 ⟨by decide, List.forall_mem_singleton.2 (decimal_plain n)⟩
  | «using» tube =>
    exact List.forall_mem_cons.2 ⟨by decide, List.forall_mem_singleton.2 (tube_plain tube)⟩
  | ok body =>
    exact List.forall_mem_cons.2 ⟨by decide, List.forall_mem_singleton.2 (decimal_plain _)⟩
  | reserved id body | found id body =>
    exact List.forall_mem_cons.2 ⟨by decide, List.forall_mem_cons.2 ⟨decimal_plain id,
      List.forall_mem_singleton.2 (decimal_plain _)⟩⟩
  | _ => exact List.forall_mem_singleton.2 (by decide)

theorem words_ne_nil (r : Response) : r.words ≠ [] := by
  cases r <;> simp [words]

theorem splitOn_line (r : Response) : r.line.splitOn 32 = r.words := by
  refine List.splitOn_intercalate 32 (fun word hw h32 => ?_) (words_ne_nil r)
  exact (words_plain r word hw 32 h32).2 rfl

theorem line_printable (r : Response) : ∀ b ∈ r.line, printable b = true := by
  have hjoin : ∀ ws, (∀ word ∈ ws, Plain word) →
      ∀ b ∈ [32].intercalate ws, printable b = true := by
    intro ws
    induction ws with
    | nil => simp
    | cons word ws ih =>
      intro hws b hb
      obtain ⟨hword, hrest⟩ := List.forall_mem_cons.1 hws
      cases ws with
      | nil =>
        rw [List.intercalate_singleton] at hb
        exact (hword b hb).1
      | cons word' ws =>
        rw [List.intercalate_cons_cons, List.mem_append, List.mem_append, List.mem_singleton] at hb
        rcases hb with (hb | rfl) | hb
        · exact (hword b hb).1
        · rfl
        · exact ih hrest b hb
  exact hjoin r.words (words_plain r)

/-! ## One reply -/

theorem line_no_feed (r : Response) : ∀ b ∈ r.line ++ [13], (decide (b ≠ 10)) = true := by
  intro b hb
  rcases List.mem_append.1 hb with hb | hb
  · have hp := line_printable r b hb
    rw [decide_eq_true_eq]
    rintro rfl
    cases hp
  · rw [List.mem_singleton.1 hb]
    rfl

/-- The line of a reply ends at its `\r\n`, whatever follows. -/
theorem splitLine_line (r : Response) (rest : Bytes) :
    splitLine (r.line ++ crlf ++ rest) = some (r.line, rest) := by
  have hbuf : r.line ++ crlf ++ rest = (r.line ++ [13]) ++ 10 :: rest := by
    simp [crlf]
  have hline : (r.line ++ crlf ++ rest).takeWhile (· ≠ 10) = r.line ++ [13] := by
    rw [hbuf, List.takeWhile_append_of_pos (line_no_feed r), List.takeWhile_cons_of_neg (by decide),
      List.append_nil]
  have hdrop : (r.line ++ crlf ++ rest).drop ((r.line ++ [13]).length + 1) = rest := by
    rw [hbuf, List.drop_append, List.drop_eq_nil_of_le (by omega), Nat.add_sub_cancel_left]
    rfl
  rw [splitLine, hline, hdrop, if_pos]
  · rw [List.dropLast_concat]
  · rw [hbuf]
    simp

theorem read_encode (r : Response) (rest : Bytes) : read (r.encode ++ rest) = some (r, rest) := by
  rw [encode_eq, List.append_assoc, read, splitLine_line]
  simp only [Option.bind_eq_bind, Option.bind_some, splitOn_line, headOf_words]
  have hbody : ∀ (body : Bytes) (f : Bytes → Response),
      (if body.length + 2 ≤ (body ++ crlf ++ rest).length ∧
          ((body ++ crlf ++ rest).drop body.length).take 2 = crlf
        then some (f ((body ++ crlf ++ rest).take body.length),
          (body ++ crlf ++ rest).drop (body.length + 2)) else none) = some (f body, rest) := by
    intro body f
    have hlen : (body ++ crlf).length = body.length + 2 := by rw [List.length_append]; rfl
    have htake : (body ++ crlf ++ rest).take body.length = body := by
      rw [List.append_assoc, List.take_left]
    have hcr : ((body ++ crlf ++ rest).drop body.length).take 2 = crlf := by
      rw [List.append_assoc, List.drop_left]
      rfl
    have hrest : (body ++ crlf ++ rest).drop (body.length + 2) = rest := by
      rw [← hlen, List.drop_left]
    rw [if_pos ⟨by rw [List.length_append, hlen]; omega, hcr⟩, htake, hrest]
  cases r with
  | reserved id body => exact hbody body (.reserved id)
  | found id body => exact hbody body (.found id)
  | ok body => exact hbody body .ok
  | _ => rfl

/-- A part of a line has no line end in it. -/
theorem splitLine_part {r : Response} {p : Bytes} (hp : p <+: r.line ++ [13]) :
    splitLine p = none := by
  have htake : (p ++ []).takeWhile (· ≠ 10) = p ++ [] :=
    List.takeWhile_append_of_pos fun b hb => line_no_feed r b (hp.subset hb)
  rw [List.append_nil] at htake
  rw [splitLine, htake, if_neg (fun h => absurd h.1 (Nat.lt_irrefl _))]

/-- The decoder waits for the last byte of a reply. -/
theorem read_part {r : Response} {p : Bytes} (hp : p <+: r.encode) (hne : p ≠ r.encode) :
    read p = none := by
  have henc : r.encode = (r.line ++ [13]) ++ 10 :: r.payload := by
    rw [encode_eq]
    simp [crlf]
  by_cases hlen : p.length ≤ (r.line ++ [13]).length
  · have hline : p <+: r.line ++ [13] :=
      List.prefix_of_prefix_length_le hp (henc ▸ List.prefix_append ..) hlen
    rw [read, splitLine_part hline]
    rfl
  · -- the line is there, and some of the body
    have hline : r.line ++ crlf <+: p := by
      refine List.prefix_of_prefix_length_le (encode_eq r ▸ List.prefix_append ..) hp ?_
      simp only [List.length_append, crlf, List.length_cons, List.length_nil] at hlen ⊢
      omega
    obtain ⟨part, rfl⟩ := hline
    rw [encode_eq] at hp hne
    have hpart : part <+: r.payload := (List.prefix_append_right_inj _).1 hp
    have hshort : part.length < r.payload.length := by
      refine Nat.lt_of_le_of_ne hpart.length_le fun h => hne ?_
      rw [hpart.eq_of_length h]
    rw [read, splitLine_line]
    simp only [Option.bind_eq_bind, Option.bind_some, splitOn_line, headOf_words]
    have hbody : ∀ body : Bytes, r.payload = body ++ crlf → ¬ body.length + 2 ≤ part.length := by
      intro body hb
      rw [hb, List.length_append] at hshort
      exact Nat.not_le.2 hshort
    cases r with
    | reserved _ body | found _ body | ok body => exact if_neg fun h => hbody body rfl h.1
    | _ => exact absurd hshort (Nat.not_lt_zero _)

/-! ## Streams -/

theorem encode_ne_nil (r : Response) : r.encode ≠ [] := by
  rw [encode_eq]
  simp [crlf]

theorem readAll_encode (rs : List Response) :
    ∀ fuel, rs.length ≤ fuel → readAll fuel (rs.flatMap encode) = some rs := by
  induction rs with
  | nil =>
    intro fuel _
    cases fuel <;> rfl
  | cons r rs ih =>
    intro fuel hfuel
    cases fuel with
    | zero => simp at hfuel
    | succ fuel =>
      have hne : (r.encode ++ rs.flatMap encode).isEmpty = false := by
        simp [encode_ne_nil]
      rw [List.flatMap_cons, readAll, hne, read_encode]
      simp only [Bool.false_eq_true, if_false, Option.bind_eq_bind, Option.bind_some,
        ih fuel (Nat.le_of_succ_le_succ hfuel)]
      rfl

theorem length_le_stream (rs : List Response) : rs.length ≤ (rs.flatMap encode).length := by
  induction rs with
  | nil => exact Nat.le_refl _
  | cons r rs ih =>
    have := List.length_pos_iff.2 (encode_ne_nil r)
    rw [List.flatMap_cons, List.length_append, List.length_cons]
    omega

theorem decode_stream (rs : List Response) : decode (rs.flatMap encode) = some rs :=
  readAll_encode rs _ (length_le_stream rs)

/-- Replies are uniquely decodable. The decoder gives a reply when its last byte is
there, not before it, and whatever follows; so it recovers every stream, different
streams differ, and no reply begins with another one. -/
theorem replies_uniquely_decodable :
    (∀ rs : List Response, decode (rs.flatMap encode) = some rs) ∧
      (∀ (r : Response) (rest : Bytes), read (r.encode ++ rest) = some (r, rest)) ∧
      (∀ (r : Response) (p : Bytes), p <+: r.encode → p ≠ r.encode → read p = none) ∧
      (∀ rs rs' : List Response, rs.flatMap encode = rs'.flatMap encode → rs = rs') ∧
      (∀ r r' : Response, r.encode <+: r'.encode → r = r') := by
  refine ⟨decode_stream, read_encode, fun r p => read_part, ?_, ?_⟩
  · intro rs rs' h
    have hdec := decode_stream rs
    rw [h, decode_stream rs'] at hdec
    exact (Option.some.inj hdec).symm
  · rintro r r' ⟨rest, h⟩
    have hread := read_encode r rest
    have hread' := read_encode r' []
    rw [List.append_nil, ← h, hread] at hread'
    exact (Prod.mk.inj (Option.some.inj hread')).1

end Response

end Beanstalkd
