import Mathlib.Data.List.Basic
import Beanstalkd.Lib.Run
import Beanstalkd.Proto.Codec

/-!
# Framing does not depend on how bytes arrive

`turn` takes bytes whenever it does not wait, and a round on a longer buffer does
what the round on the shorter one did (`turn_round`, a `Reader.Round`). So the
frames, the codec's state and the bytes left over are those of the whole stream,
however it was cut.

With `emit_put_started` on, a put line yields a frame of its own. Apart from
that frame the codec does the same (`turn_quiet`), and what follows the frame
is the end of that put: `Announce` says which frame may come when, and
`reads_announce` that the codec's frames are a run of it.
-/

namespace Beanstalkd.ServerCodec

open Parse Codec Reader

variable {c c' : ServerCodec} {src rest buf x line : Bytes} {f : Frame} {fs : List Frame}
  {n remaining : Nat} {overflowed b : Bool} {o' : Option Bool}

/-! ## The line scan -/

theorem findCr_iff {w : Bytes} :
    (w.take (w.length - 1)).findIdx? (· == 13) = some n ∧ w[n + 1]? = some 10 ↔
      13 ∉ w.take n ∧ w[n]? = some 13 ∧ w[n + 1]? = some 10 := by
  rw [List.findIdx?_eq_some_iff_getElem]
  simp only [List.mem_take_iff_getElem, List.getElem?_eq_some_iff]
  grind

/-- A line end is found exactly where the first `\r` is, when `\n` follows it
and the two are inside the window. -/
theorem scanLineEnd_found_iff :
    scanLineEnd buf = .found n ↔ 13 ∉ buf.take n ∧ buf[n]? = some 13 ∧ buf[n + 1]? = some 10 ∧
      n + 2 ≤ lineBufSize := by
  have hwindow : 13 ∉ (buf.take lineBufSize).take n ∧ (buf.take lineBufSize)[n]? = some 13 ∧
      (buf.take lineBufSize)[n + 1]? = some 10 ↔ 13 ∉ buf.take n ∧ buf[n]? = some 13 ∧
      buf[n + 1]? = some 10 ∧ n + 2 ≤ lineBufSize := by
    simp only [List.take_take, List.getElem?_take]
    by_cases hn : n + 2 ≤ lineBufSize
    · rw [Nat.min_eq_left (by omega), if_pos (by omega), if_pos (by omega)]
      simp only [hn, and_true]
    · rw [if_neg (show ¬ n + 1 < lineBufSize by omega)]
      simp only [hn, and_false, reduceCtorEq]
  rw [← hwindow, ← findCr_iff]
  unfold scanLineEnd
  extract_lets window missing
  have hm : missing ≠ .found n := by
    unfold missing
    split <;> nofun
  cases hf : (window.take (window.length - 1)).findIdx? (· == 13) with
  | none => simp only [hm, reduceCtorEq, false_and]
  | some pos =>
    simp only [Option.some.injEq]
    split
    · next h10 =>
      refine ⟨fun h => ?_, fun h => by rw [h.1]⟩
      cases h
      exact ⟨rfl, h10⟩
    · next h10 =>
      refine ⟨fun h => absurd h hm, fun h => ?_⟩
      obtain ⟨rfl, h⟩ := h
      exact absurd h h10

theorem scanLineEnd_overflow (h : scanLineEnd buf = .overflow) : lineBufSize ≤ buf.length := by
  unfold scanLineEnd at h
  extract_lets window missing at h
  have hm : missing = .overflow → lineBufSize ≤ buf.length := by
    unfold missing window
    rw [List.length_take]
    split
    · intro; omega
    · nofun
  split at h
  · split at h
    · cases h
    · exact hm h
  · exact hm h

/-- Past the window nothing matters. -/
theorem scanLineEnd_append (h : lineBufSize ≤ buf.length) (x : Bytes) :
    scanLineEnd (buf ++ x) = scanLineEnd buf := by
  rw [scanLineEnd, scanLineEnd, List.take_append_of_le_length h]

theorem scanLineEnd_found_append (h : scanLineEnd buf = .found n) (x : Bytes) :
    scanLineEnd (buf ++ x) = .found n := by
  obtain ⟨hcr, h13, h10, hn⟩ := scanLineEnd_found_iff.mp h
  obtain ⟨hlen, -⟩ := List.getElem?_eq_some_iff.mp h10
  refine scanLineEnd_found_iff.mpr ⟨?_, ?_, ?_, hn⟩
  · rwa [List.take_append_of_le_length (by omega)]
  · rwa [List.getElem?_append_left (by omega)]
  · rwa [List.getElem?_append_left hlen]

theorem scanLineEnd_found_length (h : scanLineEnd buf = .found n) : n + 2 ≤ buf.length := by
  obtain ⟨-, -, h10, -⟩ := scanLineEnd_found_iff.mp h
  exact (List.getElem?_eq_some_iff.mp h10).1

/-! ## What a complete line leads to

A line is answered at once, or opens a put; either way the bytes after it are
left alone. -/

/-- The codec is told of a put: a frame, or only the state. -/
def opened (c : ServerCodec) (tooBig : Bool) (src : Bytes) : Turn ServerCodec UInt8 Frame :=
  if c.emitPutStarted then .give (.putStarted tooBig) c src else .again c src

/-- The put whose body the codec is in, if any: `some true` if it is discarding it. -/
def pending (c : ServerCodec) : Option Bool :=
  match c.state with
  | .line _ => none
  | .putBody .. => some false
  | .discard .. => some true

/-- A frame that ends a put, after its start was announced as too big or not. -/
inductive Completes : Bool → Frame → Prop where
  | put (pri delay ttr : Nat) (body : Bytes) : Completes false (.command (.put pri delay ttr body))
  | badCrlf : Completes false (.putRejected .expectedCrlf)
  | tooBig : Completes true (.putRejected .jobTooBig)

/-- Which frame may come when: `none` is between puts, `some b` inside one. -/
inductive Announce : Option Bool → Frame → Option Bool → Prop where
  | plain {f : Frame} : (∀ b, f ≠ .putStarted b) → (∀ b, ¬ Completes b f) → Announce none f none
  | start (b : Bool) : Announce none (.putStarted b) (some b)
  | finish {b : Bool} {f : Frame} : Completes b f → Announce (some b) f none

theorem okOrBadFormat_ok {r : Option ParsedLine} {l : ParsedLine}
    (h : okOrBadFormat r = .ok l) : r = some l := by
  cases r with
  | none => cases h
  | some l' => cases h; rfl

/-- No command line is a complete put. -/
theorem parseLineRaw_not_put {cmd : Command} (h : parseLineRaw line = .ok (.command cmd)) :
    ∀ b, ¬ Completes b (.command cmd) := by
  intro b hb
  cases hb
  unfold parseLineRaw at h
  split at h
  · cases h
  split at h
  · cases h
  next op n _ =>
  have hbare {cmd' cmd'' : Command} {rest : Bytes} (h : bare cmd' rest = .ok (.command cmd'')) :
      cmd' = cmd'' := by
    unfold bare at h
    split at h <;> cases h
    rfl
  have hid {cmd' : JobId → Command} {cmd'' : Command} {rest : Bytes}
      (h : withId cmd' rest = .ok (.command cmd'')) : ∃ id, cmd' id = cmd'' := by
    unfold withId at h
    split at h <;> cases h
    exact ⟨_, rfl⟩
  have htube {cmd' : TubeName → Command} {cmd'' : Command} {rest : Bytes}
      (h : withTube cmd' rest = .ok (.command cmd'')) : ∃ t, cmd' t = cmd'' := by
    unfold withTube at h
    split at h <;> cases h
    exact ⟨_, rfl⟩
  cases op with
  | put =>
    have h := okOrBadFormat_ok h
    simp [parsePut, Option.bind_eq_some_iff] at h
  | reserveTimeout =>
    have h := okOrBadFormat_ok h
    simp [parseReserveTimeout, Option.bind_eq_some_iff] at h
  | release =>
    have h := okOrBadFormat_ok h
    simp [parseRelease, Option.bind_eq_some_iff] at h
  | bury =>
    have h := okOrBadFormat_ok h
    simp [parseBury, Option.bind_eq_some_iff] at h
  | kick =>
    have h := okOrBadFormat_ok h
    simp [parseKick, Option.bind_eq_some_iff] at h
  | pauseTube =>
    have h := okOrBadFormat_ok h
    simp only [parsePauseTube, Option.bind_eq_bind, Option.bind_eq_some_iff] at h
    obtain ⟨_, _, _, _, h⟩ := h
    split at h <;> cases h
  | quit => cases h
  | peekJob | reserveJob | delete | kickJob | touch | statsJob =>
    obtain ⟨_, h⟩ := hid h
    cases h
  | statsTube | use | watch | ignore =>
    obtain ⟨_, h⟩ := htube h
    cases h
  | peekReady | peekDelayed | peekBuried | reserve | stats | listTubesWatched | listTubeUsed
  | listTubes => cases hbare h

theorem dispatchLine_cases (c : ServerCodec) (line : Bytes) :
    (∃ f, Announce none f none ∧ ∀ src, c.dispatchLine line src = .give f c.between src) ∨
    ∃ st b, { c with state := st }.pending = some b ∧
      ∀ src, c.dispatchLine line src = opened { c with state := st } b src := by
  unfold dispatchLine
  cases c.authToken line with
  | some token => exact .inl ⟨.auth token, .plain nofun nofun, fun _ => rfl⟩
  | none =>
    cases hp : parseLineRaw line with
    | error r => exact .inl ⟨.error r, .plain nofun nofun, fun _ => rfl⟩
    | ok l =>
      cases l with
      | command cmd =>
        exact .inl ⟨.command cmd, .plain nofun (parseLineRaw_not_put hp), fun _ => rfl⟩
      | put h =>
        simp only [startPut]
        split
        · exact .inr ⟨.discard (h.bodySize + 2) (Nat.succ_pos _), true, rfl, fun _ => rfl⟩
        split
        · exact .inl ⟨.putRejected .trailingGarbage, .plain nofun nofun, fun _ => rfl⟩
        · exact .inr ⟨.putBody h.pri h.delay h.ttr h.bodySize, false, rfl, fun _ => rfl⟩

theorem finishPut_completes (pri delay ttr bodySize : Nat) (body : Bytes) :
    Completes false (finishPut pri delay ttr bodySize body) := by
  unfold finishPut
  split
  · exact .put ..
  · exact .badCrlf

/-! ## One round, by the state it starts in -/

theorem turn_line (hst : c.state = .line overflowed) (src : Bytes) :
    c.turn src = match scanLineEnd src with
      | .incomplete => .wait c src
      | .overflow => .again { c with state := .line true } (src.drop lineBufSize)
      | .found contentLen =>
        if overflowed then .give (.error .badFormat) c.between (src.drop (contentLen + 2))
        else c.dispatchLine (src.take contentLen) (src.drop (contentLen + 2)) := by
  cases c
  cases hst
  rfl

theorem turn_putBody {pri delay ttr bodySize : Nat}
    (hst : c.state = .putBody pri delay ttr bodySize)
    (src : Bytes) :
    c.turn src = if src.length < bodySize + 2 then .wait c src
      else .give (finishPut pri delay ttr bodySize (src.take (bodySize + 2))) c.between
        (src.drop (bodySize + 2)) := by
  rw [turn, hst]

theorem turn_discard {pos : 0 < remaining} (hst : c.state = .discard remaining pos) (src : Bytes) :
    c.turn src = if src.isEmpty then .wait c src
      else if h : src.length < remaining then
        .wait { c with state := .discard (remaining - src.length) (Nat.sub_pos_of_lt h) } []
      else .give (.putRejected .jobTooBig) c.between (src.drop remaining) := by
  rw [turn, hst]
  by_cases h : src.length < remaining
  · simp only [Nat.min_eq_right (Nat.le_of_lt h), List.drop_length, Nat.sub_pos_of_lt h, h, dif_pos]
  · simp only [Nat.min_eq_left (Nat.le_of_not_lt h), Nat.sub_self, h, gt_iff_lt, Nat.lt_irrefl,
      dif_neg, not_false_eq_true]

/-- A round on what has not arrived waits, whatever the codec is in. -/
theorem turn_nil (c : ServerCodec) : c.turn [] = .wait c [] := by
  cases hst : c.state with
  | line overflowed => rw [turn_line hst]; rfl
  | putBody pri delay ttr bodySize => exact (turn_putBody hst []).trans (if_pos (Nat.succ_pos _))
  | discard remaining pos => rw [turn_discard hst]; rfl

theorem round_line (hst : c.state = .line overflowed) (src : Bytes) : Round turn c src := by
  cases hscan : scanLineEnd src with
  | incomplete => exact .idle (by rw [turn_line hst, hscan])
  | overflow =>
    have hlen := scanLineEnd_overflow hscan
    refine .again { c with state := .line true } lineBufSize (by decide) hlen fun x => ?_
    rw [turn_line hst, scanLineEnd_append hlen, hscan, List.drop_append_of_le_length hlen]
  | found n =>
    have hlen := scanLineEnd_found_length hscan
    have hturn (x : Bytes) : c.turn (src ++ x) =
        if overflowed then .give (.error .badFormat) c.between (src.drop (n + 2) ++ x)
        else c.dispatchLine (src.take n) (src.drop (n + 2) ++ x) := by
      rw [turn_line hst, scanLineEnd_found_append hscan]
      simp only [List.drop_append_of_le_length hlen,
        List.take_append_of_le_length (show n ≤ src.length by omega)]
    cases overflowed with
    | true => exact .give _ _ (n + 2) (Nat.succ_pos _) hlen hturn
    | false =>
      obtain ⟨f, -, hd⟩ | ⟨st, b, -, hd⟩ := c.dispatchLine_cases (src.take n)
      · exact .give f _ (n + 2) (Nat.succ_pos _) hlen fun x => (hturn x).trans (hd _)
      cases hemit : c.emitPutStarted with
      | true =>
        refine .give (.putStarted b) { c with state := st } (n + 2) (Nat.succ_pos _) hlen
          fun x => ?_
        exact (hturn x).trans ((hd _).trans (if_pos hemit))
      | false =>
        refine .again { c with state := st } (n + 2) (Nat.succ_pos _) hlen fun x => ?_
        exact (hturn x).trans ((hd _).trans (if_neg (by simp [hemit])))

theorem round_putBody {pri delay ttr bodySize : Nat}
    (hst : c.state = .putBody pri delay ttr bodySize)
    (src : Bytes) : Round turn c src := by
  by_cases hlen : src.length < bodySize + 2
  · exact .idle (by rw [turn_putBody hst, if_pos hlen])
  refine .give (finishPut pri delay ttr bodySize (src.take (bodySize + 2))) c.between
    (bodySize + 2) (Nat.succ_pos _) (by omega) fun x => ?_
  rw [turn_putBody hst, if_neg (by rw [List.length_append]; omega),
    List.take_append_of_le_length (by omega), List.drop_append_of_le_length (by omega)]

/-- A body too big is thrown away as it comes; how it is cut only changes when. -/
theorem round_discard {pos : 0 < remaining} (hst : c.state = .discard remaining pos) (src : Bytes) :
    Round turn c src := by
  by_cases hempty : src.isEmpty
  · exact .idle (by rw [turn_discard hst, if_pos hempty])
  have hne (x : Bytes) : ¬ (src ++ x).isEmpty := by
    rw [List.isEmpty_iff] at hempty ⊢
    intro h
    exact hempty (List.append_eq_nil_iff.mp h).1
  by_cases hlen : src.length < remaining
  · refine .part { c with state := .discard (remaining - src.length) (Nat.sub_pos_of_lt hlen) }
      (by rw [turn_discard hst, if_neg hempty, dif_pos hlen]) fun x => ?_
    rw [turn_discard hst, turn_discard rfl, if_neg (hne x)]
    simp only [List.length_append]
    cases x with
    | nil =>
      simp only [List.append_nil, List.length_nil, Nat.add_zero, hlen, dif_pos, List.isEmpty_nil,
        if_true]
    | cons b x =>
      rw [if_neg (by simp)]
      by_cases h : src.length + (b :: x).length < remaining
      · rw [dif_pos h, dif_pos (by omega)]
        simp only [Nat.sub_add_eq]
      rw [dif_neg h, dif_neg (by omega), List.drop_append,
        List.drop_of_length_le (Nat.le_of_lt hlen), List.nil_append]
      rfl
  · refine .give (.putRejected .jobTooBig) c.between remaining pos (by omega) fun x => ?_
    rw [turn_discard hst, if_neg (hne x), dif_neg (by rw [List.length_append]; omega),
      List.drop_append_of_le_length (by omega)]

theorem turn_round (c : ServerCodec) (src : Bytes) : Round turn c src := by
  cases hst : c.state with
  | line overflowed => exact round_line hst src
  | putBody pri delay ttr bodySize => exact round_putBody hst src
  | discard remaining pos => exact round_discard hst src

/-- The frames, the codec and the bytes left over do not depend on the cuts. -/
theorem decodeChunks_eq (c : ServerCodec) (chunks : List Bytes) :
    c.decodeChunks chunks = c.decodeStream chunks.flatten :=
  feedAll_eq turn_round c.turn_nil chunks

/-! ## With and without the announcement of puts -/

/-- The codec with `emit_put_started` off. -/
def quiet (c : ServerCodec) : ServerCodec := { c with emitPutStarted := false }

/-- The frames a caller that did not ask for announcements sees. -/
def heard (f : Frame) : Bool := !f.isPutStarted

theorem Completes.heard (h : Completes b f) : heard f = true := by
  cases h <;> rfl

theorem dispatchLine_quiet (c : ServerCodec) (line src : Bytes) :
    c.quiet.dispatchLine line src = Turn.mute heard quiet (c.dispatchLine line src) := by
  unfold dispatchLine
  have ht : c.quiet.authToken line = c.authToken line := rfl
  rw [ht]
  cases c.authToken line with
  | some token => rfl
  | none =>
    cases parseLineRaw line with
    | error r => rfl
    | ok l =>
      cases l with
      | command cmd => rfl
      | put h =>
        have hmax : c.quiet.maxJobSize = c.maxJobSize := rfl
        simp only [startPut, hmax]
        -- Only here do the two differ: one tells of the put, the other goes on.
        cases hemit : c.emitPutStarted with
        | true | false =>
          split
          · rfl
          · split <;> rfl

theorem turn_quiet (c : ServerCodec) (src : Bytes) :
    c.quiet.turn src = Turn.mute heard quiet (c.turn src) := by
  cases hst : c.state with
  | line overflowed =>
    rw [turn_line hst, turn_line (c := c.quiet) hst]
    cases scanLineEnd src with
    | incomplete | overflow => rfl
    | found n =>
      cases overflowed with
      | true => rfl
      | false => exact dispatchLine_quiet ..
  | putBody pri delay ttr bodySize =>
    rw [turn_putBody hst, turn_putBody (c := c.quiet) hst]
    split
    · rfl
    · rw [Turn.mute, if_pos (finishPut_completes pri delay ttr bodySize _).heard]
      rfl
  | discard remaining pos =>
    rw [turn_discard hst, turn_discard (c := c.quiet) hst]
    split
    · rfl
    · split <;> rfl

/-- Without announcements the codec yields the same frames but those. -/
theorem decodeStream_quiet (c : ServerCodec) (stream : Bytes) :
    c.quiet.decodeStream stream =
      ((c.decodeStream stream).1.filter heard, (c.decodeStream stream).2.1.quiet,
        (c.decodeStream stream).2.2) := by
  have h := (drain_reads turn_round _ c ([] ++ stream) (Nat.lt_succ_self _)).mute turn_quiet
  exact congrArg (fun r => ([] ++ r.1, r.2.1, r.2.2)) (drain_eq turn_round h)

/-! ## An announced put comes to its end -/

/-- One round of a codec that announces: what it was in the middle of, what it
yields and what it is in the middle of then. -/
def Follows (c : ServerCodec) : Turn ServerCodec UInt8 Frame → Prop
  | .again c' _ => c'.emitPutStarted = true ∧ c'.pending = c.pending
  | .give f c' _ => c'.emitPutStarted = true ∧ Announce c.pending f c'.pending
  | .wait c' _ => c'.emitPutStarted = true ∧ c'.pending = c.pending

theorem turn_follows (hc : c.emitPutStarted = true) (src : Bytes) : Follows c (c.turn src) := by
  cases hst : c.state with
  | line overflowed =>
    have hp : c.pending = none := by rw [pending, hst]
    rw [turn_line hst]
    cases scanLineEnd src with
    | incomplete => exact ⟨hc, rfl⟩
    | overflow => exact ⟨hc, hp.symm⟩
    | found n =>
      cases overflowed with
      | true => exact ⟨hc, hp ▸ .plain nofun nofun⟩
      | false =>
        show Follows c (c.dispatchLine (src.take n) (src.drop (n + 2)))
        obtain ⟨f, hf, hd⟩ | ⟨st, b, hb, hd⟩ := c.dispatchLine_cases (src.take n)
        · rw [hd]
          exact ⟨hc, hp ▸ hf⟩
        rw [hd, opened, if_pos hc]
        refine ⟨hc, ?_⟩
        rw [hp, hb]
        exact .start b
  | putBody pri delay ttr bodySize =>
    have hp : c.pending = some false := by rw [pending, hst]
    rw [turn_putBody hst]
    split
    · exact ⟨hc, rfl⟩
    · exact ⟨hc, hp ▸ .finish (finishPut_completes ..)⟩
  | discard remaining pos =>
    have hp : c.pending = some true := by rw [pending, hst]
    rw [turn_discard hst]
    split
    · exact ⟨hc, rfl⟩
    split
    · exact ⟨hc, hp.symm⟩
    · exact ⟨hc, hp ▸ .finish .tooBig⟩

/-- The frames of a codec that announces are a run of `Announce`. -/
theorem reads_announce (hc : c.emitPutStarted = true) (h : Reads turn c src fs c' rest) :
    Run Announce c.pending fs c'.pending := by
  induction h with
  | @wait c _ src _ hw =>
    have h := turn_follows hc src
    rw [hw] at h
    rw [h.2]
    exact .nil _
  | @again c _ _ src _ _ _ ha _ ih =>
    have h := turn_follows hc src
    rw [ha] at h
    rw [← h.2]
    exact ih h.1
  | @give c _ _ src _ _ _ _ hg _ ih =>
    have h := turn_follows hc src
    rw [hg] at h
    exact .cons h.2 (ih h.1)

/-- So is the frame of one call. -/
theorem call_announce (n : Nat) (hc : c.emitPutStarted = true) (src : Bytes) :
    (call turn n c src).2.1.emitPutStarted = true ∧
      Run Announce c.pending (call turn n c src).1.toList (call turn n c src).2.1.pending := by
  induction n generalizing c src with
  | zero => exact ⟨hc, .nil _⟩
  | succ n ih =>
    have h := turn_follows hc src
    rw [call]
    cases ht : c.turn src with
    | again c' src' =>
      rw [ht] at h
      rw [← h.2]
      exact ih h.1 src'
    | give f c' src' =>
      rw [ht] at h
      exact ⟨h.1, .single h.2⟩
    | wait c' src' =>
      rw [ht] at h
      exact ⟨h.1, h.2 ▸ .nil _⟩

/-- The frame after an announcement ends that put; only if the stream stops in
the put's body is there none. -/
theorem announced {o : Option Bool} {pre post : List Frame}
    (h : Run Announce o (pre ++ .putStarted b :: post) o') :
    (post = [] ∧ o' = some b) ∨ ∃ f post', post = f :: post' ∧ Completes b f := by
  obtain ⟨_, -, h⟩ := h.split_append
  cases h with
  | cons hs h =>
    cases hs with
    | plain hne _ => exact absurd rfl (hne b)
    | finish hb => cases hb
    | start =>
      cases h with
      | nil => exact .inl ⟨rfl, rfl⟩
      | cons hs' _ =>
        cases hs' with
        | finish hb => exact .inr ⟨_, _, rfl, hb⟩

/-- The codec gets into a put by announcing it. -/
theorem announce_last {o : Option Bool} (h : Run Announce o fs o') (ho : o' = some b) :
    (fs = [] ∧ o = some b) ∨ ∃ pre, fs = pre ++ [.putStarted b] := by
  induction h with
  | nil => exact .inl ⟨rfl, ho⟩
  | @cons _ _ _ f _ hs _ ih =>
    obtain ⟨rfl, rfl⟩ | ⟨pre, rfl⟩ := ih ho
    · cases hs
      exact .inr ⟨[], rfl⟩
    · exact .inr ⟨f :: pre, rfl⟩

/-- A frame that ends a put comes right after its announcement. -/
theorem completion_announced {pre post : List Frame} (h : Run Announce none (pre ++ f :: post) o')
    (hf : Completes b f) : ∃ pre', pre = pre' ++ [.putStarted b] := by
  obtain ⟨o, hpre, h⟩ := h.split_append
  cases h with
  | cons hs _ =>
    cases hs with
    | plain _ hno => exact absurd hf (hno b)
    | start => cases hf
    | @finish b' _ hb =>
      have hbb : b' = b := by cases hb <;> cases hf <;> rfl
      subst hbb
      obtain ⟨-, h⟩ | h := announce_last hpre rfl
      · cases h
      · exact h

/-! ## The decoder's contract -/

/-- A new codec, with `auth` lines recognized or not. -/
def fresh (maxJobSize : UInt32) (auth : Bool) : ServerCodec :=
  { new maxJobSize with recognizeAuth := auth }

/-- A new codec that announces puts. -/
def announcing (maxJobSize : UInt32) (auth : Bool) : ServerCodec :=
  { fresh maxJobSize auth with emitPutStarted := true }

/-- However a stream is cut, the frames, the codec and the bytes left over are
those of the stream at once. With announcements on, the frames without them
are the frames of the codec that makes none; each announcement is followed at
once by the one frame that ends its put, unless the stream stops inside that
put; and no frame ends a put without one. -/
theorem decode_independent_of_chunks (maxJobSize : UInt32) (auth : Bool) (chunks : List Bytes) :
    (fresh maxJobSize auth).decodeChunks chunks =
        (fresh maxJobSize auth).decodeStream chunks.flatten ∧
      (announcing maxJobSize auth).decodeChunks chunks =
        (announcing maxJobSize auth).decodeStream chunks.flatten ∧
      ((announcing maxJobSize auth).decodeStream chunks.flatten).1.filter (!·.isPutStarted) =
        ((fresh maxJobSize auth).decodeStream chunks.flatten).1 ∧
      (∀ pre b post,
        ((announcing maxJobSize auth).decodeStream chunks.flatten).1 =
          pre ++ .putStarted b :: post →
        (post = [] ∧
          ((announcing maxJobSize auth).decodeStream chunks.flatten).2.1.pending = some b) ∨
        ∃ f post', post = f :: post' ∧ Completes b f) ∧
      ∀ pre f post b,
        ((announcing maxJobSize auth).decodeStream chunks.flatten).1 = pre ++ f :: post →
        Completes b f → ∃ pre', pre = pre' ++ [.putStarted b] := by
  have hq := (announcing maxJobSize auth).decodeStream_quiet chunks.flatten
  have hrun : Run Announce none ((announcing maxJobSize auth).decodeStream chunks.flatten).1
      ((announcing maxJobSize auth).decodeStream chunks.flatten).2.1.pending :=
    reads_announce (c := announcing maxJobSize auth) rfl
      (drain_reads turn_round _ _ ([] ++ chunks.flatten) (Nat.lt_succ_self _))
  refine ⟨decodeChunks_eq _ chunks, decodeChunks_eq _ chunks, ?_, ?_, ?_⟩
  · exact (congrArg Prod.fst hq).symm
  · intro pre b post h
    rw [h] at hrun
    exact announced hrun
  intro pre f post b h hf
  rw [h] at hrun
  exact completion_announced hrun hf

/-- A stream may stop after a put line: then the announcement is the last frame. -/
theorem put_cut_short : ¬ ∀ pre b post,
    ((announcing 65535 false).decodeStream (ascii "put 0 0 0 1\r\n")).1 =
        pre ++ .putStarted b :: post →
      ∃ f post', post = f :: post' ∧ Completes b f := by
  intro h
  have hframes : ((announcing 65535 false).decodeStream (ascii "put 0 0 0 1\r\n")).1 =
      [.putStarted false] := by decide
  obtain ⟨_, _, hpost, -⟩ := h [] false [] hframes
  cases hpost

end Beanstalkd.ServerCodec
