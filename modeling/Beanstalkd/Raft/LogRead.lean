import Beanstalkd.Raft.LogSpec

/-!
# Reading the segmented log

What a segment file holds (`Segment.Holds`), what a list of segments holds
(`Laid`), and that reading gives it back: `readDisk` from the files, `readLoop`
from the cache and the files. Where a read stops for the byte limit is the same
in both, the greedy prefix `Numbered.fit` of what was asked for, because every
record takes at least one byte.
-/

namespace Beanstalkd.Raft

open File Numbered LogStore

variable {P : Type} {w : Wire P} {es : List (Ent P)}

/-! ## One record -/

theorem Wire.length_record (w : Wire P) (e : Ent P) : (w.record e).length = w.recLen e :=
  length_frame

theorem Wire.recLen_pos (w : Wire P) (e : Ent P) : 0 < w.recLen e := by
  simp only [Wire.recLen, frameHeader]
  omega

/-- The records of some entries, one after another. -/
def Wire.records (w : Wire P) (es : List (Ent P)) : Bytes := (es.map w.record).flatten

theorem Wire.records_append (w : Wire P) (xs ys : List (Ent P)) :
    w.records (xs ++ ys) = w.records xs ++ w.records ys := by
  rw [records, List.map_append, List.flatten_append]
  rfl

theorem Wire.records_cons (w : Wire P) (e : Ent P) (es : List (Ent P)) :
    w.records (e :: es) = w.record e ++ w.records es := rfl

theorem Wire.length_records (w : Wire P) (es : List (Ent P)) :
    (w.records es).length = total w.recLen es := by
  induction es with
  | nil => rfl
  | cons e es ih => rw [records_cons, List.length_append, w.length_record, ih, total_cons]

theorem Wire.starts_append (w : Wire P) (base : Nat) (xs ys : List (Ent P)) :
    starts base ((xs ++ ys).map w.record) =
      starts base (xs.map w.record) ++ starts (base + total w.recLen xs) (ys.map w.record) := by
  rw [List.map_append, File.starts_append, ← records, w.length_records]

/-- The record of an entry fits its length field. -/
def Short (w : Wire P) (e : Ent P) : Prop := (w.entries.encode e).length < 2 ^ 32

/-- A framed payload is read back, whatever follows it. -/
theorem parseRecord_frame (crc : Bytes → UInt32) {payload : Bytes} (rest : Bytes)
    (hne : payload ≠ []) (hlen : payload.length < 2 ^ 32) :
    parseRecord crc (frame crc payload ++ rest) = .ok (payload, frameHeader + payload.length) := by
  have hpos : payload.length ≠ 0 := by simpa using hne
  have hl : (frame crc payload ++ rest).length = frameHeader + payload.length + rest.length := by
    rw [List.length_append, length_frame]
  unfold parseRecord
  rw [lenField_frame hlen, hl, if_neg (by omega), if_neg hpos, if_neg (by omega), payload_frame]
  rw [if_neg (not_not_intro crcOf_frame)]

theorem parseRecord_record {e : Ent P} (h : Short w e) (rest : Bytes) :
    parseRecord w.crc (w.record e ++ rest) = .ok (w.entries.encode e, w.recLen e) :=
  parseRecord_frame w.crc rest (w.entries.encode_ne_nil e) h

theorem readRecordAt_record {e : Ent P} (h : Short w e) (pre rest : Bytes) :
    readRecordAt w.crc (pre ++ (w.record e ++ rest)) pre.length =
      .ok (w.entries.encode e, w.recLen e) := by
  have hpos : (w.entries.encode e).length ≠ 0 := by simpa using w.entries.encode_ne_nil e
  have hav : (pre ++ (w.record e ++ rest)).length - pre.length = w.recLen e + rest.length := by
    simp only [List.length_append, w.length_record]
    omega
  have hlen : lenField (w.record e ++ rest) = (w.entries.encode e).length := lenField_frame h
  have hbuf : (w.record e ++ rest).take (frameHeader + (w.entries.encode e).length) = w.record e :=
    List.take_left' (w.length_record e)
  have hparse := parseRecord_record h []
  rw [List.append_nil] at hparse
  have hdrop : (w.record e).drop frameHeader = w.entries.encode e := by
    have hd : (w.record e ++ []).drop frameHeader = w.entries.encode e ++ [] := drop_header_frame
    rwa [List.append_nil, List.append_nil] at hd
  unfold readRecordAt
  rw [hav, List.drop_left, hlen, if_neg (by simp only [Wire.recLen]; omega)]
  simp only
  rw [if_neg hpos, if_neg (by simp only [Wire.recLen]; omega), hbuf, hparse]
  simp only [hdrop, Wire.recLen]

/-! ## Segments -/

/-- The segment holds the entries `es`. -/
structure Segment.Holds (w : Wire P) (g : Segment) (es : List (Ent P)) : Prop where
  file : g.file = segHeader g.first ++ w.records es
  offsets : g.offsets = starts segHeaderLen (es.map w.record)
  endOff : g.endOff = segHeaderLen + total w.recLen es
  numbered : From Ent.index g.first es
  short : ∀ e ∈ es, Short w e

theorem length_segHeader (first : Nat) : (segHeader first).length = segHeaderLen := by
  rfl

/-- The length of a segment file. -/
theorem length_segment (w : Wire P) (first : Nat) (es : List (Ent P)) :
    (segHeader first ++ w.records es).length = segHeaderLen + total w.recLen es := by
  rw [List.length_append, length_segHeader, w.length_records]

namespace Segment.Holds

variable {g : Segment} {es : List (Ent P)} {k : Nat}

variable (h : g.Holds w es)
include h

theorem length_offsets : g.offsets.length = es.length := by
  rw [h.offsets, length_starts, List.length_map]

theorem next_eq : g.next = g.first + es.length := by
  rw [Segment.next, h.length_offsets]

theorem length_file : g.file.length = g.endOff := by
  rw [h.file, h.endOff, length_segment]

theorem offset (hk : k < es.length) :
    g.offsets[k]? = some (segHeaderLen + total w.recLen (es.take k)) := by
  rw [h.offsets, starts_getElem?, if_pos (by simpa using hk), ← List.map_take, ← Wire.records,
    w.length_records]

theorem range_fst (hk : k < es.length) :
    (g.range k).1 = segHeaderLen + total w.recLen (es.take k) := by
  rw [Segment.range, h.offset hk]
  rfl

/-- A record ends where the next one starts, the last one at the end. -/
theorem range_snd (hk : k < es.length) :
    (g.range k).2 = segHeaderLen + total w.recLen (es.take (k + 1)) := by
  rw [Segment.range]
  simp only
  by_cases hk' : k + 1 < es.length
  · rw [h.offset hk']
    rfl
  rw [List.getElem?_eq_none (by rw [h.length_offsets]; omega), h.endOff,
    List.take_of_length_le (by omega)]
  rfl

/-- The bytes of some consecutive records. -/
theorem readAt_file {xs ys zs : List (Ent P)} (hes : es = xs ++ (ys ++ zs)) :
    readAt g.file (segHeaderLen + total w.recLen xs) (total w.recLen ys) =
      some (w.records ys) := by
  rw [h.file, hes, ← length_segment w g.first, ← w.length_records ys, w.records_append,
    w.records_append, ← List.append_assoc]
  exact readAt_append _ _ _

end Segment.Holds

/-! ## A segment's share of a read -/

section Share

variable {g : Segment} {here : List (Ent P)}

/-- After `cnt` records of `d` bytes the rest is taken as `fit` takes it. -/
theorem fitCount_eq (h : g.Holds w here) (r : Reading P) (maxBytes : Nat) {k start : Nat}
    (hstart : start = segHeaderLen + total w.recLen (here.take k)) :
    ∀ (want cnt d : Nat), d = total w.recLen ((here.drop k).take cnt) →
      k + cnt + want ≤ here.length →
      fitCount g k start maxBytes r want cnt (start + d) =
        (let got := fit w.recLen maxBytes (r.bytes + d) (decide (cnt > 0) || !r.out.isEmpty)
            ((here.drop (k + cnt)).take want)
         (cnt + got.length, start + (d + total w.recLen got))) := by
  intro want
  induction want with
  | zero => intro cnt d _ _; simp [fitCount, fit]
  | succ want ih =>
    intro cnt d hd hlen
    have hk : k + cnt < here.length := by omega
    -- the next record, and the bytes up to its end
    have hdrop : here.drop (k + cnt) = here[k + cnt] :: here.drop (k + cnt + 1) :=
      List.drop_eq_getElem_cons hk
    generalize here[k + cnt] = e at hdrop
    have hnext : (here.drop k).take (cnt + 1) = (here.drop k).take cnt ++ [e] := by
      have he : (here.drop k)[cnt]? = some e := by
        rw [List.getElem?_drop, ← List.head?_drop, hdrop]
        rfl
      rw [List.take_add_one, he]
      rfl
    have hsum : d + w.recLen e = total w.recLen ((here.drop k).take (cnt + 1)) := by
      rw [hnext, total_append, total_cons, total_nil, hd, Nat.add_zero]
    have hend : (g.range (k + cnt)).2 = start + (d + w.recLen e) := by
      rw [h.range_snd hk, Nat.add_assoc, List.take_add, total_append, ← hsum, hstart]
      omega
    rw [fitCount, hend, hdrop, List.take_succ_cons, fit]
    simp only [Nat.add_sub_cancel_left]
    by_cases hstop : (cnt > 0 ∨ (!r.out.isEmpty) = true) ∧ r.bytes + (d + w.recLen e) > maxBytes
    · rw [if_pos hstop, if_pos (by simpa [Nat.add_assoc] using hstop)]
      rfl
    have hgo := ih (cnt + 1) (d + w.recLen e) hsum (by omega)
    have hpos : decide (cnt + 1 > 0) = true := by simp
    rw [if_neg hstop, if_neg (by simpa [Nat.add_assoc] using hstop), hgo, hpos]
    simp only [Bool.true_or, List.length_cons, total_cons, Nat.add_assoc, Nat.add_comm 1]

/-- Records that were read in one piece are the entries they encode. -/
theorem decodeRecords_ok {es : List (Ent P)} (hshort : ∀ e ∈ es, Short w e) :
    ∀ (k : Nat) (rest : Bytes) (r : Reading P), From Ent.index r.idx es →
      decodeRecords w g es.length k (w.records es ++ rest) r =
        .ok { r with out := r.out ++ es, idx := r.idx + es.length } := by
  induction es with
  | nil => intro k rest r _; simp [decodeRecords]
  | cons e es ih =>
    intro k rest r hfrom
    obtain ⟨he, hes⟩ := hfrom
    rw [List.length_cons, decodeRecords, w.records_cons, List.append_assoc,
      parseRecord_record (hshort e (by simp))]
    simp only [w.entries.decode_encode, he, ne_eq, not_true_eq_false, if_false]
    rw [List.drop_left' (w.length_record e),
      ih (fun x hx => hshort x (by simp [hx])) (k + 1) rest { r with out := _, idx := _ } hes]
    simp [Nat.add_assoc, Nat.add_comm 1]

end Share

/-! ## The whole log on disk -/

/-- The segments hold the entries `es`, the first of them with index `n`. -/
def Laid (w : Wire P) : Nat → List Segment → List (Ent P) → Prop
  | _, [], es => es = []
  | n, g :: gs, es =>
    g.first = n ∧ ∃ here rest, es = here ++ rest ∧ g.Holds w here ∧ Laid w (n + here.length) gs rest

namespace Laid

variable {n : Nat} {gs hs : List Segment} {es xs ys : List (Ent P)}

theorem append (hx : Laid w n gs xs) (hy : Laid w (n + xs.length) hs ys) :
    Laid w n (gs ++ hs) (xs ++ ys) := by
  induction gs generalizing n xs with
  | nil =>
    cases hx
    exact hy
  | cons g gs ih =>
    obtain ⟨hn, here, rest, rfl, hg, hgs⟩ := hx
    refine ⟨hn, here, rest ++ ys, List.append_assoc .., hg, ih hgs ?_⟩
    rwa [List.length_append, ← Nat.add_assoc] at hy

theorem split (h : Laid w n (gs ++ hs) es) :
    ∃ xs ys, es = xs ++ ys ∧ Laid w n gs xs ∧ Laid w (n + xs.length) hs ys := by
  induction gs generalizing n es with
  | nil => exact ⟨[], es, rfl, rfl, h⟩
  | cons g gs ih =>
    obtain ⟨hn, here, rest, rfl, hg, hgs⟩ := h
    obtain ⟨xs, ys, rfl, hx, hy⟩ := ih hgs
    refine ⟨here ++ xs, ys, (List.append_assoc ..).symm, ⟨hn, here, xs, rfl, hg, hx⟩, ?_⟩
    rwa [List.length_append, ← Nat.add_assoc]

theorem numbered (h : Laid w n gs es) : From Ent.index n es := by
  induction gs generalizing n es with
  | nil => cases h; trivial
  | cons g gs ih =>
    obtain ⟨rfl, here, rest, rfl, hg, hgs⟩ := h
    exact from_append.2 ⟨hg.numbered, ih hgs⟩

/-- An index of the log is in the last segment that does not start after it. -/
theorem cover (h : Laid w n gs es) {i : Nat} (hlo : n ≤ i) (hhi : i < n + es.length) :
    ∃ si g pre here post, (gs.takeWhile fun g => g.first ≤ i).length = si + 1 ∧
      gs[si]? = some g ∧ es = pre ++ (here ++ post) ∧ g.Holds w here ∧
      g.first = n + pre.length ∧ g.first ≤ i ∧ i < g.first + here.length := by
  induction gs generalizing n es with
  | nil => cases h; simp only [List.length_nil] at hhi; omega
  | cons g gs ih =>
    obtain ⟨hn, here, rest, rfl, hg, hgs⟩ := h
    rw [List.takeWhile_cons, if_pos (by simpa [hn] using hlo), List.length_cons]
    by_cases hi : i < n + here.length
    · -- the segments after this one start above `i`
      have hnone : (gs.takeWhile fun g => g.first ≤ i).length = 0 := by
        cases gs with
        | nil => rfl
        | cons g' gs =>
          obtain ⟨hn', -⟩ := hgs
          rw [List.takeWhile_cons, if_neg (by simp only [decide_eq_true_eq]; omega)]
          rfl
      exact ⟨0, g, [], here, rest, by rw [hnone], rfl, rfl, hg, by simp [hn], by omega, by omega⟩
    · rw [List.length_append, ← Nat.add_assoc] at hhi
      obtain ⟨si, g', pre, here', post, hc, hsi, rfl, hg', hf, hle, hlt⟩ := ih hgs (by omega) hhi
      refine ⟨si + 1, g', here ++ pre, here', post, by rw [hc], by simpa using hsi,
        (List.append_assoc ..).symm, hg', ?_, hle, hlt⟩
      rw [hf, List.length_append, Nat.add_assoc]

theorem locate {s : LogStore P} (h : Laid w n s.segs es) {i : Nat} (hlo : n ≤ i)
    (hhi : i < n + es.length) :
    ∃ si g pre here post, s.locate i = some (si, i - g.first) ∧ s.segs[si]? = some g ∧
      es = pre ++ (here ++ post) ∧ g.Holds w here ∧ g.first = n + pre.length ∧ g.first ≤ i ∧
      i < g.first + here.length := by
  obtain ⟨si, g, pre, here, post, hc, hsi, hes, hg, hf, hle, hlt⟩ := h.cover hlo hhi
  refine ⟨si, g, pre, here, post, ?_, hsi, hes, hg, hf, hle, hlt⟩
  unfold LogStore.locate
  simp only [hc, Nat.add_one_sub_one, hsi, hg.length_offsets]
  rw [if_neg (by omega), if_pos (by omega)]

end Laid

/-- The entries with indexes from `lo` up to `hi` of a list that starts at `n`. -/
def window (n lo hi : Nat) (es : List (Ent P)) : List (Ent P) := (es.drop (lo - n)).take (hi - lo)

theorem window_empty {n lo hi : Nat} (h : hi ≤ lo) : window n lo hi es = [] := by
  rw [window, Nat.sub_eq_zero_of_le h, List.take_zero]

theorem window_split {n lo mid hi : Nat} (hn : n ≤ lo) (hlo : lo ≤ mid) (hhi : mid ≤ hi) :
    window n lo hi es = window n lo mid es ++ window n mid hi es := by
  rw [window, show hi - lo = (mid - lo) + (hi - mid) by omega, List.take_add, List.drop_drop,
    show lo - n + (mid - lo) = mid - n by omega]
  rfl

theorem length_window {n lo hi : Nat} (hn : n ≤ lo) (hhi : hi ≤ n + es.length) :
    (window n lo hi es).length = hi - lo := by
  simp only [window, List.length_take, List.length_drop]
  omega

/-- A window inside one part of the list. -/
theorem window_middle {n lo hi : Nat} {pre here post : List (Ent P)} (hlo : n + pre.length ≤ lo)
    (hhi : hi ≤ n + pre.length + here.length) :
    window n lo hi (pre ++ (here ++ post)) = window (n + pre.length) lo hi here := by
  rw [window, window, List.drop_append, List.drop_eq_nil_of_le (by omega), List.nil_append,
    show lo - n - pre.length = lo - (n + pre.length) by omega]
  by_cases h : hi ≤ lo
  · rw [Nat.sub_eq_zero_of_le h, List.take_zero, List.take_zero]
  rw [List.drop_append_of_le_length (by omega), List.take_append_of_le_length]
  rw [List.length_drop]
  omega

namespace LogStore

/-- What was read, and then `got`. -/
def Reading.add (w : Wire P) (r : Reading P) (got : List (Ent P)) : Reading P :=
  { out := r.out ++ got, idx := r.idx + got.length, bytes := r.bytes + total w.recLen got }

theorem Reading.add_nil (r : Reading P) : r.add w [] = r := by
  simp [Reading.add]

theorem Reading.add_add (r : Reading P) (xs ys : List (Ent P)) :
    (r.add w xs).add w ys = r.add w (xs ++ ys) := by
  simp [Reading.add, Nat.add_assoc]

end LogStore

/-- The share of one segment, with the positions that `readDisk` computes. -/
theorem Segment.Holds.share {g : Segment} {here : List (Ent P)}
    (hg : g.Holds w here) {r : Reading P} (maxBytes hi : Nat) (hle : g.first ≤ r.idx)
    (hlt : r.idx < g.first + here.length) :
    ∃ part got, part = window g.first r.idx (min hi (g.first + here.length)) here ∧
      got = fit w.recLen maxBytes r.bytes (!r.out.isEmpty) part ∧
      fitCount g (r.idx - g.first) (g.range (r.idx - g.first)).1 maxBytes r
          (min (hi - r.idx) (g.offsets.length - (r.idx - g.first))) 0
          (g.range (r.idx - g.first)).1 =
        (got.length, (g.range (r.idx - g.first)).1 + total w.recLen got) ∧
      readAt g.file (g.range (r.idx - g.first)).1 (total w.recLen got) =
        some (w.records got) ∧
      decodeRecords w g got.length (r.idx - g.first) (w.records got) r =
        .ok { r.add w got with bytes := r.bytes } := by
  have hk : r.idx - g.first < here.length := by omega
  refine ⟨_, _, rfl, rfl, ?_, ?_, ?_⟩
  · have hfit := fitCount_eq hg r maxBytes (hg.range_fst hk)
      (min (hi - r.idx) (g.offsets.length - (r.idx - g.first))) 0 0 rfl
      (by rw [hg.length_offsets]; omega)
    have hpart : (here.drop (r.idx - g.first + 0)).take
        (min (hi - r.idx) (g.offsets.length - (r.idx - g.first))) =
        window g.first r.idx (min hi (g.first + here.length)) here := by
      rw [window, hg.length_offsets, Nat.add_zero]
      congr 1
      omega
    rw [hpart] at hfit
    simpa using hfit
  all_goals
    obtain ⟨zs, hzs⟩ : fit w.recLen maxBytes r.bytes (!r.out.isEmpty)
        (window g.first r.idx (min hi (g.first + here.length)) here) <+: _ := fit_isPrefix _
    generalize fit w.recLen maxBytes r.bytes (!r.out.isEmpty) _ = got at hzs
    obtain ⟨rest, hrest⟩ : ∃ rest, here = here.take (r.idx - g.first) ++ (got ++ rest) := by
      refine ⟨zs ++ here.drop (r.idx - g.first +
        (min hi (g.first + here.length) - r.idx)), ?_⟩
      rw [← List.append_assoc got, hzs, window, ← List.drop_drop, List.take_append_drop,
        List.take_append_drop]
  · rw [hg.range_fst hk]
    exact hg.readAt_file hrest
  have hfrom : From Ent.index r.idx got := by
    have := hg.numbered
    rw [hrest, from_append, from_append, List.length_take, Nat.min_eq_left (by omega),
      show g.first + (r.idx - g.first) = r.idx by omega] at this
    exact this.2.1
  have hdec := decodeRecords_ok (g := g)
    (fun e he => hg.short e (by rw [hrest]; simp [he])) (r.idx - g.first) [] r hfrom
  rwa [List.append_nil] at hdec

namespace LogStore

/-- Reading from the files gives the prefix of the window that fits. -/
theorem readDisk_eq {s : LogStore P} {n hi maxBytes : Nat} (h : Laid w n s.segs es)
    (hhi : hi ≤ n + es.length) :
    ∀ (fuel : Nat) (r : Reading P), n ≤ r.idx → hi - r.idx ≤ fuel →
      readDisk w s hi maxBytes fuel r =
        .ok (r.add w (fit w.recLen maxBytes r.bytes (!r.out.isEmpty) (window n r.idx hi es))) := by
  intro fuel
  induction fuel with
  | zero =>
    intro r _ hf
    rw [readDisk, window_empty (by omega), fit, Reading.add_nil]
  | succ fuel ih =>
    intro r hn hf
    rw [readDisk]
    by_cases hlt : r.idx < hi
    · rw [if_pos hlt]
      obtain ⟨si, g, pre, here, post, hloc, hsi, rfl, hg, hfirst, hg1, hg2⟩ :=
        h.locate hn (Nat.lt_of_lt_of_le hlt hhi)
      obtain ⟨part, got, hpart, hgot, hcount, hread, hdec⟩ := hg.share maxBytes hi hg1 hg2
      rw [hloc]
      simp only [hsi, hcount, Nat.add_sub_cancel_left, hread, hdec]
      -- the window is this segment's part and the rest
      have hsplit : window n r.idx hi (pre ++ (here ++ post)) = part ++
          window n (min hi (g.first + here.length)) hi (pre ++ (here ++ post)) := by
        rw [window_split hn (by omega) (Nat.min_le_left hi (g.first + here.length)),
          window_middle (by omega) (by omega), ← hfirst, hpart]
      have hlen : part.length = min (hi - r.idx) (g.offsets.length - (r.idx - g.first)) := by
        rw [hpart, length_window hg1 (by omega), hg.length_offsets]
        omega
      by_cases hall : got = part
      · have hne : part ≠ [] := by
          intro h0
          rw [h0, hg.length_offsets, List.length_nil] at hlen
          omega
        have htaken : (!r.out.isEmpty || !part.isEmpty) = true := by simp [hne]
        have hfit : fit w.recLen maxBytes r.bytes (!r.out.isEmpty)
            (window n r.idx hi (pre ++ (here ++ post))) = part ++
              fit w.recLen maxBytes (r.bytes + total w.recLen part) true
                (window n (min hi (g.first + here.length)) hi (pre ++ (here ++ post))) := by
          rw [hsplit, fit_append _ (by rw [← hgot, hall]), htaken]
        rw [hfit, hall]
        by_cases hfull : r.bytes + total w.recLen part ≥ maxBytes
        · rw [if_pos (Or.inr hfull), fit_full w.recLen_pos hfull, List.append_nil]
          rfl
        have hidx : (r.add w part).idx = min hi (g.first + here.length) := by
          simp only [Reading.add, hlen, hg.length_offsets]
          omega
        have hout : (!(r.add w part).out.isEmpty) = true := by simp [Reading.add, hne]
        have hgo := ih (r.add w part) (by simp only [Reading.add]; omega) (by omega)
        rw [hidx, hout, Reading.add_add] at hgo
        rw [if_neg (by rw [← hlen]; omega)]
        exact hgo
      · have hlt' : got.length < part.length := by
          have hpre : got <+: part := hgot ▸ fit_isPrefix _
          exact Nat.lt_of_le_of_ne hpre.length_le fun he => hall (hpre.eq_of_length he)
        rw [if_pos (Or.inl (by rw [← hlen]; exact hlt')), hsplit,
          fit_append_stop _ (by rw [← hgot]; exact hall), ← hgot]
        rfl
    · rw [if_neg hlt, window_empty (by omega), fit, Reading.add_nil]

end LogStore

/-! ## The cache in front of it -/

/-- The cache holds the newest of the entries, with the lengths of their records. -/
def Tail.Caches (w : Wire P) (t : Tail P) (es : List (Ent P)) : Prop :=
  t.ents <:+ es.map fun e => (e, w.recLen e)

theorem Tail.diskStop_between (t : Tail P) {i hi : Nat} (h : i < hi) :
    i < t.diskStop i hi ∧ t.diskStop i hi ≤ hi := by
  unfold Tail.diskStop
  split
  · split
    · exact ⟨by omega, Nat.min_le_right ..⟩
    · exact ⟨h, le_rfl⟩
  · exact ⟨h, le_rfl⟩

namespace Tail.Caches

variable {t : Tail P} {n : Nat} {pre new es : List (Ent P)}

theorem split (h : t.Caches w es) :
    ∃ pre new, es = pre ++ new ∧ t.ents = new.map fun e => (e, w.recLen e) := by
  rw [Caches, List.suffix_iff_eq_drop, ← List.map_drop] at h
  exact ⟨_, _, (List.take_append_drop _ es).symm, h⟩

theorem first_eq (hents : t.ents = new.map fun e => (e, w.recLen e))
    (hfrom : From Ent.index n (pre ++ new)) :
    t.first = if new = [] then none else some (n + pre.length) := by
  rw [Tail.first, hents]
  cases new with
  | nil => rfl
  | cons e new =>
    obtain ⟨-, he, -⟩ := from_append.1 hfrom
    simp [he]

/-- Below the cached entries there is nothing in the cache. -/
theorem get_none (hents : t.ents = new.map fun e => (e, w.recLen e))
    (hfrom : From Ent.index n (pre ++ new)) {i : Nat} (hi : i < n + pre.length) :
    t.get i = none := by
  rw [Tail.get, first_eq hents hfrom]
  split_ifs
  · rfl
  · simp [hi]

theorem get_some (hents : t.ents = new.map fun e => (e, w.recLen e))
    (hfrom : From Ent.index n (pre ++ new)) {i : Nat} (hlo : n + pre.length ≤ i)
    (hhi : i < n + (pre ++ new).length) :
    ∃ e, (pre ++ new)[i - n]? = some e ∧ t.get i = some (e, w.recLen e) := by
  rw [List.length_append] at hhi
  have hne : new ≠ [] := by
    intro h0
    rw [h0, List.length_nil] at hhi
    omega
  have hk : i - (n + pre.length) < new.length := by omega
  refine ⟨new[i - (n + pre.length)], ?_, ?_⟩
  · rw [List.getElem?_append_right (by omega),
      show i - n - pre.length = i - (n + pre.length) by omega, List.getElem?_eq_getElem hk]
  rw [Tail.get, first_eq hents hfrom, if_neg hne]
  simp only
  rw [if_neg (by omega), hents, List.getElem?_map, List.getElem?_eq_getElem hk]
  rfl

end Tail.Caches

namespace LogStore

variable {es : List (Ent P)}

/-- One entry of a window, and the window after it. -/
theorem window_cons {n lo hi : Nat} {e : Ent P} (hn : n ≤ lo) (hlt : lo < hi)
    (he : es[lo - n]? = some e) : window n lo hi es = e :: window n (lo + 1) hi es := by
  have hd : es.drop (lo - n) = e :: es.drop (lo - n + 1) := by
    obtain ⟨hk, rfl⟩ := List.getElem?_eq_some_iff.1 he
    exact List.drop_eq_getElem_cons hk
  rw [window, hd, show hi - lo = (hi - (lo + 1)) + 1 by omega, List.take_succ_cons, window,
    show lo + 1 - n = lo - n + 1 by omega]

/-- Whatever the cache holds, a read gives the prefix of the window that fits. -/
theorem readLoop_eq {s : LogStore P} {n hi maxBytes : Nat} (h : Laid w n s.segs es)
    (ht : s.tail.Caches w es) (hhi : hi ≤ n + es.length) (hmax : 0 < maxBytes) :
    ∀ (fuel : Nat) (r : Reading P), n ≤ r.idx → hi - r.idx ≤ fuel → (r.out = [] → r.bytes = 0) →
      readLoop w s hi maxBytes fuel r =
        .ok (r.out ++ fit w.recLen maxBytes r.bytes (!r.out.isEmpty) (window n r.idx hi es)) := by
  obtain ⟨pre, new, rfl, hents⟩ := ht.split
  intro fuel
  induction fuel with
  | zero =>
    intro r _ hf _
    rw [readLoop, window_empty (by omega), fit, List.append_nil]
  | succ fuel ih =>
    intro r hn hf hzero
    rw [readLoop]
    by_cases hgo : r.idx < hi ∧ r.bytes < maxBytes
    · rw [if_pos hgo]
      by_cases hc : n + pre.length ≤ r.idx
      · -- from the cache
        obtain ⟨e, he, hget⟩ := Tail.Caches.get_some hents h.numbered hc
          (Nat.lt_of_lt_of_le hgo.1 hhi)
        rw [hget, window_cons hn hgo.1 he, fit]
        simp only
        by_cases hstop : (!r.out.isEmpty) = true ∧ r.bytes + w.recLen e > maxBytes
        · rw [if_pos hstop, if_pos hstop, List.append_nil]
        rw [if_neg hstop, if_neg hstop,
          ih { out := r.out ++ [e], idx := r.idx + 1, bytes := r.bytes + w.recLen e }
            (Nat.le_succ_of_le hn) (by simp only; omega) (by simp)]
        have hout : (!(r.out ++ [e]).isEmpty) = true := by simp
        rw [hout, List.append_assoc]
        rfl
      · -- from the files, up to the first cached entry
        have hbetween := s.tail.diskStop_between hgo.1
        rw [Tail.Caches.get_none hents h.numbered (by omega)]
        simp only
        generalize s.tail.diskStop r.idx hi = stop at hbetween
        obtain ⟨hlt, hle⟩ := hbetween
        rw [readDisk_eq h (Nat.le_trans hle hhi) _ r hn le_rfl,
          window_split hn (Nat.le_of_lt hlt) hle]
        simp only
        have hlen : (window n r.idx stop (pre ++ new)).length = stop - r.idx :=
          length_window hn (Nat.le_trans hle hhi)
        generalize hpart : window n r.idx stop (pre ++ new) = part at hlen
        by_cases hall : fit w.recLen maxBytes r.bytes (!r.out.isEmpty) part = part
        · have hne : part ≠ [] := by
            intro h0
            rw [h0, List.length_nil] at hlen
            omega
          have htaken : (!r.out.isEmpty || !part.isEmpty) = true := by simp [hne]
          have hidx : (r.add w part).idx = stop := by
            simp only [Reading.add, hlen]
            omega
          have hout : (!(r.add w part).out.isEmpty) = true := by simp [Reading.add, hne]
          have hgo' := ih (r.add w part) (by omega) (by omega) (by simp [Reading.add, hne])
          rw [fit_append _ hall, htaken, hall, if_neg (by omega), hgo', hidx, hout]
          simp [Reading.add]
        · have hlt' : (fit w.recLen maxBytes r.bytes (!r.out.isEmpty) part).length < part.length :=
            Nat.lt_of_le_of_ne (fit_isPrefix _).length_le
              fun he => hall ((fit_isPrefix _).eq_of_length he)
          rw [fit_append_stop _ hall, if_pos (by simp only [Reading.add]; omega)]
          rfl
    · rw [if_neg hgo]
      by_cases hidx : r.idx < hi
      · -- the limit is reached, so something was read
        have hfull : maxBytes ≤ r.bytes := by omega
        have hout : (!r.out.isEmpty) = true := by
          cases hr : r.out with
          | nil => have := hzero hr; omega
          | cons _ _ => rfl
        rw [hout, fit_full w.recLen_pos hfull, List.append_nil]
      · rw [window_empty (by omega), fit, List.append_nil]

theorem readEntries_eq {s : LogStore P} {n lo hi maxBytes : Nat} (h : Laid w n s.segs es)
    (ht : s.tail.Caches w es) (hlo : n ≤ lo) (hhi : hi ≤ n + es.length) (hmax : 0 < maxBytes) :
    readEntries w s lo hi maxBytes = .ok (fit w.recLen maxBytes 0 false (window n lo hi es)) :=
  readLoop_eq h ht hhi hmax (hi - lo) { out := [], idx := lo, bytes := 0 } hlo le_rfl
    fun _ => rfl

end LogStore

end Beanstalkd.Raft
