import Beanstalkd.Raft.LogRefines

/-!
# Opening the log

What `open` makes of the files it finds. All but the last must be whole segments.
Of the last one it reads what is there (`ReadsAs`): a file that is no longer than a
header counts for nothing, and a tail that does not start with a record is cut off.

`Stands` says that a directory stands for a log, and then `open` finds this log.
A store that was closed leaves such a directory, and so does one that crashed, as
`LogCrash` shows.
-/

namespace Beanstalkd.Raft

open File Numbered LogStore

variable {P : Type} {w : Wire P} {o : LogOptions} {crc : Bytes → UInt32} {off : Nat}
  {gs : List Segment} {a : AbstractLog P}

/-- The files of segments, with their names. -/
def segFiles (gs : List Segment) : List (Nat × Bytes) := gs.map fun g => (g.first, g.file)

theorem segFiles_snoc (gs : List Segment) (g : Segment) :
    segFiles (gs ++ [g]) = segFiles gs ++ [(g.first, g.file)] := List.map_append

/-! ## Records that are not there -/

/-- Nothing that starts at `off` is read as an entry. -/
def NoRecord (w : Wire P) (file : Bytes) (off : Nat) : Prop :=
  ∀ payload total, readRecordAt w.crc file off = .ok (payload, total) →
    ∃ why, w.entries.decode payload = .error why

/-- A record that is read is in the file with all its bytes. -/
theorem readRecordAt_le {file payload : Bytes} {total : Nat}
    (h : readRecordAt crc file off = .ok (payload, total)) :
    total = frameHeader + lenField (file.drop off) ∧ off + total ≤ file.length := by
  unfold readRecordAt at h
  simp only at h
  split at h
  · cases h
  split at h
  · cases h
  split at h
  · cases h
  next hhead _ hlen =>
    split at h
    · cases h
      exact ⟨rfl, by omega⟩
    · cases h

/-- What is read from the beginning of a file is read from all of it. -/
theorem readRecordAt_append {file : Bytes} {r : Bytes × Nat} (h : readRecordAt crc file off = .ok r)
    (rest : Bytes) : readRecordAt crc (file ++ rest) off = .ok r := by
  obtain ⟨htotal, hle⟩ := readRecordAt_le h
  have hhead : frameHeader ≤ (file.drop off).length := by
    rw [List.length_drop]
    omega
  have hdrop : (file ++ rest).drop off = file.drop off ++ rest :=
    List.drop_append_of_le_length (by omega)
  have hfield : lenField (file.drop off ++ rest) = lenField (file.drop off) := by
    have h4 : 4 ≤ (file.drop off).length := Nat.le_trans (by decide) hhead
    rw [lenField, lenField, List.take_append_of_le_length h4]
  have htake : (file.drop off ++ rest).take (frameHeader + lenField (file.drop off)) =
      (file.drop off).take (frameHeader + lenField (file.drop off)) :=
    List.take_append_of_le_length (by rw [List.length_drop]; omega)
  unfold readRecordAt at h ⊢
  simp only at h ⊢
  rw [hdrop, hfield, htake, List.length_append]
  split at h
  · cases h
  split at h
  · cases h
  split at h
  · cases h
  next hshort hzero hlen =>
    rw [if_neg (by omega), if_neg hzero, if_neg (by omega)]
    exact h

theorem NoRecord.take {file : Bytes} (h : NoRecord w file off) (len : Nat) :
    NoRecord w (file.take len) off := by
  intro payload total hread
  have hall := readRecordAt_append hread (file.drop len)
  rw [List.take_append_drop] at hall
  exact h payload total hall

/-- The beginning of a record is refused for its length. -/
theorem NoRecord.of_short {e : Ent P} (he : Short w e) (pre : Bytes) {len : Nat}
    (hlen : len < w.recLen e) : NoRecord w (pre ++ (w.record e).take len) pre.length := by
  intro payload total hread
  have hall := readRecordAt_append hread ((w.record e).drop len)
  have hfull := readRecordAt_record he pre []
  rw [List.append_assoc, List.take_append_drop] at hall
  rw [List.append_nil, hall] at hfull
  cases hfull
  have hle := (readRecordAt_le hread).2
  rw [List.length_append, List.length_take] at hle
  omega

/-! ## One segment -/

/-- The segment with these entries and nothing else. -/
def Segment.holding (w : Wire P) (first : Nat) (es : List (Ent P)) : Segment where
  first
  file := segHeader first ++ w.records es
  offsets := starts segHeaderLen (es.map w.record)
  endOff := segHeaderLen + total w.recLen es

theorem total_ge_length (w : Wire P) (es : List (Ent P)) : es.length ≤ total w.recLen es := by
  induction es with
  | nil => exact Nat.le_refl _
  | cons e es ih =>
    have := w.recLen_pos e
    rw [List.length_cons, total_cons]
    omega

namespace Segment

variable {first : Nat} {es : List (Ent P)}

theorem holds_holding (hfrom : From Ent.index first es) (hshort : ∀ e ∈ es, Short w e) :
    (holding w first es).Holds w es :=
  { file := rfl, offsets := rfl, endOff := rfl, numbered := hfrom, short := hshort }

theorem Holds.eq_holding {g : Segment} (h : g.Holds w es) : g = holding w g.first es := by
  cases g
  simp only [holding, Segment.mk.injEq, true_and]
  exact ⟨h.file, h.offsets, h.endOff⟩

end Segment

namespace LogStore

variable {first : Nat} {isLast : Bool} {file rest : Bytes} {es : List (Ent P)}

/-- The scan passes over whole records. -/
theorem scanRecords_through (isLast : Bool) :
    ∀ (ys xs : List (Ent P)) (fuel : Nat), file = segHeader first ++ w.records (xs ++ ys) ++ rest →
      From Ent.index first (xs ++ ys) → (∀ e ∈ ys, Short w e) →
      scanRecords w first isLast file (ys.length + fuel) (starts segHeaderLen (xs.map w.record))
          (segHeaderLen + total w.recLen xs) (xs.getLast?.map Ent.logId) =
        scanRecords w first isLast file fuel (starts segHeaderLen ((xs ++ ys).map w.record))
          (segHeaderLen + total w.recLen (xs ++ ys)) ((xs ++ ys).getLast?.map Ent.logId) := by
  intro ys
  induction ys with
  | nil =>
    intro xs fuel _ _ _
    rw [List.append_nil, List.length_nil, Nat.zero_add]
  | cons y ys ih =>
    intro xs fuel hfile hfrom hshort
    have hsplit : file = (segHeader first ++ w.records xs) ++
        (w.record y ++ (w.records ys ++ rest)) := by
      rw [hfile, w.records_append, w.records_cons]
      simp only [List.append_assoc]
    have hread := readRecordAt_record (hshort y (by simp)) (segHeader first ++ w.records xs)
      (w.records ys ++ rest)
    rw [← hsplit, length_segment] at hread
    have hidx : y.index = first + xs.length := (from_append.1 hfrom).2.1
    have hmore : ¬ file.length ≤ segHeaderLen + total w.recLen xs := by
      have hpos := w.recLen_pos y
      rw [hsplit, List.length_append, length_segment, List.length_append, w.length_record]
      omega
    have hnext := ih (xs ++ [y]) fuel (by rw [hfile, ← List.append_cons])
      (by rwa [← List.append_cons]) fun e he => hshort e (by simp [he])
    rw [← List.append_cons] at hnext
    have hfuel : (y :: ys).length + fuel = ys.length + fuel + 1 := by
      rw [List.length_cons]
      omega
    rw [hfuel, scanRecords, if_neg hmore, hread, ← hnext]
    simp only [w.entries.decode_encode, length_starts, List.length_map, hidx, ne_eq,
      not_true_eq_false, if_false, w.starts_append, List.map_cons, List.map_nil, starts,
      total_append, total_cons, total_nil, Nat.add_zero,
      List.getLast?_concat, Option.map_some, Nat.add_assoc]

/-- A segment file: its records are found, and what follows them is cut off if nothing
there is read as an entry. -/
theorem scanSegment_reads (hfile : file = segHeader first ++ w.records es ++ rest)
    (hrest : rest = [] ∨ isLast = true ∧ NoRecord w file (segHeaderLen + total w.recLen es))
    (hfrom : From Ent.index first es) (hshort : ∀ e ∈ es, Short w e) :
    scanSegment w first isLast file =
      .ok (some (Segment.holding w first es, es.getLast?.map Ent.logId)) := by
  have hlen : file.length = segHeaderLen + total w.recLen es + rest.length := by
    rw [hfile, List.length_append, length_segment]
  have hhead : file.take segHeaderLen = segHeader first := by
    rw [hfile, List.append_assoc]
    exact List.take_left' (length_segHeader _)
  have hhdr : ¬ (file.length < segHeaderLen ∨ file.take segHeaderLen ≠ segHeader first) := by
    rw [hhead]
    simp only [ne_eq, not_true_eq_false, or_false]
    omega
  have hge := total_ge_length w es
  obtain ⟨fuel, hfuel⟩ : ∃ fuel, file.length = es.length + fuel :=
    ⟨file.length - es.length, by omega⟩
  have hthrough := scanRecords_through isLast es [] fuel hfile hfrom hshort
  simp only [List.nil_append, List.map_nil, starts, total_nil, Nat.add_zero, List.getLast?_nil,
    Option.map_none, ← hfuel] at hthrough
  have hdone : scanRecords w first isLast file fuel (starts segHeaderLen (es.map w.record))
      (segHeaderLen + total w.recLen es) (es.getLast?.map Ent.logId) =
        .ok (Segment.holding w first es, es.getLast?.map Ent.logId) := by
    by_cases hend : file.length ≤ segHeaderLen + total w.recLen es
    · have hnil : rest = [] := List.length_eq_zero_iff.1 (by omega)
      rw [hnil, List.append_nil] at hfile
      cases fuel with
      | zero => rw [scanRecords, Segment.holding, ← hfile]
      | succ fuel => rw [scanRecords, if_pos hend, Segment.holding, ← hfile]
    · -- something follows the last record, and is cut off
      obtain ⟨hlast, hnone⟩ := hrest.resolve_left fun h0 => hend (by rw [hlen, h0]; simp)
      obtain ⟨fuel, rfl⟩ : ∃ k, fuel = k + 1 := ⟨fuel - 1, by omega⟩
      have hcut : setLen file (segHeaderLen + total w.recLen es) =
          segHeader first ++ w.records es := by
        rw [hfile, ← length_segment w first es, setLen_append]
      rw [scanRecords, if_neg hend, hlast]
      cases hread : readRecordAt w.crc file (segHeaderLen + total w.recLen es) with
      | error why =>
        simp only [Bool.not_true, Bool.false_eq_true, if_false, hcut]
        rfl
      | ok r =>
        obtain ⟨payload, total⟩ := r
        obtain ⟨why, hwhy⟩ := hnone payload total hread
        simp only [hwhy, Bool.not_true, Bool.false_eq_true, if_false, hcut]
        rfl
  rw [scanSegment, if_neg hhdr, hthrough, hdone]
  rfl

theorem scanSegment_eq {g : Segment} (hg : g.Holds w es) (isLast : Bool) :
    scanSegment w g.first isLast g.file = .ok (some (g, es.getLast?.map Ent.logId)) := by
  have hfile : g.file = segHeader g.first ++ w.records es ++ [] := by
    rw [List.append_nil]
    exact hg.file
  rw [scanSegment_reads hfile (.inl rfl) hg.numbered hg.short, ← hg.eq_holding]

/-- A file that is no longer than a header has no records. -/
theorem scanSegment_stub (hlen : file.length ≤ segHeaderLen) :
    scanSegment w first true file = .ok none ∨ file = segHeader first := by
  by_cases hhdr : file.length < segHeaderLen ∨ file.take segHeaderLen ≠ segHeader first
  · left
    rw [scanSegment, if_pos hhdr, if_pos ⟨rfl, hlen⟩]
  right
  rw [not_or, not_not] at hhdr
  rw [← hhdr.2, List.take_of_length_le hlen]

/-! ## All segments -/

/-- Whole segments with records are found as they are. -/
theorem scanSegments_through {n : Nat} (tail : List (Nat × Bytes)) :
    ∀ (gs acc : List Segment) (xs ys : List (Ent P)), Laid w n acc xs →
      Laid w (n + xs.length) gs ys → Filled gs →
      scanSegments w (segFiles gs ++ tail) acc (xs.getLast?.map Ent.logId) =
        scanSegments w tail (acc ++ gs) ((xs ++ ys).getLast?.map Ent.logId) := by
  intro gs
  induction gs with
  | nil =>
    intro acc xs ys _ hys _
    rw [hys.eq_nil, List.append_nil, List.append_nil]
    rfl
  | cons g gs ih =>
    intro acc xs ys hacc hys hfilled
    obtain ⟨hfirst, here, rest, rfl, hg, hgs⟩ := hys
    obtain ⟨hg0, hgs0⟩ := List.forall_mem_cons.1 hfilled
    have hnil : here ≠ [] := fun h0 => hg0 (hg.offsets_eq_nil.2 h0)
    have hgo := ih (acc ++ [g]) (xs ++ here) rest (hacc.snoc hfirst hg)
      (by rwa [List.length_append, ← Nat.add_assoc]) hgs0
    rw [List.append_assoc, List.append_assoc, List.getLast?_append_of_ne_nil _ hnil] at hgo
    rw [segFiles, List.map_cons, List.cons_append, scanSegments, scanSegment_eq hg]
    simp only
    rw [if_neg (by rwa [List.isEmpty_iff])]
    cases hl : acc.getLast? with
    | none => exact hgo
    | some prev =>
      simp only
      rw [if_neg (by rw [hacc.next_last hl, hfirst]; simp)]
      exact hgo

theorem readPurged_eq (w : Wire P) {purged : Option LogId}
    (h : ∀ id, purged = some id → (w.ids.encode id).length < 2 ^ 32) :
    readPurged w (purged.map fun id => frame w.crc (w.ids.encode id)) = .ok purged := by
  cases purged with
  | none => rfl
  | some id =>
    have hparse := parseRecord_frame w.crc [] (w.ids.encode_ne_nil id) (h id rfl)
    rw [List.append_nil] at hparse
    simp only [Option.map_some, readPurged, hparse, w.ids.decode_encode]
    rfl

end LogStore

/-! ## The directory -/

/-- The segments in force once the purge marker is known. -/
def LogStore.segmentsAbove (purged : Option LogId) (gs : List Segment) : List Segment :=
  match purged with
  | none => gs
  | some p => abovePurged p gs

/-- The scan has found the entries `es`, and the log is what of them is above the marker. -/
theorem openDir_scanned {d : LogDir} {n : Nat} {es : List (Ent P)} (opts : LogOptions)
    (hfile : d.purged = a.purged.map fun id => frame w.crc (w.ids.encode id))
    (hmarker : ∀ id, a.purged = some id → (w.ids.encode id).length < 2 ^ 32)
    (hscan : scanSegments w (d.segs.mergeSort fun x y => x.1 ≤ y.1) [] none =
      .ok (gs, es.getLast?.map Ent.logId)) (hlaid : Laid w n gs es) (hfilled : Filled gs)
    (hn : n ≤ a.start) (hes : a.entries = es.drop (a.start - n))
    (hbytes : total w.recLen a.entries < 2 ^ 64)
    (hbound : a.nextIndex ≤ u64Max) :
    ∃ s, openDir w opts d = .ok s ∧ Repr w opts s a ∧ s.segs = segmentsAbove a.purged gs := by
  have hpurged : readPurged w d.purged = .ok a.purged := by
    rw [hfile]
    exact readPurged_eq w hmarker
  rw [openDir, hpurged]
  simp only [bind, Except.bind, hscan, segmentsAbove]
  cases hp : a.purged with
  | none =>
    have h0 : a.start = 0 := by rw [AbstractLog.start, hp]
    rw [h0, Nat.zero_sub, List.drop_zero] at hes
    refine ⟨_, rfl, ⟨rfl, hp.symm, hfile, hmarker, ?_, ⟨n, [], ?_, by simp; omega⟩, hfilled,
      List.nil_suffix, hbytes, hbound⟩, rfl⟩
    · rw [hes]
    · rw [hes]
      exact hlaid
  | some p =>
    have hs : a.start = p.index + 1 := by rw [AbstractLog.start, hp]
    rw [hs] at hn hes
    have hall : Laid w n gs ([] ++ es) := hlaid
    obtain ⟨n', old', hlaid', hstart'⟩ := hall.purge (Nat.add_zero n) p hn
    rw [← hes] at hlaid'
    have habove : Filled (LogStore.abovePurged p gs) := fun g hg =>
      hfilled g (List.dropWhile_subset _ hg)
    simp only
    cases hg : (LogStore.abovePurged p gs).head? with
    | none =>
      have hnil := List.head?_eq_none_iff.1 hg
      have hempty : a.entries = [] := by
        rw [hnil] at hlaid'
        exact (List.append_eq_nil_iff.1 hlaid'.eq_nil).2
      refine ⟨_, rfl, ⟨rfl, hp.symm, hfile, hmarker, ?_, ⟨n', old', hlaid', by rw [hstart', hs]⟩,
        habove, List.nil_suffix, hbytes, hbound⟩, rfl⟩
      rw [hempty]
      rfl
    | some g =>
      have hfirst := hlaid'.first_head hg
      have hne : p.index + 1 < n + es.length := by
        obtain ⟨gone, rest, -, -, -, hlast⟩ := hlaid.abovePurged p hn
        exact hlast fun h0 => by rw [h0] at hg; cases hg
      simp only
      rw [if_neg (by omega)]
      refine ⟨_, rfl, ⟨rfl, hp.symm, hfile, hmarker, ?_, ⟨n', old', hlaid', by rw [hstart', hs]⟩,
        habove, List.nil_suffix, hbytes, hbound⟩, rfl⟩
      rw [hes, List.getLast?_drop, if_neg (by omega)]

/-! ## A last file that is not whole -/

/-- What `open` finds in the last file: nothing if it is no longer than a header, else
the records it begins with, up to something that is not read as one. -/
def ReadsAs (w : Wire P) (first : Nat) (file : Bytes) (es : List (Ent P)) : Prop :=
  (file.length ≤ segHeaderLen ∧ es = []) ∨
    ∃ rest, file = segHeader first ++ w.records es ++ rest ∧
      (rest = [] ∨ NoRecord w file (segHeaderLen + total w.recLen es))

namespace ReadsAs

variable {first : Nat} {file : Bytes} {es : List (Ent P)}

theorem whole (w : Wire P) (first : Nat) (es : List (Ent P)) :
    ReadsAs w first (segHeader first ++ w.records es) es :=
  .inr ⟨[], (List.append_nil _).symm, .inl rfl⟩

/-- Of a file that is cut, the records that are left whole are found. -/
theorem take (h : ReadsAs w first file es) (hshort : ∀ e ∈ es, Short w e) (len : Nat) :
    ReadsAs w first (file.take len) (fit w.recLen (len - segHeaderLen) 0 true es) := by
  rcases h with ⟨hlen, rfl⟩ | ⟨rest, hfile, hrest⟩
  · exact .inl ⟨Nat.le_trans (List.length_take_le' ..) hlen, rfl⟩
  by_cases hlen : len ≤ segHeaderLen
  · -- no record is left
    refine .inl ⟨Nat.le_trans (List.length_take_le ..) hlen, ?_⟩
    exact fit_full w.recLen_pos (by omega)
  obtain ⟨cut, hcut⟩ : fit w.recLen (len - segHeaderLen) 0 true es <+: es := fit_isPrefix true
  have hroom : 0 + total w.recLen (fit w.recLen (len - segHeaderLen) 0 true es) ≤
      len - segHeaderLen := fit_total_taken (Nat.zero_le _)
  generalize hkept : fit w.recLen (len - segHeaderLen) 0 true es = kept at hcut hroom
  have hoff := length_segment w first kept
  right
  cases cut with
  | nil =>
    -- all of them are left
    rw [List.append_nil] at hcut
    subst hcut
    refine ⟨rest.take (len - (segHeaderLen + total w.recLen kept)), ?_, ?_⟩
    · rw [hfile, List.take_append, hoff, List.take_of_length_le (by omega)]
    rcases hrest with rfl | hnone
    · exact .inl List.take_nil
    · exact .inr (hnone.take len)
  | cons e cut =>
    have hover : len - segHeaderLen <
        0 + total w.recLen (fit w.recLen (len - segHeaderLen) 0 true es) + w.recLen e :=
      fit_stop (by rw [hkept]; exact hcut.symm)
    rw [hkept] at hover
    have htake : file.take len = segHeader first ++ w.records kept ++
        (w.record e).take (len - (segHeaderLen + total w.recLen kept)) := by
      have hall : file = segHeader first ++ w.records kept ++
          (w.record e ++ (w.records cut ++ rest)) := by
        rw [hfile, ← hcut, w.records_append, w.records_cons]
        simp only [List.append_assoc]
      rw [hall, List.take_append, hoff, List.take_of_length_le (by omega),
        List.take_append_of_le_length (by rw [w.length_record]; omega)]
    refine ⟨_, htake, .inr ?_⟩
    rw [htake, ← hoff]
    refine NoRecord.of_short (hshort e ?_) _ (by omega)
    rw [← hcut]
    simp

end ReadsAs

/-- The segments that `open` makes of the last file. -/
def lastSegments (w : Wire P) (first : Nat) (es : List (Ent P)) : List Segment :=
  if es = [] then [] else [Segment.holding w first es]

/-- The scan of the last file, after segments that end where it begins. -/
theorem scanSegments_last {n first : Nat} {acc : List Segment} {xs es : List (Ent P)} {file : Bytes}
    (hacc : Laid w n acc xs) (hfirst : first = n + xs.length) (hread : ReadsAs w first file es)
    (hfrom : From Ent.index first es) (hshort : ∀ e ∈ es, Short w e) :
    scanSegments w [(first, file)] acc (xs.getLast?.map Ent.logId) =
      .ok (acc ++ lastSegments w first es, (xs ++ es).getLast?.map Ent.logId) := by
  have hheaded : ∀ rest, file = segHeader first ++ w.records es ++ rest →
      (rest = [] ∨ NoRecord w file (segHeaderLen + total w.recLen es)) →
      scanSegments w [(first, file)] acc (xs.getLast?.map Ent.logId) =
        .ok (acc ++ lastSegments w first es, (xs ++ es).getLast?.map Ent.logId) := by
    intro rest hfile hrest
    have hscan : scanSegment w first true file = _ :=
      scanSegment_reads hfile (hrest.imp_right fun h => ⟨rfl, h⟩) hfrom hshort
    rw [scanSegments, List.isEmpty_nil, hscan]
    simp only
    have hempty : (Segment.holding w first es).offsets.isEmpty = true ↔ es = [] := by
      rw [List.isEmpty_iff, (Segment.holds_holding hfrom hshort).offsets_eq_nil]
    by_cases hnil : es = []
    · rw [if_pos (hempty.2 hnil), lastSegments, if_pos hnil, hnil, List.append_nil, List.append_nil]
      rfl
    rw [if_neg (fun h0 => hnil (hempty.1 h0)), lastSegments, if_neg hnil,
      List.getLast?_append_of_ne_nil _ hnil]
    cases hl : acc.getLast? with
    | none => rfl
    | some prev =>
      simp only
      rw [if_neg (by rw [hacc.next_last hl, hfirst]; simp)]
      rfl
  rcases hread with ⟨hlen, rfl⟩ | ⟨rest, hfile, hrest⟩
  · rcases scanSegment_stub hlen with hnone | hhdr
    · rw [scanSegments, List.isEmpty_nil, hnone, lastSegments, if_pos rfl, List.append_nil,
        List.append_nil]
      rfl
    · exact hheaded [] (by rw [hhdr, List.append_nil]; exact (List.append_nil _).symm) (.inl rfl)
  · exact hheaded rest hfile hrest

/-- The segment files: whole ones with records, and a last one of which `open` makes
what it can. Together they have the entries `es`, from index `n` on. -/
inductive Files (w : Wire P) (n : Nat) : List (Nat × Bytes) → List (Ent P) → Prop
  | nil : Files w n [] []
  | snoc {gs : List Segment} {xs es : List (Ent P)} {file : Bytes} (laid : Laid w n gs xs)
      (filled : Filled gs) (numbered : From Ent.index (n + xs.length) es)
      (short : ∀ e ∈ es, Short w e) (last : ReadsAs w (n + xs.length) file es) :
      Files w n (segFiles gs ++ [(n + xs.length, file)]) (xs ++ es)

/-- Segments with records begin at different indexes, in order. -/
theorem Laid.increasing {n : Nat} {es : List (Ent P)} (h : Laid w n gs es) (hfilled : Filled gs) :
    (∀ g ∈ gs, n ≤ g.first ∧ g.first < n + es.length) ∧
    gs.Pairwise fun g g' => g.first < g'.first := by
  induction gs generalizing n es with
  | nil => exact ⟨by simp, List.Pairwise.nil⟩
  | cons g gs ih =>
    obtain ⟨hfirst, here, rest, rfl, hg, hgs⟩ := h
    obtain ⟨hg0, hgs0⟩ := List.forall_mem_cons.1 hfilled
    rw [Ne, hg.offsets_eq_nil, ← List.length_eq_zero_iff] at hg0
    obtain ⟨hlt, hpw⟩ := ih hgs hgs0
    rw [List.length_append]
    refine ⟨List.forall_mem_cons.2 ⟨by omega, fun g' hg' => ?_⟩,
      List.pairwise_cons.2 ⟨fun g' hg' => ?_, hpw⟩⟩
    · have := hlt g' hg'
      omega
    · have := hlt g' hg'
      omega

namespace Files

variable {n : Nat} {segs : List (Nat × Bytes)} {gs : List Segment} {es : List (Ent P)}

theorem of_laid (h : Laid w n gs es) (hfilled : Filled gs) :
    Files w n (segFiles gs) es := by
  induction gs using List.reverseRecOn with
  | nil =>
    rw [h.eq_nil]
    exact nil
  | append_singleton gs g _ =>
    obtain ⟨xs, ys, rfl, hxs, hfirst, hg⟩ := h.last
    rw [segFiles_snoc, hfirst]
    refine snoc hxs (fun g' hg' => hfilled g' (by simp [hg'])) (hfirst ▸ hg.numbered) hg.short ?_
    rw [hg.file, hfirst]
    exact ReadsAs.whole w _ ys

theorem increasing (h : Files w n segs es) : segs.Pairwise fun x y => x.1 < y.1 := by
  cases h with
  | nil => exact List.Pairwise.nil
  | snoc laid filled _ _ _ =>
    obtain ⟨hlt, hpw⟩ := laid.increasing filled
    refine List.pairwise_append.2 ⟨List.pairwise_map.2 hpw, List.pairwise_singleton .., ?_⟩
    intro x hx y hy
    obtain ⟨g, hg, rfl⟩ := List.mem_map.1 hx
    rw [List.mem_singleton.1 hy]
    exact (hlt g hg).2

theorem mergeSort (h : Files w n segs es) : (segs.mergeSort fun x y => x.1 ≤ y.1) = segs :=
  List.mergeSort_of_pairwise (h.increasing.imp fun hlt => decide_eq_true (Nat.le_of_lt hlt))

/-- The segments that `open` makes of the files. -/
theorem scan (h : Files w n segs es) :
    ∃ gs, scanSegments w segs [] none = .ok (gs, es.getLast?.map Ent.logId) ∧ Laid w n gs es ∧
      Filled gs := by
  cases h with
  | nil => exact ⟨[], rfl, rfl, List.forall_mem_nil _⟩
  | @snoc gs xs es file laid filled numbered short last =>
    have hthrough := scanSegments_through [(n + xs.length, file)] gs [] [] xs rfl laid filled
    rw [List.nil_append, List.nil_append,
      scanSegments_last laid rfl last numbered short] at hthrough
    refine ⟨_, hthrough, ?_⟩
    rw [lastSegments]
    split
    next hnil =>
      rw [hnil, List.append_nil, List.append_nil]
      exact ⟨laid, filled⟩
    next hne =>
      have hhold := Segment.holds_holding numbered short
      exact ⟨laid.snoc rfl hhold, filled.snoc (by rwa [Ne, hhold.offsets_eq_nil])⟩

end Files

/-- The directory stands for the log `a`. -/
structure Stands (w : Wire P) (d : LogDir) (a : AbstractLog P) : Prop where
  purged : d.purged = a.purged.map fun id => frame w.crc (w.ids.encode id)
  marker : ∀ id, a.purged = some id → (w.ids.encode id).length < 2 ^ 32
  files : ∃ n es, Files w n d.segs es ∧ n ≤ a.start ∧ a.entries = es.drop (a.start - n)

theorem Repr.stands {s : LogStore P} (h : Repr w o s a) : Stands w s.dir a := by
  obtain ⟨n, old, hlaid, hstart⟩ := h.laid
  exact ⟨h.purgedFile, h.marker, n, _, Files.of_laid hlaid h.filled, by omega,
    by rw [List.drop_left' (by omega)]⟩

theorem Repr.reopen {s : LogStore P} (h : Repr w o s a) (opts : LogOptions) :
    ∃ s', openDir w opts s.dir = .ok s' ∧ Repr w opts s' a := by
  obtain ⟨n, es, hfiles, hn, hes⟩ := h.stands.files
  obtain ⟨gs, hscan, hlaid, hfilled⟩ := hfiles.scan
  rw [← hfiles.mergeSort] at hscan
  obtain ⟨s', hopen, hrepr, -⟩ :=
    openDir_scanned opts h.purgedFile h.marker hscan hlaid hfilled hn hes h.bytes h.bound
  exact ⟨s', hopen, hrepr⟩

namespace Stands

variable {d : LogDir} {a : AbstractLog P}

/-- If the last file is cut, the log loses entries at its end, but none of the files
before. -/
theorem cut (h : Stands w d a) {pre : List (Nat × Bytes)} {first : Nat} {file : Bytes}
    (hsegs : d.segs = pre ++ [(first, file)]) (len : Nat) :
    ∃ a' : AbstractLog P, a'.purged = a.purged ∧ a'.entries <+: a.entries ∧
      (∀ e ∈ a.entries, e.index < first → e ∈ a'.entries) ∧
      Stands w { d with segs := pre ++ [(first, file.take len)] } a' := by
  obtain ⟨n, all, hfiles, hn, hes⟩ := h.files
  rw [hsegs] at hfiles
  generalize hl : pre ++ [(first, file)] = segs at hfiles
  cases hfiles with
  | nil => simp at hl
  | @snoc gs xs es file' laid filled numbered short last =>
    obtain ⟨rfl, hlast⟩ := List.append_inj' hl rfl
    cases hlast
    have hread := last.take short len
    obtain ⟨gone, hgone⟩ : fit w.recLen (len - segHeaderLen) 0 true es <+: es := fit_isPrefix true
    generalize fit w.recLen (len - segHeaderLen) 0 true es = kept at hread hgone
    have hpre : xs ++ kept <+: xs ++ es := ⟨gone, by rw [List.append_assoc, hgone]⟩
    refine ⟨{ a with entries := (xs ++ kept).drop (a.start - n) }, rfl, ?_, ?_, h.purged, h.marker,
      n, xs ++ kept, ?_, hn, rfl⟩
    · rw [hes]
      exact hpre.drop _
    · -- an entry below the last file is in a file before
      intro e he hlt
      rw [hes, List.drop_append] at he
      show e ∈ (xs ++ kept).drop (a.start - n)
      rw [List.drop_append, List.mem_append]
      rcases List.mem_append.1 he with he | he
      · exact .inl he
      · have hge := (numbered.mem (List.mem_of_mem_drop he)).1
        omega
    · refine Files.snoc laid filled ?_ ?_ hread
      · rw [← hgone] at numbered
        exact (from_append.1 numbered).1
      · intro e he
        exact short e (hgone ▸ List.mem_append_left gone he)

end Stands

end Beanstalkd.Raft
