import Beanstalkd.Raft.LogRead

/-!
# The segmented log refines the abstract log

`Repr` relates a store to the log it stands for: its segments hold the entries,
after some old ones that are at or below the purge marker, and its cache holds
the newest of them. Every operation keeps the relation, and from it the answers
to reads follow.
-/

namespace Beanstalkd.Raft

open File Numbered LogStore

variable {P : Type} {w : Wire P} {o : LogOptions} {gs : List Segment} {s : LogStore P}
  {a : AbstractLog P} {es : List (Ent P)} {since : Nat}

/-- Every segment has a record. -/
def Filled (gs : List Segment) : Prop := ∀ g ∈ gs, g.offsets ≠ []

theorem Filled.snoc {g : Segment} (h : Filled gs) (hg : g.offsets ≠ []) : Filled (gs ++ [g]) :=
  List.forall_mem_append.2 ⟨h, List.forall_mem_singleton.2 hg⟩

theorem Filled.dropLast (h : Filled gs) : Filled gs.dropLast := fun g hg =>
  h g (List.mem_of_mem_dropLast hg)

structure Repr (w : Wire P) (o : LogOptions) (s : LogStore P) (a : AbstractLog P) : Prop where
  opts : s.opts = o
  purged : s.purged = a.purged
  purgedFile : s.purgedFile = a.purged.map fun id => frame w.crc (w.ids.encode id)
  marker : ∀ id, a.purged = some id → (w.ids.encode id).length < 2 ^ 32
  last : s.lastEntry = a.entries.getLast?.map Ent.logId
  laid : ∃ n old, Laid w n s.segs (old ++ a.entries) ∧ n + old.length = a.start
  filled : Filled s.segs
  tail : s.tail.Caches w a.entries
  bytes : total w.recLen a.entries < 2 ^ 64
  bound : a.nextIndex ≤ u64Max

/-! ## The cache -/

namespace Tail

variable {t : Tail P} {es : List (Ent P)}

theorem evict_suffix (t : Tail P) (l : List (Ent P × Nat)) (bytes : Nat) :
    (t.evict l bytes).ents <:+ l := by
  induction l generalizing bytes with
  | nil => exact List.suffix_rfl
  | cons e l ih =>
    rw [evict]
    split
    · exact (ih _).trans (List.suffix_cons ..)
    · exact List.suffix_rfl

theorem Caches.clear (t : Tail P) (es : List (Ent P)) : t.clear.Caches w es := List.nil_suffix

theorem Caches.push (h : t.Caches w es) (e : Ent P) :
    (t.push e (w.recLen e)).Caches w (es ++ [e]) := by
  rw [Tail.push]
  split
  · exact Caches.clear t _
  have hcached : ∀ t' : Tail P, t'.Caches w es →
      (t'.evict (t'.ents ++ [(e, w.recLen e)]) (t'.bytes + w.recLen e)).Caches w (es ++ [e]) := by
    intro t' ht'
    obtain ⟨pre, hpre⟩ := ht'
    refine (evict_suffix ..).trans ⟨pre, ?_⟩
    rw [← List.append_assoc, hpre, List.map_append]
    rfl
  split
  · exact hcached _ (Caches.clear t es)
  · exact hcached t h

theorem Caches.pushAll (h : t.Caches w es) (new : List (Ent P)) :
    ((new.map fun e => (e, w.recLen e)).foldl (fun t e => t.push e.1 e.2) t).Caches w
    (es ++ new) := by
  induction new generalizing t es with
  | nil => simpa using h
  | cons e new ih =>
    rw [List.map_cons, List.foldl_cons, List.append_cons]
    exact ih (h.push e)

/-- The cached entries are numbered like the log's. -/
theorem Caches.numbered {n : Nat} (hfrom : From Ent.index n es) :
    From (fun e : Ent P × Nat => e.1.index) n (es.map fun e => (e, w.recLen e)) := by
  induction es generalizing n with
  | nil => trivial
  | cons e es ih => exact ⟨hfrom.1, ih hfrom.2⟩

theorem Caches.truncate {n since : Nat} (h : t.Caches w es) (hfrom : From Ent.index n es) :
    (t.truncate since).Caches w (es.take (since - n)) := by
  obtain ⟨pre, new, rfl, hents⟩ := h.split
  have hnew := (from_append.1 hfrom).2
  have htake : (t.truncate since).ents =
      (new.take (since - (n + pre.length))).map fun e => (e, w.recLen e) := by
    rw [List.map_take, ← rdropWhile_ge (Caches.numbered hnew), ← hents]
    rfl
  refine ⟨(pre.take (since - n)).map fun e => (e, w.recLen e), ?_⟩
  rw [htake, List.take_append, List.map_append,
    show since - n - pre.length = since - (n + pre.length) by omega]

theorem Caches.purge {n upto : Nat} (h : t.Caches w es) (hfrom : From Ent.index n es) :
    (t.purge upto).Caches w (es.drop (upto + 1 - n)) := by
  obtain ⟨pre, new, rfl, hents⟩ := h.split
  have hnew := (from_append.1 hfrom).2
  have hdrop : (t.purge upto).ents =
      (new.drop (upto + 1 - (n + pre.length))).map fun e => (e, w.recLen e) := by
    rw [List.map_drop, ← dropWhile_le (Caches.numbered hnew), ← hents]
    rfl
  refine ⟨(pre.drop (upto + 1 - n)).map fun e => (e, w.recLen e), ?_⟩
  rw [hdrop, List.drop_append, List.map_append,
    show upto + 1 - n - pre.length = upto + 1 - (n + pre.length) by omega]

end Tail

/-! ## Segments -/

namespace Segment.Holds

variable {g : Segment} {es new : List (Ent P)}

theorem fresh (first : Nat) : (Segment.new first).Holds w [] :=
  { file := (List.append_nil _).symm, offsets := rfl, endOff := rfl, numbered := trivial
    short := by simp }

/-- Records written at the end. -/
theorem extend (h : g.Holds w es) (hfrom : From Ent.index (g.first + es.length) new)
    (hshort : ∀ e ∈ new, Short w e) :
    (g.extend (w.records new) (starts 0 (new.map w.record))).Holds w (es ++ new) where
  file := by
    simp only [Segment.extend]
    rw [← h.length_file, writeAt_end, h.file, w.records_append, List.append_assoc]
  offsets := by
    simp only [Segment.extend]
    rw [← starts_shift, Nat.add_zero, h.offsets, w.starts_append, h.endOff]
  endOff := by
    simp only [Segment.extend]
    rw [h.endOff, w.length_records, total_append, Nat.add_assoc]
  numbered := from_append.2 ⟨h.numbered, hfrom⟩
  short := List.forall_mem_append.2 ⟨h.short, hshort⟩

/-- A cut at the record of `since`. -/
theorem cut (h : g.Holds w es) (since : Nat) :
    (Segment.cut g since).Holds w (es.take (since - g.first)) := by
  rw [Segment.cut]
  by_cases hk : since - g.first < es.length
  · simp only [h.offset hk]
    have hsplit : g.file = (segHeader g.first ++ w.records (es.take (since - g.first))) ++
        w.records (es.drop (since - g.first)) := by
      rw [h.file, List.append_assoc, ← w.records_append, List.take_append_drop]
    have hlen := length_segment w g.first (es.take (since - g.first))
    exact
      { file := by simp only [← hlen]; rw [hsplit, setLen_append]
        offsets := by
          rw [h.offsets]
          have := w.starts_append segHeaderLen (es.take (since - g.first))
            (es.drop (since - g.first))
          rw [List.take_append_drop] at this
          rw [this, List.take_left']
          rw [length_starts, List.length_map, List.length_take, Nat.min_eq_left (by omega)]
        endOff := rfl
        numbered := h.numbered.take _
        short := fun e he => h.short e (List.mem_of_mem_take he) }
  · have hnone : g.offsets[since - g.first]? = none :=
      List.getElem?_eq_none (by rw [h.length_offsets]; omega)
    simp only [hnone]
    rwa [List.take_of_length_le (by omega)]

/-- A segment without offsets holds nothing. -/
theorem offsets_eq_nil (h : g.Holds w es) : g.offsets = [] ↔ es = [] := by
  rw [← List.length_eq_zero_iff, h.length_offsets, List.length_eq_zero_iff]

/-- A segment that begins below `since` is cut, but not to nothing. -/
theorem cut_filled (h : g.Holds w es) (hne : g.offsets ≠ []) (hlt : g.first < since) :
    (Segment.cut g since).offsets ≠ [] := by
  rw [Ne, (h.cut since).offsets_eq_nil, List.take_eq_nil_iff, not_or]
  rw [Ne, h.offsets_eq_nil] at hne
  exact ⟨by omega, hne⟩

end Segment.Holds

namespace Laid

variable {n : Nat} {gs : List Segment} {g : Segment} {es : List (Ent P)}

theorem single (h : g.Holds w es) : Laid w g.first [g] es :=
  ⟨rfl, es, [], (List.append_nil es).symm, h, rfl⟩

/-- The last segment, and what is before it. -/
theorem last (h : Laid w n (gs ++ [g]) es) :
    ∃ xs ys, es = xs ++ ys ∧ Laid w n gs xs ∧ g.first = n + xs.length ∧ g.Holds w ys := by
  obtain ⟨xs, ys, rfl, hx, hfirst, here, rest, rfl, hg, hrest⟩ := h.split
  cases hrest
  exact ⟨xs, here, by simp, hx, hfirst, hg⟩

/-- The last segment may be replaced. -/
theorem snoc {xs ys : List (Ent P)} (hx : Laid w n gs xs) (hfirst : g.first = n + xs.length)
    (hg : g.Holds w ys) : Laid w n (gs ++ [g]) (xs ++ ys) :=
  hx.append (hfirst ▸ single hg)

theorem next_last (h : Laid w n gs es) (hg : gs.getLast? = some g) : g.next = n + es.length := by
  obtain ⟨hs, rfl⟩ := List.getLast?_eq_some_iff.1 hg
  obtain ⟨xs, ys, rfl, -, hfirst, hys⟩ := h.last
  rw [hys.next_eq, hfirst, List.length_append, Nat.add_assoc]

theorem first_head (h : Laid w n gs es) (hg : gs.head? = some g) : g.first = n := by
  cases gs with
  | nil => cases hg
  | cons g' gs =>
    cases hg
    exact h.1

theorem eq_nil (h : Laid w n [] es) : es = [] := h

end Laid

theorem LogStore.modLast_segs (s : LogStore P) (f : Segment → Segment) {g : Segment}
    (h : s.segs = gs ++ [g]) : (s.modLast f).segs = gs ++ [f g] := by
  have hl : (gs ++ [g]).length - 1 = gs.length := by simp
  simp only [LogStore.modLast, h, hl]
  rw [List.modify_eq_take_cons_drop (by simp)]
  simp

/-! ## Appending -/

theorem AbstractLog.above_cons (a : AbstractLog P) (e : Ent P) (es : List (Ent P)) :
    a.above (e :: es) = (if a.start ≤ e.index then [e] else []) ++ a.above es := by
  rw [AbstractLog.above, List.filter_cons]
  split_ifs with h1 h2 h2
  · rfl
  · exact absurd (of_decide_eq_true h1) h2
  · exact absurd (decide_eq_true h2) h1
  · rfl

/-- A batch in progress: `new` was taken from it, and what of it is not in the
segment files yet is in the buffer. Only the last segment may be without records. -/
structure LogStore.Batch.Takes (w : Wire P) (o : LogOptions) (a : AbstractLog P) (b : Batch P)
    (new : List (Ent P)) : Prop where
  opts : b.store.opts = o
  purged : b.store.purged = a.purged
  purgedFile : b.store.purgedFile = a.purged.map fun id => frame w.crc (w.ids.encode id)
  last : b.store.lastEntry = (a.entries ++ new).getLast?.map Ent.logId
  tail : b.store.tail.Caches w a.entries
  fresh : b.fresh = new.map fun e => (e, w.recLen e)
  filled : Filled b.store.segs.dropLast
  recent : b.offs.length ≤ new.length
  laid : ∃ n old written pending, old ++ (a.entries ++ new) = written ++ pending ∧
    n + old.length = a.start ∧ Laid w n b.store.segs written ∧
    From Ent.index (n + written.length) pending ∧ (∀ e ∈ pending, Short w e) ∧
    (pending ≠ [] → b.store.segs ≠ []) ∧
    b.buf = w.records pending ∧ b.offs = starts 0 (pending.map w.record)

/-- A batch between two entries: if the last segment is without records, there are some
in the buffer. -/
structure LogStore.Batch.Steady (w : Wire P) (o : LogOptions) (a : AbstractLog P) (b : Batch P)
    (new : List (Ent P)) : Prop extends b.Takes w o a new where
  full : b.buf = [] → Filled b.store.segs

/-- A batch with nothing in the buffer. -/
structure LogStore.Batch.Flushed (w : Wire P) (o : LogOptions) (a : AbstractLog P) (b : Batch P)
    (new : List (Ent P)) : Prop extends b.Takes w o a new where
  buf : b.buf = []
  offs : b.offs = []
  full : Filled b.store.segs
  whole : ∃ n old, Laid w n b.store.segs (old ++ (a.entries ++ new)) ∧ n + old.length = a.start

namespace LogStore

variable {a : AbstractLog P} {b : Batch P} {new es : List (Ent P)}

theorem records_eq_nil (h : w.records es = []) : es = [] := by
  cases es with
  | nil => rfl
  | cons e es => exact absurd (List.append_eq_nil_iff.1 h).1 frame_ne_nil

/-- After a flush everything taken is in the segments. -/
theorem flush_takes (h : b.Steady w o a new) : ∃ b', flush b = .ok b' ∧ b'.Flushed w o a new := by
  obtain ⟨n, old, written, pending, heq, hstart, hlaid, hfrom, hshort, hsegs, hbuf, hoffs⟩ := h.laid
  rw [flush]
  by_cases hemp : b.buf = []
  · have hp : pending = [] := records_eq_nil (hbuf.symm.trans hemp)
    subst hp
    rw [List.append_nil] at heq
    rw [if_pos (by simp [hemp])]
    exact ⟨b, rfl, h.toTakes, hemp, hoffs, h.full hemp, n, old, heq ▸ hlaid, hstart⟩
  · rw [if_neg (by simpa using hemp)]
    have hpend : pending ≠ [] := by
      intro hp
      rw [hbuf, hp] at hemp
      exact hemp rfl
    obtain ⟨gs, g, hg⟩ := (List.eq_nil_or_concat' b.store.segs).resolve_left (hsegs hpend)
    have hgs := h.filled
    rw [hg, List.dropLast_concat] at hgs
    rw [hg] at hlaid
    obtain ⟨xs, ys, rfl, hxs, hfirst, hys⟩ := hlaid.last
    rw [List.length_append, ← Nat.add_assoc, ← hfirst] at hfrom
    have hext := hys.extend hfrom hshort
    rw [← hbuf, ← hoffs] at hext
    have hnew := hxs.snoc (g := g.extend b.buf b.offs) hfirst hext
    -- something was in the buffer, so the last segment has records now
    have hfull : Filled (gs ++ [g.extend b.buf b.offs]) := by
      refine hgs.snoc ?_
      rw [Ne, hext.offsets_eq_nil]
      exact List.append_ne_nil_of_right_ne_nil _ hpend
    rw [← b.store.modLast_segs (Segment.extend · b.buf b.offs) hg] at hnew hfull
    rw [← List.append_assoc, ← heq] at hnew
    have hlast : b.store.segs.getLast? = some g := by rw [hg, List.getLast?_concat]
    simp only [hlast]
    refine ⟨_, rfl, { h with
      filled := hfull.dropLast
      recent := Nat.zero_le _
      laid := ?_
      buf := rfl
      offs := rfl
      full := hfull
      whole := ⟨n, old, hnew, hstart⟩ }⟩
    exact ⟨n, old, old ++ (a.entries ++ new), [], by simp, hstart, hnew, trivial, by simp, by simp,
      rfl, rfl⟩

/-- A new segment begins where the log ends. -/
theorem startSegment_takes (h : b.Steady w o a new) :
    ∃ b', startSegment b (a.nextIndex + new.length) = .ok b' ∧ b'.Takes w o a new ∧
      b'.store.segs ≠ [] := by
  obtain ⟨b', hflush, hb'⟩ := flush_takes h
  obtain ⟨n, old, hlaid, hstart⟩ := hb'.whole
  have hnext : a.nextIndex + new.length = n + (old ++ (a.entries ++ new)).length := by
    simp only [AbstractLog.nextIndex, List.length_append]
    omega
  have hnew : Laid w n (b'.store.segs ++ [Segment.new (a.nextIndex + new.length)])
      (old ++ (a.entries ++ new)) := by
    have := hlaid.snoc hnext (Segment.Holds.fresh _)
    rwa [List.append_nil] at this
  have htakes : Batch.Takes w o a { b' with store := { b'.store with
      segs := b'.store.segs ++ [Segment.new (a.nextIndex + new.length)] } } new :=
    { hb' with
      filled := by
        rw [List.dropLast_concat]
        exact hb'.full
      laid := ⟨n, old, _, [], by simp, hstart, hnew, trivial, by simp, by simp, hb'.buf, hb'.offs⟩ }
  refine ⟨_, ?_, htakes, by simp⟩
  rw [startSegment, hflush]
  simp only
  cases hg : b'.store.segs.getLast? with
  | none => rfl
  | some g =>
    have := hlaid.next_last hg
    simp only
    rw [if_pos (by omega)]

/-- A batch with the record of one more entry in the buffer. -/
def Batch.push (w : Wire P) (b : Batch P) (e : Ent P) : Batch P where
  store := { b.store with lastEntry := some e.logId }
  buf := b.buf ++ w.record e
  offs := b.offs ++ [b.buf.length]
  fresh := b.fresh ++ [(e, w.recLen e)]

/-- There is a segment that takes the record. -/
theorem segs_ne_nil {i len : Nat} (hnew : needNew b i len ≠ true) : b.store.segs ≠ [] := by
  intro h0
  refine hnew ?_
  rw [needNew, h0]
  rfl

section

variable (h : b.Takes w o a new)
include h

/-- The next index, if the store knows one, is where the batch goes on. -/
theorem nextIndex_takes {i : Nat} (hi : i = a.nextIndex + new.length) :
    b.store.nextIndex.filter (· ≠ i) = none := by
  obtain ⟨n, old, written, pending, heq, hstart, hlaid, hfrom, -⟩ := h.laid
  have hall : From Ent.index n (old ++ (a.entries ++ new)) := by
    rw [heq]
    exact from_append.2 ⟨hlaid.numbered, hfrom⟩
  have hnum := (from_append.1 hall).2
  rw [hstart] at hnum
  have hnext : b.store.nextIndex = none ∨ b.store.nextIndex = some i := by
    unfold LogStore.nextIndex
    rw [h.last, h.purged]
    cases hl : (a.entries ++ new).getLast? with
    | some e =>
      right
      have := hnum.getLast? hl
      simp only [Option.map_some, Option.some.injEq]
      rw [List.length_append, ← Nat.add_assoc] at this
      exact this.trans hi.symm
    | none =>
      have hnil := List.getLast?_eq_none_iff.1 hl
      cases hp : a.purged with
      | none => exact .inl rfl
      | some p =>
        right
        have h0 : a.entries = [] ∧ new = [] := List.append_eq_nil_iff.1 hnil
        simp [hi, AbstractLog.nextIndex, AbstractLog.start, hp, h0]
  rcases hnext with h0 | h1
  · rw [h0]
    rfl
  · rw [h1]
    simp

/-- The record of the next entry goes into the buffer. -/
theorem Batch.Takes.push (hsegs : b.store.segs ≠ []) {e : Ent P}
    (he : e.index = a.nextIndex + new.length) (hshort : Short w e) :
    (b.push w e).Steady w o a (new ++ [e]) := by
  obtain ⟨n, old, written, pending, heq, hstart, hlaid, hfrom, hpend, -, hbuf, hoffs⟩ := h.laid
  have hlen := congrArg List.length heq
  simp only [List.length_append] at hlen
  refine ⟨{ h with last := ?_, fresh := ?_, recent := ?_, laid := ⟨n, old, written, pending ++ [e],
    ?_, hstart, hlaid, ?_, ?_, fun _ => hsegs, ?_, ?_⟩ }, fun h0 => ?_⟩
  · rw [← List.append_assoc, List.getLast?_concat]
    rfl
  · rw [Batch.push, h.fresh, List.map_append]
    rfl
  · simpa [Batch.push] using h.recent
  · rw [← List.append_assoc a.entries, ← List.append_assoc, heq, List.append_assoc]
  · refine from_append.2 ⟨hfrom, ?_, trivial⟩
    rw [he, AbstractLog.nextIndex]
    omega
  · exact List.forall_mem_append.2 ⟨hpend, List.forall_mem_singleton.2 hshort⟩
  · simp [Batch.push, hbuf, Wire.records]
  · simp [Batch.push, hoffs, hbuf, starts_append, starts, Wire.records]
  · exact absurd (List.append_eq_nil_iff.1 h0).2 frame_ne_nil

/-- The marker covers an entry. -/
theorem Batch.Takes.any_purged (e : Ent P) :
    (b.store.purged.any fun p => decide (e.index ≤ p.index)) = true ↔ ¬ a.start ≤ e.index := by
  rw [h.purged, AbstractLog.start]
  cases a.purged with
  | none => simp
  | some p => exact decide_eq_true_iff.trans (by dsimp only; omega)

/-- An entry that the marker does not cover: its record is added, in a new segment if need
be. -/
theorem appendOne_eq {e : Ent P} (hshort : Short w e) (hle : a.start ≤ e.index)
    (he : e.index = a.nextIndex + new.length) :
    appendOne w b e = do
      let b ← if needNew b e.index (w.recLen e) then startSegment b e.index else .ok b
      return b.push w e := by
  have hlen : (w.entries.encode e).length < 2 ^ 32 := hshort
  rw [appendOne]
  rw [if_neg (fun hc => (h.any_purged e).1 hc hle), nextIndex_takes h he]
  simp only [if_pos hlen]
  rfl

end

variable (h : b.Steady w o a new)
include h

/-- One entry of a batch: taken, unless the marker covers it. -/
theorem appendOne_takes {e : Ent P} (hshort : Short w e)
    (he : a.start ≤ e.index → e.index = a.nextIndex + new.length) :
    ∃ b', appendOne w b e = .ok b' ∧
      b'.Steady w o a (new ++ if a.start ≤ e.index then [e] else []) := by
  by_cases hle : a.start ≤ e.index
  · rw [appendOne_eq h.toTakes hshort hle (he hle), if_pos hle]
    by_cases hnew : needNew b e.index (w.recLen e) = true
    · obtain ⟨b', hb', ht, hsegs⟩ := startSegment_takes h
      rw [← he hle] at hb'
      rw [if_pos hnew, hb']
      exact ⟨_, rfl, ht.push hsegs (he hle) hshort⟩
    · rw [if_neg hnew]
      exact ⟨_, rfl, h.push (segs_ne_nil hnew) (he hle) hshort⟩
  · rw [appendOne]
    rw [if_pos ((h.any_purged e).2 hle), if_neg hle, List.append_nil]
    exact ⟨b, rfl, h⟩

/-- A whole batch. -/
theorem appendAll_takes (hshort : ∀ e ∈ es, Short w e)
    (hes : From Ent.index (a.nextIndex + new.length) (a.above es)) :
    ∃ b', es.foldlM (appendOne w) b = .ok b' ∧ b'.Steady w o a (new ++ a.above es) := by
  induction es generalizing b new with
  | nil => exact ⟨b, rfl, by simpa [AbstractLog.above] using h⟩
  | cons e es ih =>
    rw [a.above_cons] at hes ⊢
    obtain ⟨hhead, hrest⟩ := from_append.1 hes
    obtain ⟨b', hb', ht⟩ := appendOne_takes h (hshort e (by simp)) (fun hle => by
      rw [if_pos hle] at hhead
      exact hhead.1)
    rw [List.foldlM_cons, hb']
    rw [← List.append_assoc]
    refine ih ht (fun x hx => hshort x (by simp [hx])) ?_
    rwa [List.length_append, ← Nat.add_assoc]

end LogStore

/-- A batch that has not begun. -/
theorem Repr.steady (h : Repr w o s a) : LogStore.Batch.Steady w o a { store := s } [] := by
  obtain ⟨n, old, hlaid, hstart⟩ := h.laid
  exact ⟨⟨h.opts, h.purged, h.purgedFile, by simpa using h.last, h.tail, rfl, h.filled.dropLast,
    Nat.le_refl _, n, old, old ++ a.entries, [], by simp, hstart, hlaid, trivial, by simp, by simp,
    rfl, rfl⟩, fun _ => h.filled⟩

/-- An append that goes on where the log ends succeeds, and is the log's append. -/
theorem Repr.append (h : Repr w o s a) (hes : From Ent.index a.nextIndex (a.above es))
    (hbound : (a.append es).nextIndex ≤ u64Max) (hshort : ∀ e ∈ es, Short w e)
    (hbytes : total w.recLen (a.append es).entries < 2 ^ 64) :
    ∃ s', s.append w es = .ok s' ∧ Repr w o s' (a.append es) := by
  obtain ⟨b, hb, ht⟩ := appendAll_takes h.steady hshort (by simpa using hes)
  obtain ⟨b', hflush, hb'⟩ := flush_takes ht
  refine ⟨{ b'.store with tail := b'.fresh.foldl (fun t e => t.push e.1 e.2) b'.store.tail }, ?_,
    hb'.opts, hb'.purged, hb'.purgedFile, h.marker, hb'.last, hb'.whole, hb'.full, ?_, hbytes,
      hbound⟩
  · rw [LogStore.append, hb]
    simp only [bind, Except.bind, hflush]
    rfl
  · rw [hb'.fresh]
    exact hb'.tail.pushAll (a.above es)

/-! ## Reading -/

namespace Repr

variable {s : LogStore P} {a : AbstractLog P}

variable (h : Repr w o s a)
include h

theorem numbered : From Ent.index a.start a.entries := by
  obtain ⟨n, old, hlaid, hstart⟩ := h.laid
  exact hstart ▸ (from_append.1 hlaid.numbered).2

theorem lowest {n : Nat} (hn : n ≤ a.start) : s.lowest n = a.start := by
  rw [LogStore.lowest, h.purged]
  cases hp : a.purged with
  | none =>
    simp only [AbstractLog.start, hp] at hn ⊢
    omega
  | some p =>
    simp only [AbstractLog.start, hp] at hn ⊢
    exact Nat.max_eq_right hn

/-- Any reading of indexes of the log gives the prefix that fits. -/
theorem readEntries {lo hi maxBytes : Nat} (hlo : a.start ≤ lo) (hhi : hi ≤ a.nextIndex)
    (hmax : 0 < maxBytes) :
    LogStore.readEntries w s lo hi maxBytes =
      .ok (fit w.recLen maxBytes 0 false (window a.start lo hi a.entries)) := by
  obtain ⟨n, old, hlaid, hstart⟩ := h.laid
  have htail : s.tail.Caches w (old ++ a.entries) := by
    refine List.IsSuffix.trans h.tail ?_
    rw [List.map_append]
    exact List.suffix_append ..
  rw [readEntries_eq hlaid htail (by omega) ?_ hmax]
  · have hmid : window n lo hi (old ++ (a.entries ++ [])) =
        window (n + old.length) lo hi a.entries :=
      window_middle (by omega) (by rw [AbstractLog.nextIndex] at hhi; omega)
    rw [List.append_nil, hstart] at hmid
    rw [hmid]
  · rw [List.length_append, ← Nat.add_assoc, hstart]
    exact hhi

theorem firstLive (hne : a.entries ≠ []) : s.firstLive = some a.start := by
  obtain ⟨n, old, hlaid, hstart⟩ := h.laid
  obtain ⟨e, he⟩ : ∃ e, a.entries.getLast? = some e :=
    ⟨_, List.getLast?_eq_some_getLast hne⟩
  have hlast := h.numbered.getLast? he
  have hpos : a.entries.length ≠ 0 := by simpa using hne
  cases hg : s.segs.head? with
  | none =>
    rw [List.head?_eq_none_iff.1 hg] at hlaid
    exact absurd (List.append_eq_nil_iff.1 hlaid.eq_nil).2 hne
  | some g =>
    have hlow : s.lowest n = a.start := h.lowest (by omega)
    rw [LogStore.firstLive, h.last, he, hg]
    simp only [Option.map_some, hlaid.first_head hg]
    rw [hlow, if_pos]
    show a.start ≤ e.index
    omega

/-- The entries between two indexes, as many as the limit allows. -/
theorem getBetween (lo hi : Nat) {maxBytes : Nat} (hmax : 0 < maxBytes) :
    s.getBetween w lo hi maxBytes = .ok (fit w.recLen maxBytes 0 false
      (a.entries.filter fun e => lo ≤ e.index && e.index < hi)) := by
  by_cases hne : a.entries = []
  · have hlast : s.lastEntry = none := by rw [h.last, hne]; rfl
    rw [LogStore.getBetween, hlast, hne]
    cases s.firstLive <;> rfl
  obtain ⟨e, he⟩ : ∃ e, a.entries.getLast? = some e :=
    ⟨_, List.getLast?_eq_some_getLast hne⟩
  have hnext : e.logId.index + 1 = a.nextIndex := h.numbered.getLast? he
  have hwin : (a.entries.filter fun e => lo ≤ e.index && e.index < hi) =
      window a.start (max lo a.start) (min hi a.nextIndex) a.entries := by
    rw [filter_between h.numbered, window, show max lo a.start - a.start = lo - a.start by omega,
      List.take_eq_take_iff, List.length_drop, AbstractLog.nextIndex]
    omega
  rw [LogStore.getBetween, h.firstLive hne, h.last, he, hwin]
  simp only [Option.map_some, hnext]
  by_cases hempty : max lo a.start ≥ min hi a.nextIndex
  · rw [if_pos hempty, window, show min hi a.nextIndex - max lo a.start = 0 by omega,
      List.take_zero]
    rfl
  · rw [if_neg hempty]
    exact h.readEntries (Nat.le_max_right ..) (Nat.min_le_right ..) hmax

theorem tryGet (lo hi : Bound) : s.tryGet w lo hi = .ok (a.range lo hi) := by
  rw [LogStore.tryGet, h.getBetween _ _ (by decide)]
  have hrange : (a.entries.filter fun e => lo.lower ≤ e.index && e.index < hi.upper) =
      a.range lo hi := by
    refine List.filter_congr fun e he => ?_
    have hmem := h.numbered.mem he
    have hlt : e.index < u64Max := Nat.lt_of_lt_of_le hmem.2 h.bound
    have hl : decide (lo.lower ≤ e.index) = lo.above e.index := by
      cases lo with
      | included x => rfl
      | excluded x =>
        simp only [Bound.lower, Bound.above, satAdd]
        exact decide_eq_decide.2 (by omega)
      | unbounded => simp [Bound.lower, Bound.above]
    have hh : decide (e.index < hi.upper) = hi.below e.index := by
      cases hi with
      | included x =>
        simp only [Bound.upper, Bound.below, satAdd]
        exact decide_eq_decide.2 (by omega)
      | excluded x => rfl
      | unbounded => exact decide_eq_true hlt
    rw [hl, hh]
  rw [hrange, fit_all]
  have hsub : total w.recLen (a.range lo hi) ≤ total w.recLen a.entries := total_filter_le _
  have hall := h.bytes
  simp only [u64Max]
  omega

theorem logState : s.logState = a.state := by
  rw [LogStore.logState, AbstractLog.state, h.purged, h.last]

end Repr

/-! ## Truncating -/

/-- The segments at or above `since` go, and the one that holds it is cut. -/
theorem Laid.cutAt {n : Nat} (h : Laid w n s.segs es) (hfilled : Filled s.segs) (hn : n ≤ since)
    (hhi : since ≤ n + es.length) :
    Laid w n (s.cutAt since).segs (es.take (since - n)) ∧ Filled (s.cutAt since).segs := by
  rw [LogStore.cutAt]
  obtain ⟨gs, hgs⟩ : ∃ gs, gs = s.segs := ⟨_, rfl⟩
  rw [← hgs] at h hfilled ⊢
  clear hgs
  induction gs using List.reverseRecOn generalizing es with
  | nil =>
    rw [h.eq_nil, List.rdropWhile_nil, List.take_nil]
    exact ⟨rfl, hfilled⟩
  | append_singleton gs g ih =>
    obtain ⟨xs, ys, rfl, hxs, hfirst, hys⟩ := h.last
    obtain ⟨hgs, hg0⟩ := List.forall_mem_append.1 hfilled
    by_cases hg : g.first ≥ since
    · rw [List.rdropWhile_concat_pos _ _ _ (by simpa using hg),
        List.take_append_of_le_length (by omega)]
      exact ih (by omega) hgs hxs
    rw [List.rdropWhile_concat_neg _ _ _ (by simpa using hg), LogStore.modLast_segs _ _ rfl,
      List.take_append, List.take_of_length_le (by omega),
      show since - n - xs.length = since - g.first by omega]
    refine ⟨hxs.snoc ?_ (hys.cut since),
      Filled.snoc hgs (hys.cut_filled (hg0 g (by simp)) (by omega))⟩
    rw [Segment.cut]
    split <;> exact hfirst

namespace LogStore

variable {s : LogStore P} {n : Nat} {es : List (Ent P)}

/-- The id of the last entry of the log, read back. -/
theorem entryId_last (h : Laid w n s.segs es) (ht : s.tail.Caches w es) {e : Ent P}
    (he : es.getLast? = some e) {i : Nat} (hi : i + 1 = n + es.length) :
    entryId w s i = .ok e.logId := by
  have hne : es.length ≠ 0 := by
    intro h0
    rw [List.length_eq_zero_iff.1 h0] at he
    cases he
  have hwin : window n i (i + 1) es = [e] := by
    rw [List.getLast?_eq_getElem?, show es.length - 1 = i - n by omega] at he
    rw [window_cons (by omega) (Nat.lt_succ_self i) he, window, Nat.sub_self, List.take_zero]
  rw [entryId, readEntries_eq h ht (by omega) (by omega) (by decide), hwin]
  simp [fit]

/-- Whether something of the log is left below `since`. -/
theorem firstLiveBelow_eq {start : Nat} (h : Laid w n s.segs es) (hlow : s.lowest n = start)
    (hend : n + es.length = since) (hes : start < since → es ≠ []) :
    s.firstLiveBelow since = if start < since then some start else none := by
  rw [firstLiveBelow]
  cases hg : s.segs.head? with
  | none =>
    rw [List.head?_eq_none_iff.1 hg] at h
    rw [if_neg (fun hlt => hes hlt h.eq_nil)]
  | some g =>
    cases hl : s.segs.getLast? with
    | none =>
      rw [List.getLast?_eq_none_iff] at hl
      rw [hl] at hg
      cases hg
    | some g' =>
      simp only [h.first_head hg, hlow, h.next_last hl, hend, and_self]

end LogStore

/-- Nothing is at or above `since`. -/
theorem AbstractLog.truncate_eq_self (h : ∀ e ∈ a.entries, e.index < since) :
    a.truncate since = a := by
  rw [AbstractLog.truncate, List.filter_eq_self.2 (fun e he => decide_eq_true (h e he))]

/-- What is left below `since`, but for the id of the last entry. -/
theorem Repr.cutAt (h : Repr w o s a) (hs : a.start ≤ since) (hhi : since ≤ a.nextIndex) :
    (a.truncate since).entries.length = since - a.start ∧
      Repr w o { s.cutAt since with
        lastEntry := (a.truncate since).entries.getLast?.map Ent.logId } (a.truncate since) := by
  obtain ⟨n, old, hlaid, hstart⟩ := h.laid
  rw [AbstractLog.nextIndex] at hhi
  have htake : (a.truncate since).entries = a.entries.take (since - a.start) :=
    filter_lt h.numbered since
  have hlen : (a.truncate since).entries.length = since - a.start := by
    rw [htake, List.length_take]
    omega
  obtain ⟨hsegs, hfilled⟩ := hlaid.cutAt h.filled (by omega : n ≤ since)
    (by rw [List.length_append]; omega)
  have htail : (s.tail.truncate since).Caches w (a.entries.take (since - a.start)) :=
    h.tail.truncate h.numbered
  rw [List.take_append, List.take_of_length_le (by omega),
    show since - n - old.length = since - a.start by omega, ← htake] at hsegs
  rw [← htake] at htail
  refine ⟨hlen, h.opts, h.purged, h.purgedFile, h.marker, rfl, ⟨n, old, hsegs, hstart⟩, hfilled,
    htail, ?_, ?_⟩
  · exact Nat.lt_of_le_of_lt (total_filter_le _) h.bytes
  have hb := h.bound
  rw [AbstractLog.nextIndex] at hb ⊢
  rw [hlen]
  show a.start + (since - a.start) ≤ u64Max
  omega

theorem Repr.truncate (h : Repr w o s a) (hs : a.start ≤ since) :
    ∃ s', s.truncate w since = .ok s' ∧ Repr w o s' (a.truncate since) := by
  rw [LogStore.truncate]
  cases hl : s.lastEntry with
  | none =>
    rw [h.last, Option.map_eq_none_iff, List.getLast?_eq_none_iff] at hl
    exact ⟨s, rfl, by rwa [AbstractLog.truncate_eq_self (by simp [hl])]⟩
  | some last =>
    obtain ⟨e, he, rfl⟩ : ∃ e, a.entries.getLast? = some e ∧ e.logId = last := by
      rw [h.last, Option.map_eq_some_iff] at hl
      exact hl
    have hend : e.logId.index + 1 = a.nextIndex := h.numbered.getLast? he
    simp only
    by_cases hover : since > e.logId.index
    · have hself : a.truncate since = a := by
        refine AbstractLog.truncate_eq_self fun x hx => ?_
        have hx' : x.index < a.nextIndex := (h.numbered.mem hx).2
        omega
      exact ⟨s, by rw [if_pos hover], by rwa [hself]⟩
    · have hpurged : (s.purged.filter fun p => decide (since ≤ p.index)) = none := by
        rw [h.purged, Option.filter_eq_none_iff]
        intro p hp
        simp only [AbstractLog.start, hp] at hs
        simp only [decide_eq_true_eq]
        omega
      obtain ⟨hlen, hrepr⟩ := h.cutAt hs (by omega)
      obtain ⟨n, old, hsegs, hstart⟩ : ∃ n old,
          Laid w n (s.cutAt since).segs (old ++ (a.truncate since).entries) ∧
            n + old.length = a.start := hrepr.laid
      rw [if_neg hover, hpurged]
      have hlow : (s.cutAt since).lowest n = a.start := h.lowest (by omega)
      rw [firstLiveBelow_eq hsegs hlow (by rw [List.length_append]; omega) (by
        intro hlt h0
        rw [(List.append_eq_nil_iff.1 h0).2, List.length_nil] at hlen
        omega)]
      refine ⟨_, ?_, hrepr⟩
      by_cases hlt : a.start < since
      · -- the entry before `since` is the last one now
        have hne : (a.truncate since).entries ≠ [] := by
          intro h0
          rw [h0, List.length_nil] at hlen
          omega
        have hlast := List.getLast?_eq_some_getLast hne
        have hall : (old ++ (a.truncate since).entries).getLast? = _ :=
          (List.getLast?_append_of_ne_nil _ hne).trans hlast
        have htail : (s.cutAt since).tail.Caches w (old ++ (a.truncate since).entries) := by
          refine List.IsSuffix.trans hrepr.tail ?_
          rw [List.map_append]
          exact List.suffix_append ..
        rw [if_pos hlt]
        rw [entryId_last hsegs htail hall (by rw [List.length_append]; omega), hlast]
        rfl
      · have hnil : (a.truncate since).entries = [] := by
          rw [← List.length_eq_zero_iff, hlen]
          omega
        rw [if_neg hlt, hnil]
        rfl

/-! ## Purging -/

/-- The segments that go hold nothing above the marker, and the first one that
stays holds something. -/
theorem Laid.abovePurged {n : Nat} (h : Laid w n gs es) (p : LogId) (hn : n ≤ p.index + 1) :
    ∃ gone rest, es = gone ++ rest ∧ n + gone.length ≤ p.index + 1 ∧
      Laid w (n + gone.length) (LogStore.abovePurged p gs) rest ∧
      (LogStore.abovePurged p gs ≠ [] → p.index + 1 < n + es.length) := by
  induction gs generalizing n es with
  | nil =>
    cases h
    exact ⟨[], [], rfl, hn, rfl, fun h0 => absurd rfl h0⟩
  | cons g gs ih =>
    obtain ⟨hfirst, here, rest, rfl, hg, hgs⟩ := h
    have hnext : g.next = n + here.length := by rw [hg.next_eq, hfirst]
    rw [LogStore.abovePurged, List.dropWhile_cons]
    by_cases hle : g.next ≤ p.index + 1
    · obtain ⟨gone, rest', rfl, hle', hlaid, hlast⟩ := ih hgs (by omega)
      rw [if_pos (by simpa using hle)]
      refine ⟨here ++ gone, rest', (List.append_assoc ..).symm, ?_, ?_, ?_⟩
      · rw [List.length_append, ← Nat.add_assoc]
        exact hle'
      · rw [List.length_append, ← Nat.add_assoc]
        exact hlaid
      intro h0
      rw [List.length_append, ← Nat.add_assoc]
      exact hlast h0
    · rw [if_neg (by simpa using hle)]
      refine ⟨[], here ++ rest, rfl, hn, ⟨hfirst, here, rest, rfl, hg, hgs⟩, fun _ => ?_⟩
      rw [List.length_append]
      omega

/-- The segments that stay hold the entries above the marker, after some old ones. -/
theorem Laid.purge {n start : Nat} {old : List (Ent P)} (h : Laid w n gs (old ++ es))
    (hstart : n + old.length = start) (p : LogId) (hp : start ≤ p.index + 1) :
    ∃ n' old', Laid w n' (LogStore.abovePurged p gs) (old' ++ es.drop (p.index + 1 - start)) ∧
      n' + old'.length = p.index + 1 := by
  obtain ⟨gone, rest, heq, hle, hlaid, hlast⟩ := h.abovePurged p (by omega)
  by_cases hnil : LogStore.abovePurged p gs = []
  · rw [hnil] at hlaid ⊢
    have hlen := congrArg List.length heq
    rw [hlaid.eq_nil, List.append_nil, List.length_append] at hlen
    refine ⟨p.index + 1, [], ?_, rfl⟩
    rw [List.drop_eq_nil_of_le (by omega)]
    rfl
  · have hbelow := hlast hnil
    have hdrop : rest.drop (p.index + 1 - (n + gone.length)) = es.drop (p.index + 1 - start) := by
      have hrest : rest = (old ++ es).drop gone.length := by rw [heq, List.drop_left]
      rw [hrest, List.drop_drop, List.drop_append, List.drop_eq_nil_of_le (by omega),
        List.nil_append]
      congr 1
      omega
    have hlen := congrArg List.length heq
    simp only [List.length_append] at hlen hbelow
    refine ⟨n + gone.length, rest.take (p.index + 1 - (n + gone.length)), ?_, ?_⟩
    · rw [← hdrop, List.take_append_drop]
      exact hlaid
    · rw [List.length_take]
      omega

/-- The marker is at or above `upto` already. -/
theorem Repr.any_purged (h : Repr w o s a) (upto : LogId) :
    (s.purged.any fun p => decide (p.index ≥ upto.index)) = true ↔ upto.index < a.start := by
  rw [h.purged, AbstractLog.start]
  cases a.purged with
  | none => simp
  | some p => exact decide_eq_true_iff.trans (by dsimp only; omega)

theorem Repr.purge (h : Repr w o s a) {upto : LogId} (hu : upto.index < u64Max)
    (hshort : (w.ids.encode upto).length < 2 ^ 32) :
    ∃ s', s.purge w upto = .ok s' ∧ Repr w o s' (a.purge upto) := by
  have hback := h.any_purged upto
  rw [LogStore.purge, AbstractLog.purge]
  by_cases hlt : upto.index < a.start
  · rw [if_pos (hback.2 hlt), if_pos hlt]
    exact ⟨s, rfl, h⟩
  rw [if_neg (fun hc => hlt (hback.1 hc)), if_neg hlt, if_pos hshort]
  obtain ⟨n, old, hlaid, hstart⟩ := h.laid
  have hdrop : (a.entries.filter fun e => upto.index + 1 ≤ e.index) =
      a.entries.drop (upto.index + 1 - a.start) := filter_ge h.numbered _
  rw [hdrop]
  refine ⟨_, rfl, h.opts, rfl, rfl, ?_, ?_, hlaid.purge hstart upto (by omega),
    fun g hg => h.filled g (List.dropWhile_subset _ hg), h.tail.purge h.numbered, ?_, ?_⟩
  · intro id hid
    cases hid
    exact hshort
  · -- the last entry stays or goes with the rest
    simp only [LogStore.dropPurgedSegments, h.last]
    rw [List.getLast?_drop]
    cases he : a.entries.getLast? with
    | none => simp
    | some e =>
      have hend : e.logId.index + 1 = a.start + a.entries.length := h.numbered.getLast? he
      by_cases hgone : a.entries.length ≤ upto.index + 1 - a.start
      · rw [if_pos hgone]
        simp only [Option.map_some, Option.map_none, Option.filter_eq_none_iff]
        intro l hl
        cases hl
        simp only [decide_eq_true_eq]
        omega
      · rw [if_neg hgone]
        simp only [Option.map_some]
        rw [Option.filter_some, if_pos (by simp only [decide_eq_true_eq]; omega)]
  · rw [← hdrop]
    exact Nat.lt_of_le_of_lt (total_filter_le _) h.bytes
  · have hb := h.bound
    rw [AbstractLog.nextIndex] at hb ⊢
    simp only [AbstractLog.start, List.length_drop] at hb ⊢
    omega

end Beanstalkd.Raft
