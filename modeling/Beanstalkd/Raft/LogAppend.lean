import Beanstalkd.Raft.LogSteps

/-!
# Appending, file operation by file operation

An append buffers the records of a segment and writes them at once, and rolls over to
a new segment in between. Wherever it is interrupted, the directory stands for the old
log with some of the new entries behind it: those whose records are complete.
-/

namespace Beanstalkd.Raft

open File Volume Numbered LogStore

variable {P : Type} {w : Wire P} {o : LogOptions} {a : AbstractLog P} {b b' : Batch P}
  {new all : List (Ent P)} {v : LogVolume} {vote : Option Bytes}

/-- The log with some more entries. -/
def AbstractLog.Extended (a : AbstractLog P) (new : List (Ent P)) (b : AbstractLog P) : Prop :=
  b.purged = a.purged ∧ a.entries <+: b.entries ∧ b.entries <+: a.entries ++ new

/-- What is in the segments, if what is missing is among the new entries. -/
theorem AbstractLog.extended {n : Nat} {old written pending xs : List (Ent P)}
    (heq : old ++ (a.entries ++ new) = written ++ pending) (hstart : n + old.length = a.start)
    (hpending : pending.length ≤ new.length) (hwritten : written <+: xs)
    (hxs : xs <+: written ++ pending) (hall : new <+: all) :
    a.Extended all { a with entries := xs.drop (a.start - n) } := by
  have hold : ∀ ys : List (Ent P), (old ++ ys).drop (a.start - n) = ys :=
    fun ys => List.drop_left' (by omega)
  refine ⟨rfl, ?_, ?_⟩
  · have hpre : old ++ a.entries <+: written := by
      refine List.prefix_of_prefix_length_le ?_ (List.prefix_append written pending) ?_
      · rw [← heq, ← List.append_assoc]
        exact List.prefix_append ..
      have hlen := congrArg List.length heq
      simp only [List.length_append] at hlen ⊢
      omega
    have hdrop := (hpre.trans hwritten).drop (a.start - n)
    rwa [hold] at hdrop
  · have hdrop := hxs.drop (a.start - n)
    rw [← heq, hold] at hdrop
    exact hdrop.trans ((List.prefix_append_right_inj _).2 hall)

/-- The file of the last segment with the beginning of more records. -/
theorem ReadsAs.partly (w : Wire P) (first : Nat) {ys more : List (Ent P)}
    (hshort : ∀ e ∈ ys ++ more, Short w e) (len : Nat) :
    ∃ zs, ys <+: zs ∧ zs <+: ys ++ more ∧
      ReadsAs w first (segHeader first ++ w.records ys ++ (w.records more).take len) zs := by
  have hfile : segHeader first ++ w.records ys ++ (w.records more).take len =
      (segHeader first ++ w.records (ys ++ more)).take
        (segHeaderLen + total w.recLen ys + len) := by
    have hlen := length_segment w first ys
    have hwhole : (segHeader first ++ w.records ys).take (segHeaderLen + total w.recLen ys + len) =
        segHeader first ++ w.records ys := List.take_of_length_le (by omega)
    rw [w.records_append, ← List.append_assoc, List.take_append, hlen, hwhole,
      Nat.add_sub_cancel_left]
  refine ⟨_, ?_, fit_isPrefix true, hfile ▸ (ReadsAs.whole w first (ys ++ more)).take hshort _⟩
  have hfits : fit w.recLen (segHeaderLen + total w.recLen ys + len - segHeaderLen) 0 true ys =
      ys :=
    fit_all true (by omega)
  rw [fit_append true hfits]
  exact List.prefix_append ..

namespace LogStore

/-- A new segment file is created and gets its header. Until then it counts for nothing. -/
theorem through_newSegment {S : AbstractLog P → Prop} {purged : Option Bytes} {n idx : Nat}
    {gs : List Segment} {es : List (Ent P)} (h : Whole w a purged n gs es) (ha : S a)
    (hidx : idx = n + es.length) (hview : Looks ⟨segFiles gs, purged, vote⟩ v) :
    Vol.Through (Safe w S vote)
      (Looks ⟨segFiles (gs ++ [Segment.new idx]), purged, vote⟩) (newSegmentOps idx) v := by
  have hnames := h.laid.names_ne h.filled hidx
  have hsafe : ∀ (u : LogVolume) (file : Bytes), file.length ≤ segHeaderLen →
      Looks ⟨segFiles gs ++ [(idx, file)], purged, vote⟩ u → Safe w S vote u := by
    intro u file hlen hu
    refine .of_view hu ha ⟨h.purged, h.marker, n, es, ?_, h.below, h.entries⟩
    have hstub : Files w n (segFiles gs ++ [(n + es.length, file)]) (es ++ []) :=
      .snoc h.laid h.filled trivial (by simp) (.inl ⟨hlen, rfl⟩)
    rwa [List.append_nil, ← hidx] at hstub
  have hcreate := hview.create hnames
  have hhead : ∀ data, Looks ⟨segFiles gs ++ [(idx, data)], purged, vote⟩
      ((v.perform (.create idx)).perform (.write idx 0 data)) := by
    intro data
    have hwrite := hcreate.write hnames 0 data
    have hdata : writeAt [] 0 data = data := writeAt_end [] data
    rwa [hdata] at hwrite
  have hlen : (segHeader idx).length ≤ segHeaderLen := Nat.le_of_eq (length_segHeader idx)
  refine .cons (fun _ => rfl) (h.safe ha hview) ?_
  refine ⟨hsafe _ [] (Nat.zero_le _) hcreate, ?_, ?_⟩
  · -- the header is cut
    intro len part hpart
    cases hpart
    exact hsafe _ _ (Nat.le_trans (List.length_take_le' ..) hlen) (hhead _)
  · refine .cons (fun _ => rfl) (hsafe _ _ hlen (hhead _)) ?_
    refine .cons (fun _ => rfl) (hsafe _ _ hlen ((hhead _).sync idx)) ?_
    rw [segFiles_snoc]
    exact ((hhead _).sync idx).syncDir

section

variable (hmarker : ∀ id, a.purged = some id → (w.ids.encode id).length < 2 ^ 32)
include hmarker

theorem through_flush (h : b.Steady w o a new) (hall : new <+: all) (hflush : flush b = .ok b')
    (hview : Looks (b.store.view vote) v) :
    Vol.Through (Safe w (a.Extended all) vote) (Looks (b'.store.view vote)) (flushOps b) v := by
  rw [flush] at hflush
  rw [flushOps]
  by_cases hemp : b.buf.isEmpty = true
  · rw [if_pos hemp] at hflush ⊢
    cases hflush
    exact hview
  rw [if_neg hemp] at hflush ⊢
  obtain ⟨n, old, written, pending, heq, hstart, hlaid, hfrom, hshort, hsegs, hbuf, hoffs⟩ :=
    h.laid
  cases hlast : b.store.segs.getLast? with
  | none =>
    rw [hlast] at hflush
    cases hflush
  | some g =>
    obtain ⟨gs, hg⟩ := List.getLast?_eq_some_iff.1 hlast
    rw [hlast] at hflush
    cases hflush
    have hpending : pending.length ≤ new.length := by
      have := h.recent
      rwa [hoffs, length_starts, List.length_map] at this
    rw [hg] at hlaid
    obtain ⟨xs, ys, rfl, hxs, hfirst, hys⟩ := hlaid.last
    have hgs : Filled gs := by
      have := h.filled
      rwa [hg, List.dropLast_concat] at this
    have hnum : From Ent.index (n + xs.length) (ys ++ pending) := by
      rw [List.length_append, ← Nat.add_assoc] at hfrom
      exact from_append.2 ⟨hfirst ▸ hys.numbered, hfrom⟩
    have hshort' := List.forall_mem_append.2 ⟨hys.short, hshort⟩
    -- the last file, read as its old entries and some of the buffered ones
    have hsafe : ∀ (u : LogVolume) (zs : List (Ent P)) (file : Bytes), ys <+: zs →
        zs <+: ys ++ pending → ReadsAs w g.first file zs →
        Looks ⟨segFiles gs ++ [(g.first, file)], b.store.purgedFile, vote⟩ u →
        Safe w (a.Extended all) vote u := by
      intro u zs file hlo hhi hread hu
      have hzs : From Ent.index (n + xs.length) zs := by
        obtain ⟨rest, hrest⟩ := hhi
        rw [← hrest] at hnum
        exact (from_append.1 hnum).1
      have hext : a.Extended all { a with entries := (xs ++ zs).drop (a.start - n) } := by
        refine AbstractLog.extended heq hstart hpending ?_ ?_ hall
        · exact (List.prefix_append_right_inj xs).2 hlo
        · rw [List.append_assoc]
          exact (List.prefix_append_right_inj xs).2 hhi
      refine .of_view hu hext ⟨h.purgedFile, hmarker, n, xs ++ zs, ?_,
        show n ≤ a.start by omega, rfl⟩
      rw [hfirst] at hread ⊢
      exact .snoc hxs hgs hzs (fun e he => hshort' e (hhi.subset he)) hread
    have hview' : Looks ⟨segFiles gs ++ [(g.first, g.file)], b.store.purgedFile, vote⟩ v := by
      rw [← segFiles_snoc, ← hg]
      exact hview
    have hnames := hxs.names_ne hgs hfirst
    have hend : g.endOff = g.file.length := hys.length_file.symm
    have hrecords : b.buf = w.records pending := hbuf
    have hfile : g.file = segHeader g.first ++ w.records ys := hys.file
    have hsegs' := b.store.modLast_segs (Segment.extend · b.buf b.offs) hg
    refine ⟨?_, ?_, ?_⟩
    · refine hsafe v ys g.file List.prefix_rfl (List.prefix_append ..) ?_ hview'
      rw [hfile]
      exact ReadsAs.whole ..
    · -- the write is cut
      intro len part hpart
      cases hpart
      have hwrite := hview'.write hnames g.endOff (b.buf.take len)
      rw [hend, writeAt_end, hrecords] at hwrite
      obtain ⟨zs, hlo, hhi, hread⟩ := ReadsAs.partly w g.first hshort' len
      rw [← hfile] at hread
      rw [hend, hrecords]
      exact hsafe _ zs _ hlo hhi hread hwrite
    · have hwrite := hview'.write hnames g.endOff b.buf
      show LogVolume.view (v.perform (.write g.first g.endOff b.buf)) = ⟨segFiles _, _, _⟩
      rw [hwrite, hsegs', segFiles_snoc]
      rfl

/-- The batch goes on in a new segment. -/
theorem through_startSegment (h : b.Steady w o a new) (hall : new <+: all)
    (hb' : startSegment b (a.nextIndex + new.length) = .ok b')
    (hview : Looks (b.store.view vote) v) :
    Vol.Through (Safe w (a.Extended all) vote) (Looks (b'.store.view vote))
      (startSegmentOps b (a.nextIndex + new.length)) v := by
  obtain ⟨b₁, hflush, hb₁⟩ := flush_takes h
  have hthrough := through_flush hmarker h hall hflush hview
  obtain ⟨n, old, hlaid, hstart⟩ := hb₁.whole
  have hidx : a.nextIndex + new.length = n + (old ++ (a.entries ++ new)).length := by
    simp only [AbstractLog.nextIndex, List.length_append]
    omega
  -- all of the batch so far is in whole segments
  have hext : a.Extended all { a with entries := (old ++ (a.entries ++ new)).drop (a.start - n) } :=
    AbstractLog.extended (List.append_nil _).symm hstart (Nat.zero_le _) List.prefix_rfl
      (List.prefix_append ..) hall
  have hwhole : Whole w { a with entries := (old ++ (a.entries ++ new)).drop (a.start - n) }
      b₁.store.purgedFile n b₁.store.segs (old ++ (a.entries ++ new)) :=
    ⟨hb₁.purgedFile, hmarker, hlaid, hb₁.full, show n ≤ a.start by omega, rfl⟩
  have hnew : ∀ u, Looks (b₁.store.view vote) u →
      Vol.Through (Safe w (a.Extended all) vote)
        (Looks (({ b₁.store with
          segs := b₁.store.segs ++
            [Segment.new (a.nextIndex + new.length)] } : LogStore P).view vote))
        (newSegmentOps (a.nextIndex + new.length)) u :=
    fun u hu => through_newSegment hwhole hext hidx hu
  rw [startSegment, hflush] at hb'
  rw [startSegmentOps, hflush]
  simp only at hb' ⊢
  cases hg : b₁.store.segs.getLast? with
  | none =>
    rw [hg] at hb'
    cases hb'
    exact hthrough.append hnew
  | some g =>
    have hnext : g.next = a.nextIndex + new.length := (hlaid.next_last hg).trans hidx.symm
    rw [hg] at hb'
    simp only [if_pos hnext] at hb' ⊢
    cases hb'
    refine hthrough.append fun u hu => ?_
    exact .cons (fun _ => rfl) (hwhole.safe hext hu) (hnew _ (hu.sync _))

/-- One entry of a batch. -/
theorem through_appendOne (h : b.Steady w o a new) {e : Ent P} (hshort : Short w e)
    (he : a.start ≤ e.index → e.index = a.nextIndex + new.length) (hall : new <+: all)
    (hb' : appendOne w b e = .ok b') (hview : Looks (b.store.view vote) v) :
    Vol.Through (Safe w (a.Extended all) vote) (Looks (b'.store.view vote))
      (appendOneOps w b e) v := by
  have hcov := h.any_purged e
  rw [appendOneOps]
  by_cases hle : a.start ≤ e.index
  · rw [appendOne_eq h.toTakes hshort hle (he hle)] at hb'
    rw [if_neg (fun hc => hcov.1 hc hle), nextIndex_takes h.toTakes (he hle)]
    by_cases hnew : needNew b e.index (w.recLen e) = true
    · obtain ⟨b₁, hb₁, -⟩ := startSegment_takes h
      have hthrough := through_startSegment hmarker h hall hb₁ hview
      rw [← he hle] at hb₁ hthrough
      rw [if_pos hnew, hb₁] at hb'
      cases hb'
      rw [if_pos hnew]
      exact hthrough
    · rw [if_neg hnew] at hb' ⊢
      cases hb'
      exact hview
  · rw [appendOne] at hb'
    simp only [if_pos (hcov.2 hle)] at hb' ⊢
    cases hb'
    exact hview

/-- A whole batch, and the last flush. -/
theorem through_appendAll {es : List (Ent P)} {b₁ b₂ : Batch P} (h : b.Steady w o a new)
    (hshort : ∀ e ∈ es, Short w e)
    (hes : From Ent.index (a.nextIndex + new.length) (a.above es))
    (hall : new ++ a.above es <+: all)
    (hfold : es.foldlM (appendOne w) b = .ok b₁) (hflush : flush b₁ = .ok b₂)
    (hview : Looks (b.store.view vote) v) :
    Vol.Through (Safe w (a.Extended all) vote) (Looks (b₂.store.view vote))
      (appendOps w b es) v := by
  induction es generalizing b new v with
  | nil =>
    cases hfold
    exact through_flush hmarker h ((List.prefix_append ..).trans hall) hflush hview
  | cons e es ih =>
    rw [a.above_cons] at hes hall
    rw [← List.append_assoc] at hall
    obtain ⟨hhead, hrest⟩ := from_append.1 hes
    have hnext : a.start ≤ e.index → e.index = a.nextIndex + new.length := fun hle => by
      rw [if_pos hle] at hhead
      exact hhead.1
    have hnew : new <+: all :=
      ((List.prefix_append _ _).trans (List.prefix_append _ _)).trans hall
    obtain ⟨b', hb', hsteady⟩ := appendOne_takes h (hshort e (by simp)) hnext
    rw [List.foldlM_cons, hb'] at hfold
    rw [appendOps, hb']
    refine (through_appendOne hmarker h (hshort e (by simp)) hnext hnew hb' hview).append
      fun u hu => ih hsteady (fun x hx => hshort x (by simp [hx])) ?_ hall hfold hu
    rwa [List.length_append, ← Nat.add_assoc]

end

end LogStore

theorem Repr.through_append {s s' : LogStore P} {es : List (Ent P)} (h : Repr w o s a)
    (hview : Looks (s.view vote) v) (hshort : ∀ e ∈ es, Short w e)
    (hes : From Ent.index a.nextIndex (a.above es)) (happend : s.append w es = .ok s') :
    Vol.Through (Safe w (a.Extended (a.above es)) vote) (Looks (s'.view vote))
      (appendOps w { store := s } es) v := by
  obtain ⟨b₁, hfold, hsteady⟩ := appendAll_takes h.steady hshort (by simpa using hes)
  obtain ⟨b₂, hflush, -⟩ := flush_takes hsteady
  have hthrough := through_appendAll h.marker h.steady hshort (by simpa using hes) List.prefix_rfl
    hfold hflush hview
  rw [LogStore.append, hfold] at happend
  simp only [bind, Except.bind, hflush] at happend
  cases happend
  exact hthrough

end Beanstalkd.Raft
