import Beanstalkd.Raft.LogFiles

/-!
# The log store, file operation by file operation

What every file operation of `open`, `append`, `truncate` and `purge` does to the
directory, and that at each point on the way the directory stands for a log that
the call may leave (`Safe`). A crash in the middle of a call is one of these points,
or hits one of its writes.
-/

namespace Beanstalkd.Raft

open File Volume Numbered LogStore

variable {P : Type} {w : Wire P} {o : LogOptions}

/-! ## The directory -/

/-- The directory with the vote, as a process finds it. -/
structure LogView where
  segs : List (Nat × Bytes)
  purged : Option Bytes
  vote : Option Bytes

def LogView.dir (d : LogView) : LogDir := ⟨d.segs, d.purged⟩

def LogVolume.view (v : LogVolume) : LogView where
  segs := (LogVolume.dir v).segs
  purged := (LogVolume.dir v).purged
  vote := v.listing.values .vote

/-- The directory of a store, with a vote. -/
def LogStore.view (s : LogStore P) (vote : Option Bytes) : LogView :=
  ⟨s.dir.segs, s.dir.purged, vote⟩

/-- A process finds the directory as `d`. -/
abbrev Looks (d : LogView) (v : LogVolume) : Prop := LogVolume.view v = d

namespace Looks

variable {v : LogVolume} {segs pre post : List (Nat × Bytes)} {purged vote : Option Bytes}
  {n : Nat} {file : Bytes}

section

variable (h : Looks ⟨segs, purged, vote⟩ v)
include h

theorem sync (n : Nat) : Looks ⟨segs, purged, vote⟩ (v.perform (.sync n)) := by
  rw [← h]
  have hnow : ∀ m, ((v.perform (.sync n)).files m).now = (v.files m).now := by
    intro m
    by_cases hm : m = n
    · simp [Vol.perform, hm]
    · simp [Vol.perform, hm]
  simp only [Looks, LogVolume.view, LogVolume.dir, hnow]
  rfl

theorem syncDir : Looks ⟨segs, purged, vote⟩ (v.perform .syncDir) := by
  rw [← h]
  rfl

theorem replace (data : Bytes) :
    Looks ⟨segs, some data, vote⟩ (v.perform (.replace .purged data)) := by
  cases h
  simp only [Looks, LogVolume.view, LogVolume.dir, Vol.listing_replace, DirOp.apply,
    Function.update_self]
  rfl

theorem replaceVote (data : Bytes) :
    Looks ⟨segs, purged, some data⟩ (v.perform (.replace .vote data)) := by
  cases h
  simp only [Looks, LogVolume.view, LogVolume.dir, Vol.listing_replace, DirOp.apply,
    Function.update_self]
  rfl

theorem create (hn : ∀ x ∈ segs, x.1 ≠ n) :
    Looks ⟨segs ++ [(n, [])], purged, vote⟩ (v.perform (.create n)) := by
  cases h
  have hold : (v.listing.names.map fun m => (m, ((v.perform (.create n)).files m).now)) =
      v.listing.names.map fun m => (m, (v.files m).now) := by
    refine List.map_congr_left fun m hm => ?_
    have hne : m ≠ n := hn (m, (v.files m).now) (List.mem_map.2 ⟨m, hm, rfl⟩)
    simp [Vol.perform, hne]
  have hnew : ((v.perform (.create n)).files n).now = [] := by simp [Vol.perform]
  simp only [Looks, LogVolume.view, LogVolume.dir, Vol.listing_create, DirOp.apply, List.map_append,
    hold, List.map_singleton, hnew]

end

theorem remove (h : Looks ⟨pre ++ (n, file) :: post, purged, vote⟩ v)
    (hn : ∀ x ∈ pre, x.1 ≠ n) :
    Looks ⟨pre ++ post, purged, vote⟩ (v.perform (.remove n)) := by
  have herase : (v.listing.names.erase n).map (fun m => (m, (v.files m).now)) =
      (v.listing.names.map fun m => (m, (v.files m).now)).eraseP fun x => x.1 == n := by
    rw [List.eraseP_map, List.erase_eq_eraseP']
    rfl
  have hsegs : (v.listing.names.map fun m => (m, (v.files m).now)) = pre ++ (n, file) :: post :=
    congrArg LogView.segs h
  have hgone : (pre ++ (n, file) :: post).eraseP (fun x => x.1 == n) = pre ++ post := by
    rw [List.eraseP_append_right _ (fun x hx => by simpa using hn x hx),
      List.eraseP_cons_of_pos (by simp)]
  have hp := congrArg LogView.purged h
  have hv := congrArg LogView.vote h
  simp only [Looks, LogVolume.view, LogVolume.dir] at hp hv ⊢
  rw [Vol.listing_remove]
  simp only [DirOp.apply]
  rw [hp, hv, ← hgone, ← hsegs, ← herase]
  rfl

theorem remove_first (h : Looks ⟨(n, file) :: post, purged, vote⟩ v) :
    Looks ⟨post, purged, vote⟩ (v.perform (.remove n)) := by
  have hcons : Looks ⟨[] ++ (n, file) :: post, purged, vote⟩ v := h
  exact remove hcons (by simp)

variable (h : Looks ⟨pre ++ [(n, file)], purged, vote⟩ v)
include h

/-- A change of the last file. -/
theorem modify (hn : ∀ x ∈ pre, x.1 ≠ n) (f : Bytes → Bytes) :
    Looks ⟨pre ++ [(n, f file)], purged, vote⟩ (v.modify n f) := by
  have hmap : (v.listing.names.map fun m => (m, ((v.modify n f).files m).now)) =
      (v.listing.names.map fun m => (m, (v.files m).now)).map
        fun x => if x.1 = n then (x.1, f x.2) else x := by
    rw [List.map_map]
    refine List.map_congr_left fun m _ => ?_
    by_cases hm : m = n
    · simp [Vol.modify, hm]
    · simp [Vol.modify, hm]
  have hsegs : (v.listing.names.map fun m => (m, (v.files m).now)) = pre ++ [(n, file)] :=
    congrArg LogView.segs h
  have hpre : (pre.map fun x => if x.1 = n then (x.1, f x.2) else x) = pre := by
    conv_rhs => rw [← List.map_id pre]
    exact List.map_congr_left fun x hx => if_neg (hn x hx)
  have hp := congrArg LogView.purged h
  have hv := congrArg LogView.vote h
  have hlist : (v.modify n f).listing = v.listing := rfl
  simp only [Looks, LogVolume.view, LogVolume.dir] at hp hv ⊢
  rw [hlist, hmap, hsegs, List.map_append, hpre, hp, hv]
  simp

theorem write (hn : ∀ x ∈ pre, x.1 ≠ n) (off : Nat) (data : Bytes) :
    Looks ⟨pre ++ [(n, writeAt file off data)], purged, vote⟩ (v.perform (.write n off data)) :=
  modify h hn (writeAt · off data)

theorem setLen (hn : ∀ x ∈ pre, x.1 ≠ n) (len : Nat) :
    Looks ⟨pre ++ [(n, File.setLen file len)], purged, vote⟩ (v.perform (.setLen n len)) :=
  modify h hn (File.setLen · len)

end Looks

/-- The directory stands for a log that may be left, and the vote is as it was. -/
def Safe (w : Wire P) (S : AbstractLog P → Prop) (vote : Option Bytes) (v : LogVolume) : Prop :=
  (LogVolume.view v).vote = vote ∧ ∃ a, S a ∧ Stands w (LogVolume.dir v) a

section

variable {S : AbstractLog P → Prop} {a : AbstractLog P} {v : LogVolume} {purged vote : Option Bytes}
  {segs : List (Nat × Bytes)}

theorem Safe.of_view (h : Looks ⟨segs, purged, vote⟩ v) (ha : S a)
    (hstands : Stands w ⟨segs, purged⟩ a) : Safe w S vote v := by
  refine ⟨congrArg LogView.vote h, a, ha, ?_⟩
  have hdir : LogVolume.dir v = ⟨segs, purged⟩ := congrArg LogView.dir h
  rw [hdir]
  exact hstands

variable {n : Nat} {gs : List Segment} {es : List (Ent P)}

/-- Whole segments with records, and the log: what of them is above the marker. -/
structure Whole (w : Wire P) (a : AbstractLog P) (purged : Option Bytes) (n : Nat)
    (gs : List Segment) (es : List (Ent P)) : Prop where
  purged : purged = a.purged.map fun id => frame w.crc (w.ids.encode id)
  marker : ∀ id, a.purged = some id → (w.ids.encode id).length < 2 ^ 32
  laid : Laid w n gs es
  filled : Filled gs
  below : n ≤ a.start
  entries : a.entries = es.drop (a.start - n)

theorem Whole.stands (h : Whole w a purged n gs es) :
    Stands w ⟨segFiles gs, purged⟩ a :=
  ⟨h.purged, h.marker, n, es, Files.of_laid h.laid h.filled, h.below, h.entries⟩

theorem Whole.safe (h : Whole w a purged n gs es) (ha : S a)
    (hview : Looks ⟨segFiles gs, purged, vote⟩ v) :
    Safe w S vote v := .of_view hview ha h.stands

/-- No file has the name of one that comes later. -/
theorem Laid.names_ne (hlaid : Laid w n gs es) (hfilled : Filled gs) {m : Nat}
    (hm : m = n + es.length) :
    ∀ x ∈ segFiles gs, x.1 ≠ m := by
  intro x hx
  obtain ⟨g, hg, rfl⟩ := List.mem_map.1 hx
  have := ((hlaid.increasing hfilled).1 g hg).2
  omega

/-! ## Opening -/

/-- Segments with nothing above the marker are removed, oldest first. -/
theorem through_removeFront (gone rest : List Segment) (h : Whole w a purged n (gone ++ rest) es)
    (ha : S a) (hgone : ∀ g ∈ gone, g.next ≤ a.start)
    (hview : Looks ⟨segFiles (gone ++ rest), purged, vote⟩ v) :
    Vol.Through (Safe w S vote)
      (Looks ⟨segFiles rest, purged, vote⟩)
      (gone.map fun g => .remove g.first) v := by
  induction gone generalizing n es v with
  | nil => exact hview
  | cons g gone ih =>
    obtain ⟨hfirst, here, more, rfl, hg, hrest⟩ := h.laid
    have hnext : n + here.length ≤ a.start := by
      have := hgone g (by simp)
      rw [hg.next_eq, hfirst] at this
      exact this
    refine .cons (fun _ => rfl) (h.safe ha hview) (ih ⟨h.purged, h.marker, hrest,
      fun g' hg' => h.filled g' (by simp [hg']), hnext, ?_⟩
      (fun g' hg' => hgone g' (by simp [hg'])) (hview.remove_first))
    rw [h.entries, List.drop_append, List.drop_eq_nil_of_le (by omega), List.nil_append]
    congr 1
    omega

/-- The directory is synced where a segment was removed. -/
theorem through_syncRemoved {safe : LogVolume → Prop} {d : LogView} {ops : List LogFileOp}
    (h : Vol.Through safe (Looks d) ops v)
    (hsafe : ∀ u, Looks d u → safe u) :
    Vol.Through safe (Looks d) (syncRemoved ops) v := by
  refine h.append fun u hu => ?_
  split
  · exact .cons (fun _ => rfl) (hsafe u hu) (hu.syncDir)
  · exact hu

/-- All segments that the marker covers are removed. -/
theorem through_dropOps {p : LogId} (h : Whole w a purged n gs es) (hp : a.purged = some p)
    (ha : S a)
    (hview : Looks ⟨segFiles gs, purged, vote⟩ v) :
    Vol.Through (Safe w S vote)
      (Looks ⟨segFiles (abovePurged p gs), purged, vote⟩)
      (dropOps p gs) v := by
  have hsplit : (gs.takeWhile fun g => decide (g.next ≤ p.index + 1)) ++ abovePurged p gs = gs :=
    List.takeWhile_append_dropWhile
  have hstart : a.start = p.index + 1 := by rw [AbstractLog.start, hp]
  refine through_removeFront _ (abovePurged p gs) (by rwa [hsplit]) ha ?_ (by rwa [hsplit])
  intro g hg
  rw [hstart]
  simpa using List.mem_takeWhile_imp hg

/-- The scan leaves whole segments with records alone. -/
theorem scanSegmentsOps_through (tail : List (Nat × Bytes)) :
    ∀ (gs acc : List Segment) (xs ys : List (Ent P)), Laid w n acc xs →
      Laid w (n + xs.length) gs ys → Filled gs →
      scanSegmentsOps w (segFiles gs ++ tail) acc =
        scanSegmentsOps w tail (acc ++ gs) := by
  intro gs
  induction gs with
  | nil =>
    intro acc xs ys _ _ _
    rw [List.append_nil]
    rfl
  | cons g gs ih =>
    intro acc xs ys hacc hys hfilled
    obtain ⟨hfirst, here, rest, rfl, hg, hgs⟩ := hys
    have hne : ¬ g.offsets.isEmpty = true := by
      rw [List.isEmpty_iff]
      exact hfilled g (by simp)
    have hgo := ih (acc ++ [g]) (xs ++ here) rest (hacc.snoc hfirst hg)
      (by rwa [List.length_append, ← Nat.add_assoc]) fun g' hg' => hfilled g' (by simp [hg'])
    rw [List.append_assoc] at hgo
    have hnone : scanSegmentOps w g.first (segFiles gs ++ tail).isEmpty
        g.file = [] := by
      rw [scanSegmentOps, scanSegment_eq hg]
      simp only
      rw [if_neg (by rw [hg.length_file]; exact Nat.lt_irrefl _)]
    rw [segFiles, List.map_cons, List.cons_append, scanSegmentsOps, ← segFiles, hnone,
      scanSegment_eq hg]
    simp only
    rw [if_neg hne, List.nil_append]
    cases hl : acc.getLast? with
    | none => exact hgo
    | some prev =>
      simp only
      rw [if_neg (by rw [hacc.next_last hl, hfirst]; simp)]
      exact hgo

/-- The last file is cut after its records and removed if it has none. -/
theorem scanSegmentsOps_last (acc : List Segment) {first : Nat} {file : Bytes}
    (hread : ReadsAs w first file es) (hfrom : From Ent.index first es)
    (hshort : ∀ e ∈ es, Short w e) :
    ∃ cut, scanSegmentsOps w [(first, file)] acc =
        cut ++ (if es = [] then [.remove first] else []) ∧
      ((cut = [] ∧ (es ≠ [] → file = segHeader first ++ w.records es)) ∨
        (cut = [.setLen first (segHeaderLen + total w.recLen es), .sync first] ∧
          setLen file (segHeaderLen + total w.recLen es) = segHeader first ++ w.records es)) := by
  have hheaded : ∀ rest, file = segHeader first ++ w.records es ++ rest →
      (rest = [] ∨ NoRecord w file (segHeaderLen + total w.recLen es)) →
      scanSegmentsOps w [(first, file)] acc =
        (if segHeaderLen + total w.recLen es < file.length then
          [.setLen first (segHeaderLen + total w.recLen es), .sync first] else []) ++
            (if es = [] then [.remove first] else []) := by
    intro rest hfile hrest
    have hscan : scanSegment w first true file = _ :=
      scanSegment_reads hfile (hrest.imp_right fun h => ⟨rfl, h⟩) hfrom hshort
    have hempty : (Segment.holding w first es).offsets.isEmpty = true ↔ es = [] := by
      rw [List.isEmpty_iff, (Segment.holds_holding hfrom hshort).offsets_eq_nil]
    rw [scanSegmentsOps, scanSegmentOps, List.isEmpty_nil, hscan]
    simp only
    congr 1
    by_cases hnil : es = []
    · rw [if_pos (hempty.2 hnil), if_pos hnil]
      rfl
    rw [if_neg (fun h0 => hnil (hempty.1 h0)), if_neg hnil]
    cases acc.getLast? with
    | none => rfl
    | some prev =>
      simp only
      split <;> rfl
  rcases hread with ⟨hlen, rfl⟩ | ⟨rest, hfile, hrest⟩
  · rcases scanSegment_stub hlen with hnone | hhdr
    · refine ⟨[], ?_, .inl ⟨rfl, fun h0 => absurd rfl h0⟩⟩
      rw [scanSegmentsOps, scanSegmentOps, List.isEmpty_nil, hnone, if_pos rfl]
      rfl
    have hnil : file = segHeader first ++ w.records [] ++ [] := by
      rw [hhdr, List.append_nil]
      exact (List.append_nil _).symm
    refine ⟨[], ?_, .inl ⟨rfl, fun h0 => absurd rfl h0⟩⟩
    rw [hheaded [] hnil (.inl rfl), if_neg (by rw [hhdr, length_segHeader]; simp)]
  · refine ⟨_, hheaded rest hfile hrest, ?_⟩
    have hlen : file.length = segHeaderLen + total w.recLen es + rest.length := by
      rw [hfile, List.length_append, length_segment]
    split
    next hlt =>
      refine .inr ⟨rfl, ?_⟩
      rw [hfile, ← length_segment w first es, setLen_append]
    next hge =>
      refine .inl ⟨rfl, fun _ => ?_⟩
      have hnil : rest = [] := List.length_eq_zero_iff.1 (by omega)
      rw [hfile, hnil, List.append_nil]

/-- The files are left as the segments that the scan has found. -/
theorem through_scan (h : Stands w ⟨segs, purged⟩ a) (ha : S a) (hfiles : Files w n segs es)
    (hn : n ≤ a.start) (hes : a.entries = es.drop (a.start - n))
    (hscan : scanSegments w segs [] none = .ok (gs, es.getLast?.map Ent.logId))
    (hview : Looks ⟨segs, purged, vote⟩ v) :
    Vol.Through (Safe w S vote)
      (Looks ⟨segFiles gs, purged, vote⟩)
      (scanSegmentsOps w segs []) v := by
  cases hfiles with
  | nil =>
    cases hscan
    exact hview
  | @snoc whole xs es file laid filled numbered short last =>
    -- the directory with some last file that is read as the same entries
    have hsafe : ∀ (u : LogVolume) (file' : Bytes), ReadsAs w (n + xs.length) file' es →
        Looks ⟨segFiles whole ++ [(n + xs.length, file')], purged, vote⟩ u → Safe w S vote u := by
      intro u file' hread hu
      exact .of_view hu ha ⟨h.purged, h.marker, n, xs ++ es, .snoc laid filled numbered short hread,
        hn, hes⟩
    have hnames := laid.names_ne filled rfl
    have hgs : gs = whole ++ lastSegments w (n + xs.length) es := by
      have hthrough := scanSegments_through [(n + xs.length, file)] whole [] [] xs rfl laid filled
      rw [List.nil_append, List.nil_append,
        scanSegments_last laid rfl last numbered short] at hthrough
      exact (Prod.mk.inj (Except.ok.inj (hscan.symm.trans hthrough))).1
    obtain ⟨cut, hcut, hcases⟩ := scanSegmentsOps_last whole last numbered short
    rw [scanSegmentsOps_through _ whole [] [] xs rfl laid filled, List.nil_append, hcut]
    -- a tail is cut off
    have hfirst : Vol.Through (Safe w S vote)
        (fun u => ∃ file', ReadsAs w (n + xs.length) file' es ∧
          (es ≠ [] → file' = segHeader (n + xs.length) ++ w.records es) ∧
          Looks ⟨segFiles whole ++ [(n + xs.length, file')], purged, vote⟩ u) cut v := by
      rcases hcases with ⟨rfl, hwhole⟩ | ⟨rfl, hset⟩
      · exact ⟨file, last, hwhole, hview⟩
      have hset' := hview.setLen hnames (segHeaderLen + total w.recLen es)
      rw [hset] at hset'
      have hwhole := ReadsAs.whole w (n + xs.length) es
      refine .cons (fun _ => rfl) (hsafe v file last hview) ?_
      refine .cons (fun _ => rfl) (hsafe _ _ hwhole hset') ?_
      exact ⟨_, hwhole, fun _ => rfl, hset'.sync _⟩
    refine hfirst.append fun u hu => ?_
    obtain ⟨file', hread, hwhole, hu⟩ := hu
    rw [hgs, lastSegments]
    by_cases hnil : es = []
    · rw [if_pos hnil, if_pos hnil, List.append_nil]
      refine .cons (fun _ => rfl) (hsafe u file' hread hu) ?_
      have hgone := hu.remove hnames
      rw [List.append_nil] at hgone
      exact hgone
    · rw [if_neg hnil, if_neg hnil, segFiles_snoc]
      show LogVolume.view u = _
      rw [hu, hwhole hnil]
      rfl

/-- `open` finds the log, and at each point on the way the directory stands for it. -/
theorem Stands.through_open (h : Stands w (LogVolume.dir v) a) (ha : S a)
    (hvote : (LogVolume.view v).vote = vote) (opts : LogOptions)
    (hbytes : total w.recLen a.entries < 2 ^ 64) (hbound : a.nextIndex ≤ u64Max) :
    ∃ s, openDir w opts (LogVolume.dir v) = .ok s ∧ Repr w opts s a ∧
      Vol.Through (Safe w S vote) (Looks (s.view vote))
        (openOps w (LogVolume.dir v)) v := by
  obtain ⟨n, es, hfiles, hn, hes⟩ := h.files
  obtain ⟨gs, hscan, hlaid, hfilled⟩ := hfiles.scan
  have hsorted := hscan
  rw [← hfiles.mergeSort] at hsorted
  obtain ⟨s, hopen, hrepr, hsegs⟩ :=
    openDir_scanned opts h.purged h.marker hsorted hlaid hfilled hn hes hbytes hbound
  have hview : Looks ⟨(LogVolume.dir v).segs, (LogVolume.dir v).purged, vote⟩ v := by
    rw [← hvote]
    rfl
  have hthrough := through_scan h ha hfiles hn hes hscan hview
  have hwhole : Whole w a (LogVolume.dir v).purged n gs es :=
    ⟨h.purged, h.marker, hlaid, hfilled, hn, hes⟩
  have hpurged : readPurged w (LogVolume.dir v).purged = .ok a.purged := by
    rw [h.purged]
    exact readPurged_eq w h.marker
  have hdir : s.view vote = ⟨segFiles (segmentsAbove a.purged gs),
      (LogVolume.dir v).purged, vote⟩ := by
    rw [h.purged, ← hrepr.purgedFile, ← hsegs]
    rfl
  have hsafe : ∀ u, Looks (s.view vote) u → Safe w S vote u := fun u hu =>
    .of_view hu ha hrepr.stands
  refine ⟨s, hopen, hrepr, ?_⟩
  rw [hdir] at hsafe ⊢
  rw [openOps, hpurged, hsorted, hfiles.mergeSort]
  cases hp : a.purged with
  | none =>
    rw [hp] at hsafe
    exact through_syncRemoved hthrough hsafe
  | some p =>
    have hs : a.start = p.index + 1 := by rw [AbstractLog.start, hp]
    have hall : Laid w n gs ([] ++ es) := hlaid
    obtain ⟨n', old', hlaid', hstart'⟩ := hall.purge (Nat.add_zero n) p (hs ▸ hn)
    have hgap : ((abovePurged p gs).head?.any fun g => decide (g.first > p.index + 1)) = false := by
      cases hg : (abovePurged p gs).head? with
      | none => rfl
      | some g =>
        have hfirst := hlaid'.first_head hg
        simp only [Option.any_some, decide_eq_false_iff_not]
        omega
    simp only [hgap, Bool.false_eq_true, if_false]
    rw [hp] at hsafe
    exact through_syncRemoved (hthrough.append fun u hu => through_dropOps hwhole hp ha hu) hsafe

/-! ## Purging -/

variable {s s' : LogStore P} {since : Nat}

/-- The marker is in force before the first segment is removed. -/
theorem Repr.through_purge (h : Repr w o s a) (hview : Looks (s.view vote) v) {upto : LogId}
    (hshort : (w.ids.encode upto).length < 2 ^ 32) (hpurge : s.purge w upto = .ok s')
    (hrepr : Repr w o s' (a.purge upto)) :
    Vol.Through (Safe w (fun b => b = a ∨ b = a.purge upto) vote) (Looks (s'.view vote))
      (purgeOps w s upto) v := by
  rw [LogStore.purge] at hpurge
  rw [purgeOps]
  by_cases hlt : upto.index < a.start
  · rw [if_pos ((h.any_purged upto).2 hlt)] at hpurge ⊢
    cases hpurge
    exact hview
  rw [if_neg (fun hc => hlt ((h.any_purged upto).1 hc)), if_pos hshort] at hpurge ⊢
  cases hpurge
  have hmark : (a.purge upto).purged = some upto := hrepr.purged.symm
  have hstart' : (a.purge upto).start = upto.index + 1 := by rw [AbstractLog.start, hmark]
  obtain ⟨n, old, hlaid, hstart⟩ := h.laid
  have hes : (a.purge upto).entries = (old ++ a.entries).drop ((a.purge upto).start - n) := by
    rw [hstart', List.drop_append, List.drop_eq_nil_of_le (by omega), List.nil_append,
      show upto.index + 1 - n - old.length = upto.index + 1 - a.start by omega,
      ← filter_ge h.numbered (upto.index + 1), AbstractLog.purge, if_neg hlt]
  have hmarked := hview.replace (frame w.crc (w.ids.encode upto))
  -- with the new marker the old segments stand for the new log
  have hwhole : Whole w (a.purge upto) (some (frame w.crc (w.ids.encode upto))) n s.segs
      (old ++ a.entries) :=
    ⟨hrepr.purgedFile, hrepr.marker, hlaid, h.filled, by omega, hes⟩
  refine .cons (fun _ => rfl) (.of_view hview (.inl rfl) h.stands) ?_
  refine .cons (fun _ => rfl) (hwhole.safe (.inr rfl) hmarked) ?_
  refine through_syncRemoved (through_dropOps hwhole hmark (.inr rfl) (hmarked.syncDir))
    fun u hu => ?_
  exact .of_view hu (.inr rfl) hrepr.stands

/-! ## Truncating -/

/-- A log that lost some entries at its end, but none below `since`. -/
def AbstractLog.Shortened (a : AbstractLog P) (since : Nat) (b : AbstractLog P) : Prop :=
  b.purged = a.purged ∧ (a.truncate since).entries <+: b.entries ∧ b.entries <+: a.entries

/-- Some of the entries in the segments, and among them all below `since`. -/
theorem Repr.shortened (h : Repr w o s a) {old xs : List (Ent P)}
    (hstart : n + old.length = a.start) (hs : a.start ≤ since) (hxs : xs <+: old ++ a.entries)
    (hbelow : (old ++ a.entries).take (since - n) <+: xs) :
    a.Shortened since { a with entries := xs.drop (a.start - n) } := by
  have hold : (old ++ a.entries).drop (a.start - n) = a.entries := by
    rw [List.drop_left' (by omega)]
  have htake : (a.truncate since).entries =
      ((old ++ a.entries).take (since - n)).drop (a.start - n) := by
    rw [List.drop_take, hold, show since - n - (a.start - n) = since - a.start by omega]
    exact filter_lt h.numbered since
  refine ⟨rfl, ?_, ?_⟩
  · rw [htake]
    exact hbelow.drop _
  · have hdrop := hxs.drop (a.start - n)
    rwa [hold] at hdrop

theorem Repr.shortened_truncate (h : Repr w o s a) : a.Shortened since (a.truncate since) := by
  refine ⟨rfl, List.prefix_rfl, ?_⟩
  rw [AbstractLog.truncate, filter_lt h.numbered]
  exact List.take_prefix ..

/-- The segments before those that begin at `since` or later have all that is below. -/
theorem Laid.below {kept gone : List Segment} (h : Laid w n (kept ++ gone) es)
    (hgone : ∀ g ∈ gone, since ≤ g.first) :
    ∃ xs, Laid w n kept xs ∧ xs <+: es ∧ es.take (since - n) <+: xs := by
  obtain ⟨xs, ys, rfl, hx, hy⟩ := h.split
  refine ⟨xs, hx, List.prefix_append .., ?_⟩
  cases gone with
  | nil =>
    rw [hy.eq_nil, List.append_nil]
    exact List.take_prefix ..
  | cons g gone =>
    have hle : since ≤ n + xs.length := by
      rw [← hy.1]
      exact hgone g (by simp)
    rw [List.take_append_of_le_length (by omega)]
    exact List.take_prefix ..

/-- Segments are removed, newest first. -/
theorem through_removeBack {safe : LogVolume → Prop} (kept gone : List Segment)
    (hnames : (kept ++ gone).Pairwise fun g g' => g.first < g'.first)
    (hsafe : ∀ gone' u, gone' <+: gone →
      Looks ⟨segFiles (kept ++ gone'), purged, vote⟩ u → safe u)
    (hview : Looks ⟨segFiles (kept ++ gone), purged, vote⟩ v) :
    Vol.Through safe
      (Looks ⟨segFiles kept, purged, vote⟩)
      (gone.reverse.map fun g => .remove g.first) v := by
  induction gone using List.reverseRecOn generalizing v with
  | nil =>
    rw [List.append_nil] at hview
    exact hview
  | append_singleton gone g ih =>
    have hv := hsafe (gone ++ [g]) v List.prefix_rfl hview
    rw [← List.append_assoc] at hnames hview
    obtain ⟨hnames', -, hlt⟩ := List.pairwise_append.1 hnames
    rw [segFiles_snoc] at hview
    have hview' := hview.remove (by
      intro x hx
      obtain ⟨g', hg', rfl⟩ := List.mem_map.1 hx
      exact Nat.ne_of_lt (hlt g' hg' g (by simp)))
    rw [List.append_nil] at hview'
    rw [List.reverse_append, List.reverse_singleton, List.singleton_append, List.map_cons]
    refine .cons (fun _ => rfl) hv (ih hnames' ?_ hview')
    intro gone' u hpre
    exact hsafe gone' u (hpre.trans (List.prefix_append ..))

/-- What a truncation does, if it does something. -/
theorem truncate_cases (h : s.truncate w since = .ok s') :
    (truncateOps s since = [] ∧ s' = s) ∨
      (truncateOps s since = syncRemoved (truncateRemoves s since) ++ truncateCut s since ∧
        s'.segs = (s.cutAt since).segs ∧ s'.purgedFile = s.purgedFile) := by
  cases hlast : s.lastEntry with
  | none =>
    rw [LogStore.truncate, hlast] at h
    cases h
    exact .inl ⟨by rw [truncateOps, hlast], rfl⟩
  | some last =>
    simp only [LogStore.truncate, hlast] at h
    simp only [truncateOps, hlast]
    by_cases hover : since > last.index
    · rw [if_pos hover] at h
      cases h
      exact .inl ⟨if_pos hover, rfl⟩
    rw [if_neg hover] at h ⊢
    cases hpurged : s.purged.filter fun p => since ≤ p.index with
    | some p =>
      rw [hpurged] at h
      cases h
    | none =>
      right
      rw [hpurged] at h
      simp only at h
      split at h
      · cases h
        exact ⟨rfl, rfl, rfl⟩
      split at h
      · cases h
      · cases h
        exact ⟨rfl, rfl, rfl⟩

theorem Repr.through_truncate (h : Repr w o s a) (hview : Looks (s.view vote) v)
    (hs : a.start ≤ since) (htrunc : s.truncate w since = .ok s')
    (hrepr : Repr w o s' (a.truncate since)) :
    Vol.Through (Safe w (a.Shortened since) vote) (Looks (s'.view vote))
      (truncateOps s since) v := by
  rcases truncate_cases htrunc with ⟨hops, rfl⟩ | ⟨hops, hsegs, hfile⟩
  · rw [hops]
    exact hview
  have hfilled := h.filled
  obtain ⟨n, old, hlaid, hstart⟩ := h.laid
  obtain ⟨kept, hkept⟩ : ∃ kept, kept = s.segs.rdropWhile fun g => decide (g.first ≥ since) :=
    ⟨_, rfl⟩
  obtain ⟨gone, hgone⟩ : ∃ gone, gone = s.segs.rtakeWhile fun g => decide (g.first ≥ since) :=
    ⟨_, rfl⟩
  have hsplit : kept ++ gone = s.segs := by
    rw [hkept, hgone, List.rdropWhile_append_rtakeWhile]
  have hge : ∀ g ∈ gone, since ≤ g.first := by
    intro g hg
    rw [hgone] at hg
    simpa using List.mem_rtakeWhile_imp hg
  -- the segments from some point on are gone, and all of these are at or above `since`
  have hsafe : ∀ gone' u, gone' <+: gone →
      Looks ⟨segFiles (kept ++ gone'), s.purgedFile, vote⟩ u →
      Safe w (a.Shortened since) vote u := by
    intro gone' u hpre hu
    obtain ⟨rest, hrest⟩ := hpre
    have hall : (kept ++ gone') ++ rest = s.segs := by
      rw [List.append_assoc, hrest, hsplit]
    rw [← hall] at hlaid hfilled
    obtain ⟨xs, hlaid', hxs, hbelow⟩ := hlaid.below
      fun g hg => hge g (hrest ▸ List.mem_append_right _ hg)
    have hwhole : Whole w { a with entries := xs.drop (a.start - n) } s.purgedFile n
        (kept ++ gone') xs :=
      ⟨h.purgedFile, h.marker, hlaid', fun g hg => hfilled g (List.mem_append_left _ hg),
        show n ≤ a.start by omega, rfl⟩
    exact hwhole.safe (h.shortened hstart hs hxs hbelow) hu
  have hview' : Looks ⟨segFiles (kept ++ gone), s.purgedFile, vote⟩ v := by
    rw [hsplit]
    exact hview
  have hnames := (hlaid.increasing hfilled).2
  rw [← hsplit] at hnames
  have hkeptview : ∀ u, Looks ⟨segFiles kept, s.purgedFile, vote⟩ u →
      Safe w (a.Shortened since) vote u := by
    intro u hu
    refine hsafe [] u List.nil_prefix ?_
    rw [List.append_nil]
    exact hu
  have hback := through_syncRemoved (through_removeBack kept gone hnames hsafe hview') hkeptview
  have hcut : s.cutAt since = ({ s with tail := s.tail.truncate since, segs := kept } :
      LogStore P).modLast (Segment.cut · since) := by
    rw [LogStore.cutAt, ← hkept]
  rw [hcut] at hsegs
  rw [hops, truncateRemoves, ← hgone, truncateCut, ← hkept]
  have hview_eq : s'.view vote = ⟨segFiles s'.segs, s.purgedFile, vote⟩ := by
    rw [← hfile]
    rfl
  rw [hview_eq]
  rcases List.eq_nil_or_concat' kept with hnil | ⟨ks, g, hlast⟩
  · have hsegs' : s'.segs = [] := by rw [hsegs, hnil]; rfl
    rw [hsegs', hnil, List.getLast?_nil, List.append_nil]
    rw [hnil] at hback
    exact hback
  · rw [LogStore.modLast_segs _ _ hlast] at hsegs
    rw [← hsplit, hlast] at hlaid hfilled
    obtain ⟨_, _, _, hlaid', -⟩ := hlaid.split
    obtain ⟨_, here, _, hks, hfirst, -⟩ := hlaid'.last
    have hksfilled : Filled ks := fun g' hg' => hfilled g' (by simp [hg'])
    refine hback.append fun u hu => ?_
    have hsafe_u := hkeptview u hu
    rw [hlast, List.getLast?_concat]
    rw [hlast, segFiles_snoc] at hu
    rw [hsegs, segFiles_snoc, Segment.cut]
    simp only
    cases hoff : g.offsets[since - g.first]? with
    | none => exact hu
    | some off =>
      have hset := hu.setLen (hks.names_ne hksfilled hfirst) off
      refine .cons (fun _ => rfl) hsafe_u (.cons (fun _ => rfl) ?_ (hset.sync _))
      -- the cut is the last change
      have hdir : s'.dir = ⟨segFiles ks ++ [(g.first, File.setLen g.file off)],
          s.purgedFile⟩ := by
        show (⟨segFiles s'.segs, s'.purgedFile⟩ : LogDir) = _
        rw [hsegs, hfile, segFiles_snoc, Segment.cut]
        simp only [hoff]
      have hstands := hrepr.stands
      rw [hdir] at hstands
      exact .of_view hset h.shortened_truncate hstands

end

end Beanstalkd.Raft
