import Beanstalkd.Store.WalSteps

/-!
# The files under the segments

`Laid` says how the files of the current segment and of the spares lie under what the log
knows of them. What is buffered belongs right after what is written. A spare's file has its
full length. The current file is as long as the segment, unless a record that fits no segment
is still buffered: only that makes a file longer than it was preallocated. Segments are
numbered in their order, so that nothing done to one touches the file of another.

Every step that succeeds keeps this, so every operation does.
-/

open Std

namespace Beanstalkd.Store

open File

/-! ## The length of a file -/

/-- The segment whose file an operation changes. -/
def FileOp.target : FileOp → Option Nat
  | .create seg | .extend seg _ | .write seg _ _ _ | .setLen seg _ | .remove seg => some seg
  | .sync _ | .syncDir => none

namespace Disk

variable {d : Disk} {i : Nat} {f : Bytes}

theorem fileLen_of (h : d.dir[i]? = some f) : d.fileLen i = f.length := by rw [fileLen, h]; rfl

theorem exists_file (h : 0 < d.fileLen i) : ∃ f, d.dir[i]? = some f ∧ d.fileLen i = f.length := by
  cases hf : d.dir[i]? with
  | none =>
    rw [fileLen, hf] at h
    cases h
  | some f => exact ⟨f, rfl, fileLen_of hf⟩

/-- An operation changes one file. -/
theorem fileLen_perform_ne (op : FileOp) (h : op.target ≠ some i) :
    (d.perform op).fileLen i = d.fileLen i := by
  have hne {seg : Nat} (hseg : some seg ≠ some i) : i ≠ seg :=
    fun heq => hseg (congrArg some heq.symm)
  have hdir : (op.effect d.dir)[i]? = d.dir[i]? := by
    cases op with
    | create seg => exact TreeMap.getElem?_insert_ne (Ne.symm (hne h)) _
    | extend | write | setLen => exact TreeMap.getElem?_modify_ne (hne h)
    | remove seg => exact TreeMap.getElem?_erase_ne (Ne.symm (hne h))
    | sync | syncDir => rfl
  exact congrArg (fun f => (f.getD []).length) hdir

theorem fileLen_performs_ne {ops : List FileOp} (h : ∀ op ∈ ops, op.target ≠ some i) :
    (ops.foldl perform d).fileLen i = d.fileLen i := by
  induction ops generalizing d with
  | nil => rfl
  | cons op ops ih =>
    rw [List.foldl_cons, ih fun op' h' => h op' (List.mem_cons_of_mem _ h')]
    exact fileLen_perform_ne op (h op List.mem_cons_self)

theorem fileLen_write {off : Nat} (data : Bytes) (entries : List JournalEntry)
    (hpos : 0 < d.fileLen i) (hoff : off ≤ d.fileLen i) :
    (d.perform (.write i off data entries)).fileLen i = max (d.fileLen i) (off + data.length) := by
  obtain ⟨f, hf, hlen⟩ := exists_file hpos
  rw [hlen] at hoff ⊢
  refine (fileLen_of (TreeMap.getElem?_modify_of hf)).trans ?_
  rw [writeAt, setLen_of_le hoff]
  simp only [List.length_append, List.length_take, List.length_drop]
  omega

theorem fileLen_setLen {n : Nat} (hpos : 0 < d.fileLen i) :
    (d.perform (.setLen i n)).fileLen i = n := by
  obtain ⟨f, hf, -⟩ := exists_file hpos
  exact (fileLen_of (TreeMap.getElem?_modify_of hf)).trans (length_setLen f n)

theorem extends_file (i : Nat) (datas : List Bytes) (h : d.dir[i]? = some f) :
    ((datas.map (FileOp.extend i)).foldl perform d).dir[i]? = some (f ++ datas.flatten) := by
  induction datas generalizing d f with
  | nil => rw [List.flatten_nil, List.append_nil]; exact h
  | cons data datas ih =>
    rw [List.map_cons, List.foldl_cons, ih (TreeMap.getElem?_modify_of h), List.flatten_cons,
      List.append_assoc]

end Disk

namespace Wal

/-- Zeros up to the end of the segment. -/
theorem length_zeroBlocks (left : Nat) : ((zeroBlocks left).map zeros).flatten.length = left := by
  have hdiv : left / 65536 * 65536 + left % 65536 = left := Nat.div_add_mod' left 65536
  rw [zeroBlocks, List.map_append, List.flatten_append, List.length_append, List.map_replicate,
    List.length_flatten]
  split
  next hmod => simp [hmod] at hdiv ⊢; omega
  · simpa using hdiv

variable {w w' : Wal} {recs : List Bytes}

/-- A preallocated file has the size of a segment. -/
theorem fileLen_allocation (w : Wal) (h : segHeaderLen ≤ w.segSize) :
    (w.allocation.foldl Disk.perform w.disk).fileLen w.nextIndex = w.segSize := by
  have hpre : preallocate w.nextIndex w.segSize = .create w.nextIndex ::
      (segmentHeader :: (zeroBlocks (w.segSize - segHeaderLen)).map zeros).map
        (FileOp.extend w.nextIndex) := by
    rw [preallocate, List.map_cons, List.map_map]
    rfl
  have hnew : (w.disk.perform (.create w.nextIndex)).dir[w.nextIndex]? = some [] :=
    ExtTreeMap.getElem?_insert_self
  rw [allocation, List.foldl_append, Disk.fileLen_performs_ne, hpre, List.foldl_cons,
    Disk.fileLen_of (Disk.extends_file w.nextIndex _ hnew)]
  · rw [List.nil_append, List.flatten_cons, List.length_append, length_zeroBlocks]
    exact Nat.add_sub_cancel' h
  intro op hop
  split at hop
  · cases hop
  · rw [List.mem_singleton.1 hop]
    simp [FileOp.target]

theorem allocation_target (w : Wal) {i : Nat} (hi : i ≠ w.nextIndex) :
    ∀ op ∈ w.allocation, op.target ≠ some i := by
  intro op hop
  have hne : some w.nextIndex ≠ some i := by simpa using Ne.symm hi
  rcases List.mem_append.1 hop with hop | hop
  · simp only [preallocate, List.mem_cons, List.mem_map] at hop
    rcases hop with rfl | rfl | ⟨n, -, rfl⟩ <;> exact hne
  split at hop
  · cases hop
  · rw [List.mem_singleton.1 hop]
    simp [FileOp.target]

end Wal

/-! ## The invariant -/

/-- The segments that have an open file, by their numbers. -/
def Files.opened (f : Files) : List Nat := f.current.index :: f.spares.map Extent.index

structure Files.Laid (f : Files) : Prop where
  head : segHeaderLen ≤ f.segSize
  /-- What is buffered ends where the records end. -/
  ends : f.bufStart + f.buf.length = f.current.written
  fits : f.current.written ≤ f.current.size
  start : 0 < f.bufStart ∧ f.bufStart ≤ f.disk.fileLen f.current.index
  /-- The file is shorter than the segment only if the segment was extended. -/
  size : f.disk.fileLen f.current.index ≤ f.current.size ∧
    (f.current.size = f.disk.fileLen f.current.index ∨ f.current.size = f.current.written)
  spares : ∀ s ∈ f.spares, 0 < s.written ∧ s.written ≤ s.size ∧ f.disk.fileLen s.index = s.size
  order : f.opened.Pairwise (· < ·)
  older : ∀ s ∈ f.closed, s.index < f.current.index
  below : ∀ i ∈ f.opened, i < f.nextIndex

namespace Files.Laid

variable {f : Files}

/-- The files from the current one on are as long as they were. -/
theorem of_disk (h : f.Laid) {d : Disk} (hd : ∀ i ∈ f.opened, d.fileLen i = f.disk.fileLen i) :
    Laid { f with disk := d } := by
  obtain ⟨hcur, hspares⟩ := List.forall_mem_cons.mp hd
  refine { h with
    start := ⟨h.start.1, Nat.le_trans h.start.2 (Nat.le_of_eq hcur.symm)⟩
    size := ⟨Nat.le_trans (Nat.le_of_eq hcur) h.size.1, h.size.2.imp_left (·.trans hcur.symm)⟩
    spares := fun s hs => ?_ }
  obtain ⟨hwritten, hfit, hfile⟩ := h.spares s hs
  exact ⟨hwritten, hfit, (hspares _ (List.mem_map_of_mem hs)).trans hfile⟩

theorem current_le (h : f.Laid) : ∀ i ∈ f.opened, f.current.index ≤ i :=
  List.forall_mem_cons.mpr ⟨Nat.le_refl _, fun i hi =>
    Nat.le_of_lt ((List.pairwise_cons.mp h.order).1 i hi)⟩

theorem current_lt (h : f.Laid) {s : Extent} (hs : s ∈ f.spares) : f.current.index < s.index :=
  (List.pairwise_cons.mp h.order).1 _ (List.mem_map_of_mem hs)

/-- The buffer is written. -/
theorem write (h : f.Laid) (entries : List JournalEntry) : Laid { f with
    disk := f.disk.perform (.write f.current.index f.bufStart f.buf entries)
    bufStart := f.bufStart + f.buf.length, buf := [], unsynced := true } := by
  obtain ⟨hpos, hstart⟩ := h.start
  obtain ⟨hle, hsize⟩ := h.size
  have hlen := Disk.fileLen_write f.buf entries
    (Nat.lt_of_lt_of_le hpos hstart) hstart
  have hends := h.ends
  have hfits := h.fits
  refine { h with
    start := ⟨?_, ?_⟩
    size := ?_
    spares := fun s hs => ?_ }
  · exact Nat.lt_of_lt_of_le hpos (Nat.le_add_right ..)
  · rw [hlen]
    exact Nat.le_max_right ..
  · dsimp only
    omega
  obtain ⟨hwritten, hfit, hfile⟩ := h.spares s hs
  refine ⟨hwritten, hfit, Eq.trans ?_ hfile⟩
  exact Disk.fileLen_perform_ne _ (by simpa [FileOp.target] using Nat.ne_of_lt (h.current_lt hs))

/-- A record is laid; if it fits no segment, it extends the current one. -/
theorem lay (h : f.Laid) (bytes : Bytes) : Laid { f with
    current := ⟨f.current.index, max f.current.size (f.current.written + bytes.length),
      f.current.written + bytes.length⟩
    buf := f.buf ++ bytes
    recordsWritten := f.recordsWritten + 1 } := by
  have hends := h.ends
  obtain ⟨hle, hsize⟩ := h.size
  refine { h with
    ends := ?_
    fits := Nat.le_max_right ..
    size := ?_ }
  · rw [List.length_append]
    dsimp only
    omega
  · dsimp only
    omega

/-- A new spare. -/
theorem snoc (h : f.Laid) {d : Disk} (hd : ∀ i, i ≠ f.nextIndex → d.fileLen i = f.disk.fileLen i)
    (hnew : d.fileLen f.nextIndex = f.segSize) : Laid { f with
      nextIndex := f.nextIndex + 1, disk := d
      spares := f.spares ++ [⟨f.nextIndex, f.segSize, segHeaderLen⟩] } := by
  have hkept := h.of_disk fun i hi => hd i (Nat.ne_of_lt (h.below i hi))
  have hopened : f.current.index ::
      (f.spares ++ [Extent.mk f.nextIndex f.segSize segHeaderLen]).map Extent.index =
        f.opened ++ [f.nextIndex] := by
    rw [List.map_append]
    rfl
  refine { hkept with
    spares := List.forall_mem_append.mpr ⟨hkept.spares, List.forall_mem_singleton.mpr ?_⟩
    order := ?_
    below := ?_ }
  · exact ⟨Nat.zero_lt_succ 15, h.head, hnew⟩
  · rw [opened, hopened, List.pairwise_append]
    exact ⟨h.order, List.pairwise_singleton ..,
      fun i hi => List.forall_mem_singleton.mpr (h.below i hi)⟩
  rw [opened, hopened]
  exact List.forall_mem_append.mpr ⟨fun i hi => Nat.lt_succ_of_lt (h.below i hi),
    List.forall_mem_singleton.mpr (Nat.lt_succ_self _)⟩

/-- The current segment is cut to its records and left for the first spare. -/
theorem advance (h : f.Laid) (hbuf : f.buf = []) {next : Extent} {spares : List Extent}
    (hspares : f.spares = next :: spares) {d : Disk} {size : Nat}
    (hd : ∀ i, i ≠ f.current.index → d.fileLen i = f.disk.fileLen i) : Laid { f with
      disk := d, closed := f.closed ++ [⟨f.current.index, size, f.current.written⟩]
      current := next, spares := spares, bufStart := next.written, unsynced := false } := by
  have hkept : ∀ s ∈ next :: spares,
      0 < s.written ∧ s.written ≤ s.size ∧ d.fileLen s.index = s.size := by
    intro s hs
    rw [← hspares] at hs
    obtain ⟨hwritten, hfit, hfile⟩ := h.spares s hs
    exact ⟨hwritten, hfit, (hd _ (Nat.ne_of_gt (h.current_lt hs))).trans hfile⟩
  obtain ⟨⟨hwritten, hfit, hfile⟩, hrest⟩ := List.forall_mem_cons.mp hkept
  have horder := h.order
  have hbelow := h.below
  rw [opened, hspares] at horder hbelow
  have hlt : f.current.index < next.index := h.current_lt (by rw [hspares]; simp)
  exact {
    head := h.head
    ends := by rw [hbuf]; rfl
    fits := hfit
    start := ⟨hwritten, by rw [hfile]; exact hfit⟩
    size := ⟨Nat.le_of_eq hfile, .inl hfile.symm⟩
    spares := hrest
    order := (List.pairwise_cons.mp horder).2
    older := List.forall_mem_append.mpr ⟨fun s hs => Nat.lt_trans (h.older s hs) hlt,
      List.forall_mem_singleton.mpr hlt⟩
    below := fun i hi => hbelow i (List.mem_cons_of_mem _ hi) }

end Files.Laid

namespace Wal

variable {w w' : Wal} {recs : List Bytes}

def Laid (w : Wal) : Prop := w.files.Laid

/-- The current file has the length of its segment. -/
def Snug (w : Wal) : Prop := w.disk.fileLen w.current.index = w.current.size

theorem Laid.snug (h : w.Laid) (hbuf : w.buf = []) : w.Snug := by
  have hends : w.bufStart + w.buf.length = w.current.written := h.ends
  have hstart : w.bufStart ≤ w.disk.fileLen w.current.index := h.start.2
  have hsize : w.disk.fileLen w.current.index ≤ w.current.size := h.size.1
  have htip : w.current.size = w.disk.fileLen w.current.index ∨
      w.current.size = w.current.written :=
    h.size.2
  rw [hbuf, List.length_nil] at hends
  rw [Snug]
  omega

theorem Step.ok (h : Step recs w w') (hok : w'.failure = none) : w.failure = none := by
  cases h with
  | account h => exact (congrArg Files.failure h).symm.trans hok
  | fail => cases hok
  | flush =>
    rcases flush_cases w with ⟨-, heq⟩ | ⟨-, -, heq⟩ | ⟨-, heq⟩ <;> rw [heq] at hok
    · exact hok
    · cases hok
    · exact hok
  | sync => exact hok
  | allocate =>
    rcases allocate_cases w with ⟨e, heq⟩ | ⟨-, heq | heq⟩ <;> rw [heq] at hok <;> exact hok
  | advance =>
    cases hspares : w.spares with
    | nil => rwa [Wal.advance, hspares] at hok
    | cons next spares => rwa [advance_eq hspares] at hok
  | lay bytes => rwa [Wal.lay, bump_eq] at hok
  | stray => cases hok
  | drop =>
    rw [dropFront] at hok
    split at hok <;> exact hok
  | syncDir => exact hok

theorem Step.laid (h : Step recs w w') (hw : w.Laid) (hok : w'.failure = none) : w'.Laid := by
  cases h with
  | account h =>
    rw [Laid, h]
    exact hw
  | fail => cases hok
  | flush =>
    rcases flush_cases w with ⟨-, heq⟩ | ⟨-, -, heq⟩ | ⟨-, heq⟩ <;> rw [heq] at hok ⊢
    · exact hw
    · cases hok
    · exact hw.write w.queued
  | sync =>
    have hkept := hw.of_disk (d := w.disk.perform (.sync w.current.index)) fun i _ =>
      Disk.fileLen_perform_ne _ (by simp [FileOp.target])
    exact { hkept with }
  | allocate =>
    rcases allocate_cases w with ⟨e, heq⟩ | ⟨hnew, heq | heq⟩ <;> rw [heq]
    · exact hw
    · have hkept := hw.of_disk fun i hi => by
          have hne : some w.nextIndex ≠ some i := fun heq =>
            Nat.ne_of_gt (hw.below i hi) (Option.some.inj heq)
          exact (Disk.fileLen_perform_ne (.remove w.nextIndex) hne).trans
            (Disk.fileLen_perform_ne (.create w.nextIndex) hne)
      exact { hkept with below := fun i hi => Nat.lt_succ_of_lt (hw.below i hi) }
    · have hkept := hw.snoc (fun i hi => Disk.fileLen_performs_ne (allocation_target w hi))
        (fileLen_allocation w hw.head)
      rw [Laid, files]
      simp only [List.map_append]
      exact { hkept with }
  | advance hbuf hsync =>
    cases hspares : w.spares with
    | nil =>
      rw [Wal.advance, hspares]
      exact hw
    | cons next spares =>
      rw [advance_eq hspares, Laid, files]
      simp only [List.map_append]
      have hd (i : Nat) (hi : i ≠ w.current.index) :
          (if w.current.size > w.current.written then
            w.disk.perform (.setLen w.current.index w.current.written) else w.disk).fileLen i =
              w.disk.fileLen i := by
        split
        · exact Disk.fileLen_perform_ne _ fun heq => hi (Option.some.inj heq).symm
        · rfl
      exact hw.advance hbuf (congrArg (List.map Seg.extent) hspares) hd
  | lay _ bytes =>
    rw [Wal.lay, bump_eq]
    exact hw.lay bytes
  | stray => cases hok
  | drop =>
    rw [dropFront]
    split
    · exact hw
    next s closed hclosed =>
      have hall := hw.older
      rw [files, hclosed] at hall
      obtain ⟨hs, holder⟩ := List.forall_mem_cons.mp hall
      have hkept := hw.of_disk (d := w.disk.perform (.remove s.index)) fun i hi =>
        Disk.fileLen_perform_ne _ fun heq =>
          Nat.ne_of_lt (Nat.lt_of_lt_of_le hs (hw.current_le i hi)) (Option.some.inj heq)
      exact { hkept with older := holder }
  | syncDir =>
    exact hw.of_disk fun i _ =>
      Disk.fileLen_perform_ne _ (by simp [FileOp.target])

theorem Run.ok (h : Run recs w w') (hok : w'.failure = none) : w.failure = none := by
  induction h with
  | refl => exact hok
  | step _ hstep ih => exact ih (hstep.ok hok)

/-- How the files lie after a run that succeeds. -/
theorem Run.laid (h : Run recs w w') (hw : w.Laid) (hok : w'.failure = none) : w'.Laid := by
  induction h with
  | refl => exact hw
  | step _ hstep ih => exact hstep.laid (ih hw (hstep.ok hok)) hok

end Wal

/-! ## Opening -/

namespace Scanner

variable {crc : Bytes → UInt32} {s s' : Scanner} {P : Nat → Prop}

/-- All segments scanned so far have such a number. -/
def Numbered (P : Nat → Prop) (s : Scanner) : Prop := ∀ g ∈ s.segs, P g.index

theorem Numbered.tear (h : s.Numbered P) (index off : Nat) (why : String) :
    (s.tear index off why).Numbered P := by
  rw [Scanner.tear]
  split <;> exact h

theorem Numbered.records {index : Nat} {buf : Bytes} {n pos : Nat} {has : Bool}
    (h : s.Numbered P) (hindex : P index) (hs : records crc index buf n pos has s = .ok s') :
    s'.Numbered P := by
  have hclose {s : Scanner} (h : s.Numbered P) (pos : Nat) (has : Bool) :
      (s.close index buf pos has).Numbered P :=
    List.forall_mem_append.mpr ⟨h, List.forall_mem_singleton.mpr hindex⟩
  induction n generalizing pos has s with
  | zero =>
    cases hs
    exact hclose h pos has
  | succ n ih =>
    rw [Scanner.records] at hs
    split at hs
    · cases hs
      refine hclose ?_ pos has
      split
      · exact h.tear _ _ _
      · exact h
    · split at hs
      · cases hs
      · refine ih ?_ hs
        exact h
    · cases hs
    · cases hs
      exact hclose (h.tear _ _ _) pos has

theorem Numbered.segment {f : Nat × Bytes} (h : s.Numbered P) (hf : P f.1)
    (hs : segment crc s f = .ok s') : s'.Numbered P := by
  rw [Scanner.segment] at hs
  dsimp only at hs
  split at hs
  · cases hs
    refine List.forall_mem_append.mpr ⟨?_, List.forall_mem_singleton.mpr hf⟩
    split
    · exact h.tear _ _ _
    · exact h
  split at hs
  · cases hs
  split at hs
  · cases hs
  · exact h.records hf hs

theorem Numbered.segments {fs : List (Nat × Bytes)} (h : s.Numbered P) (hfs : ∀ f ∈ fs, P f.1)
    (hs : fs.foldlM (Scanner.segment crc) s = .ok s') : s'.Numbered P := by
  induction fs generalizing s with
  | nil =>
    cases hs
    exact h
  | cons f fs ih =>
    obtain ⟨hf, hrest⟩ := List.forall_mem_cons.mp hfs
    rw [List.foldlM_cons] at hs
    cases hseg : Scanner.segment crc s f with
    | error e =>
      rw [hseg] at hs
      cases hs
    | ok s₁ =>
      rw [hseg] at hs
      exact ih (h.segment hf hseg) hrest hs

end Scanner

theorem le_last (dir : Dir) :
    ∀ f ∈ dir.toList, f.1 ≤ (dir.toList.getLast?.map Prod.fst).getD 0 := by
  intro f hf
  cases hlast : dir.toList.getLast? with
  | none =>
    rw [List.getLast?_eq_none_iff.mp hlast] at hf
    cases hf
  | some e =>
    obtain ⟨front, hl⟩ := List.getLast?_eq_some_iff.mp hlast
    have hord := ExtTreeMap.ordered_keys_toList (t := dir)
    rw [hl] at hf hord
    rcases List.mem_append.mp hf with hfront | hend
    · exact Nat.le_of_lt (Nat.compare_eq_lt.mp
        ((List.pairwise_append.mp hord).2.2 f hfront e List.mem_cons_self))
    · rw [List.mem_singleton.mp hend]
      exact Nat.le_refl _

/-- New segments are numbered after all that are there. -/
theorem scan_index {crc : Bytes → UInt32} {dir : Dir} {sc : Scan} (h : scan crc dir = .ok sc) :
    ∀ s ∈ sc.segs, s.index ≤ sc.maxIndex := by
  rw [scan] at h
  cases hfold : dir.toList.foldlM (Scanner.segment crc) {} with
  | error e =>
    rw [hfold] at h
    cases h
  | ok s' =>
    rw [hfold] at h
    cases h
    refine Scanner.Numbered.segments (P := (· ≤ _)) (by simp [Scanner.Numbered])
      (fun f hf => ?_) hfold
    exact le_last dir f hf


namespace Wal

variable {w w' : Wal}

theorem start_laid {recovery recovery' : Recovery}
    (h : (w.start recovery).result = .ok (w', recovery')) (hhead : segHeaderLen ≤ w.segSize)
    (hbuf : w.buf = []) (hstart : w.bufStart = segHeaderLen) (hspares : w.spares = [])
    (hclosed : ∀ s ∈ w.closed, s.index < w.nextIndex) : w'.Laid ∧ w'.buf = [] := by
  obtain ⟨current, spares, halloc, hcons, -, hok, rfl⟩ := start_ok h
  have hrun := (ensureRoom_run { w.allocate.1 with current, spares } 0 false).trans (gc_run _)
  rcases allocate_cases w with ⟨e, heq⟩ | ⟨-, heq | heq⟩
  all_goals rw [heq] at halloc hcons
  · cases halloc
  · cases halloc
  rw [heq] at hrun hok ⊢
  simp only [hspares, List.nil_append] at hcons
  cases hcons
  have hfile := fileLen_allocation w hhead
  refine ⟨hrun.laid ?_ hok, hrun.buf_nil hbuf⟩
  exact {
    head := hhead
    ends := by
      show w.bufStart + w.buf.length = segHeaderLen
      rw [hbuf, hstart]
      rfl
    fits := hhead
    start := ⟨Nat.lt_of_lt_of_eq (by decide) hstart.symm,
      Nat.le_trans (Nat.le_of_eq hstart) (Nat.le_trans hhead (Nat.le_of_eq hfile.symm))⟩
    size := ⟨Nat.le_of_eq hfile, .inl hfile.symm⟩
    spares := fun s hs => absurd hs List.not_mem_nil
    order := List.pairwise_singleton ..
    older := by
      intro s hs
      obtain ⟨g, hg, rfl⟩ := List.mem_map.mp hs
      exact hclosed g hg
    below := List.forall_mem_singleton.mpr (Nat.lt_succ_self _) }

end Wal

theorem segmentSize_bounds {fileSize size : Nat} (h : segmentSize fileSize = .ok size) :
    block ≤ size ∧ size ≤ maxFileSize := by
  rw [segmentSize] at h
  split at h
  next hle =>
    cases h
    refine ⟨?_, hle⟩
    simp only [block]
    omega
  · cases h

/-- The files of a log that was opened. -/
theorem openWal_laid {crc : Bytes → UInt32} {opts : WalOptions} {disk : Disk} {w : Wal}
    {recovery : Recovery} (h : (openWal crc opts disk).result = .ok (w, recovery)) :
    w.Laid ∧ w.buf = [] := by
  obtain ⟨segSize, sc, d, recovery', hsize, hscan, hstart⟩ := Wal.openWal_ok h
  refine Wal.start_laid hstart ?_ rfl rfl rfl fun s hs => ?_
  · exact Nat.le_trans (by decide) (segmentSize_bounds hsize).1
  · obtain ⟨g, hg, rfl⟩ := List.mem_map.mp hs
    exact Nat.lt_succ_of_le (scan_index hscan g (List.mem_of_mem_filter hg))

end Beanstalkd.Store
