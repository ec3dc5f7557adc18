import Mathlib.Algebra.Order.BigOperators.Group.List
import Mathlib.Algebra.Order.Group.Nat
import Beanstalkd.Lib.Room
import Beanstalkd.Store.WalFiles

/-!
# Reserved space in the log

`reserve_put` keeps room for a put, and there is always room for the deletes of all live
jobs. The log's accounting is that of `Lib.Room`, with segments of `capacity` bytes and
deletes as the unit: every operation is one of its steps, so `reserved + slack ≤ avail` holds
throughout (`Roomy`).

An append of puts with a reservation and of deletes therefore finds its room without a new
segment, and extends none. What it writes lies within the files as they were preallocated
(`Stays`), so it goes through on a full disk, and all of its records are written.

A put whose reservation is larger than it is leaves the difference reserved until the end of
the append. A copy that `maintain` makes may extend a segment; on a full disk that fails.
-/

open Std

namespace Beanstalkd.Store

open File

/-- A preallocated segment. -/
def Extent.Blank (segSize : Nat) (s : Extent) : Prop :=
  s.size = segSize ∧ s.written = segHeaderLen

namespace Wal

variable {w w' w'' : Wal} {crc : Bytes → UInt32} {recs : List Bytes} {len : Nat}

def Spared (w : Wal) : Prop := ∀ s ∈ w.files.spares, s.Blank w.segSize

/-- All segments get one size, and a spare is left blank until it becomes the current one. -/
theorem Step.spared (h : Step recs w w') : w'.segSize = w.segSize ∧ (w.Spared → w'.Spared) := by
  cases h with
  | account h =>
    have hsize : w'.segSize = w.segSize := congrArg Files.segSize h
    refine ⟨hsize, fun hw => ?_⟩
    rw [Spared, h, hsize]
    exact hw
  | fail => exact ⟨rfl, id⟩
  | flush =>
    rcases flush_cases w with ⟨-, heq⟩ | ⟨-, -, heq⟩ | ⟨-, heq⟩ <;> rw [heq] <;> exact ⟨rfl, id⟩
  | sync => exact ⟨rfl, id⟩
  | allocate =>
    rcases allocate_cases w with ⟨e, heq⟩ | ⟨-, heq | heq⟩ <;> rw [heq]
    · exact ⟨rfl, id⟩
    · exact ⟨rfl, id⟩
    refine ⟨rfl, fun hw => ?_⟩
    rw [Spared, files, List.map_append]
    exact List.forall_mem_append.mpr ⟨hw, List.forall_mem_singleton.mpr ⟨rfl, rfl⟩⟩
  | advance =>
    cases hspares : w.spares with
    | nil => rw [Wal.advance, hspares]; exact ⟨rfl, id⟩
    | cons next spares =>
      rw [advance_eq hspares]
      refine ⟨rfl, fun hw => ?_⟩
      rw [Spared, files, hspares] at hw
      exact (List.forall_mem_cons.mp hw).2
  | lay bytes => rw [Wal.lay, bump_eq]; exact ⟨rfl, id⟩
  | stray => rw [bump_eq]; exact ⟨rfl, id⟩
  | drop => rw [dropFront]; split <;> exact ⟨rfl, id⟩
  | syncDir => exact ⟨rfl, id⟩

theorem Run.spared (h : Run recs w w') : w'.segSize = w.segSize ∧ (w.Spared → w'.Spared) := by
  induction h with
  | refl => exact ⟨rfl, id⟩
  | step _ hstep ih => exact ⟨hstep.spared.1.trans ih.1, hstep.spared.2 ∘ ih.2⟩

theorem Run.capacity (h : Run recs w w') : w'.capacity = w.capacity := by
  rw [Wal.capacity, Wal.capacity, h.spared.1]

/-! ## The accounting -/

def space (w : Wal) : Room.Space where
  size := w.current.size
  written := w.current.written
  spares := w.spares.length
  live := w.jobs.size
  pending := w.pendingPuts
  bytes := w.pendingBytes

structure Roomy (w : Wal) : Prop where
  ge_block : block ≤ w.segSize
  le_max : w.segSize ≤ maxFileSize
  spared : w.Spared
  sound : w.space.Sound segHeaderLen w.capacity deleteRecLen

namespace Roomy

theorem room (h : w.Roomy) : w.reserved + w.slack ≤ w.avail := h.sound.room

theorem unit_lt (h : w.Roomy) : deleteRecLen < w.capacity := by
  have := h.ge_block
  simp only [block, capacity, deleteRecLen, segHeaderLen, frameHeader] at this ⊢
  omega

theorem segSize_eq (h : w.Roomy) : segHeaderLen + w.capacity = w.segSize := by
  have := h.ge_block
  simp only [block, capacity, segHeaderLen] at this ⊢
  omega

theorem run (h : w.Roomy) (hrun : Run recs w w')
    (hsound : w'.space.Sound segHeaderLen w.capacity deleteRecLen) : w'.Roomy := by
  obtain ⟨hsize, hspared⟩ := hrun.spared
  refine ⟨?_, ?_, hspared h.spared, ?_⟩
  · rw [hsize]
    exact h.ge_block
  · rw [hsize]
    exact h.le_max
  · rwa [hrun.capacity]

/-- Less may be promised. -/
theorem less (h : w.Roomy) {pending bytes : Nat} (hpending : pending ≤ w.pendingPuts)
    (hbytes : bytes ≤ w.pendingBytes) :
    Roomy { w with pendingPuts := pending, pendingBytes := bytes } :=
  h.run (.account rfl) (h.sound.mono rfl rfl rfl (Nat.add_le_add_left hpending _) hbytes)

end Roomy

/-- Of the accounting, only the number of jobs changes. -/
def Keeps (w w' : Wal) : Prop := w'.space = { w.space with live := w'.jobs.size }

namespace Keeps

theorem trans (h : Keeps w w') (h' : Keeps w' w'') : Keeps w w'' := by
  rw [Keeps] at h h' ⊢
  rw [h', h]

theorem of_files (h : w'.files = w.files) (hputs : w'.pendingPuts = w.pendingPuts)
    (hbytes : w'.pendingBytes = w.pendingBytes) : Keeps w w' := by
  have hsize : w'.current.size = w.current.size := congrArg (·.current.size) h
  have hwritten : w'.current.written = w.current.written := congrArg (·.current.written) h
  have hspares : w'.spares.length = w.spares.length := by
    simpa [files] using congrArg (·.spares.length) h
  simp only [Keeps, space, hsize, hwritten, hspares, hputs, hbytes]

theorem roomy (h : Keeps w w') (hrun : Run recs w w') (hw : w.Roomy)
    (hle : w'.jobs.size ≤ w.jobs.size) : w'.Roomy := by
  refine hw.run hrun ?_
  rw [h]
  exact hw.sound.mono rfl rfl rfl (Nat.add_le_add_right hle _) (Nat.le_refl _)

theorem pending (h : Keeps w w') :
    w'.pendingPuts = w.pendingPuts ∧ w'.pendingBytes = w.pendingBytes :=
  ⟨congrArg Room.Space.pending h, congrArg Room.Space.bytes h⟩

end Keeps

/-- Writing and syncing change neither the accounting nor the segments at hand. -/
theorem flush_books (w : Wal) :
    w.flush.space = w.space ∧ w.flush.jobs = w.jobs ∧ w.flush.spares = w.spares := by
  rcases flush_cases w with ⟨-, heq⟩ | ⟨-, -, heq⟩ | ⟨-, heq⟩ <;> rw [heq] <;> exact ⟨rfl, rfl, rfl⟩

theorem flushSync_books (w : Wal) : w.flushSync.space = w.space ∧ w.flushSync.jobs = w.jobs ∧
    w.flushSync.spares = w.spares := by
  rw [flushSync, andThen]
  split
  · exact flush_books w
  · rw [syncIfUnsynced]
    split <;> exact flush_books w

/-- A roll that finds a spare fails only where the buffer cannot be written. -/
theorem roll_books {next : Seg} {spares : List Seg} (h : w.spares = next :: spares) :
    w.roll.jobs = w.jobs ∧ (w.roll.failure ≠ none ∧ w.roll.space = w.space ∨
      w.roll.failure = none ∧ w.roll.space = { w.space with
        size := next.size, written := next.written, spares := spares.length }) := by
  obtain ⟨hspace, hjobs, hspares⟩ := flushSync_books w
  rw [h] at hspares
  rw [roll, andThen]
  split
  next hfailed => exact ⟨hjobs, .inl ⟨Option.isSome_iff_ne_none.mp hfailed, hspace⟩⟩
  next hfine =>
    rw [if_neg (by simp [hspares]), advance_eq hspares]
    refine ⟨hjobs, .inr ⟨by simpa using hfine, ?_⟩⟩
    rw [← hspace]
    rfl

theorem rolled_cases (hw : w.Roomy) {s' : Room.Space}
    (h : w.space.roll segHeaderLen w.capacity len = some s') :
    w.rolled len = w ∧ s' = w.space ∨
      ∃ next spares, w.spares = next :: spares ∧ w.rolled len = w.roll ∧ s' = { w.space with
        size := next.size, written := next.written, spares := spares.length } := by
  rcases Room.Space.roll_cases segHeaderLen w.capacity w.space len with
    ⟨hstay, hsome⟩ | ⟨hpast, hover, ⟨-, hnone⟩ | ⟨n, hn, hsome⟩⟩
  · exact .inl ⟨if_neg hstay, Option.some.inj (h.symm.trans hsome)⟩
  · cases hnone.symm.trans h
  obtain ⟨next, spares, hsp⟩ := List.exists_cons_of_length_eq_add_one hn
  obtain ⟨hsize, hwritten⟩ : next.extent.Blank w.segSize := by
    refine hw.spared _ ?_
    rw [files, hsp]
    exact List.mem_cons_self
  have hlen : spares.length = n := by simpa [space, hsp] using hn
  refine .inr ⟨next, spares, hsp, if_pos ⟨hpast, hover⟩, ?_⟩
  rw [Option.some.inj (h.symm.trans hsome), hw.segSize_eq, ← hlen]
  exact congrArg₂ (fun size written => { w.space with size, written, spares := spares.length })
    hsize.symm hwritten.symm

/-- Before a record that has room is placed. -/
theorem rolled_books (hw : w.Roomy) (hok : w.failure = none) {s' : Room.Space}
    (h : w.space.roll segHeaderLen w.capacity len = some s') : (w.rolled len).jobs = w.jobs ∧
      ((w.rolled len).failure ≠ none ∧ (w.rolled len).space = w.space ∨
        (w.rolled len).failure = none ∧ (w.rolled len).space = s') := by
  rcases rolled_cases hw h with ⟨heq, rfl⟩ | ⟨next, spares, hsp, heq, rfl⟩ <;> rw [heq]
  · exact ⟨rfl, .inr ⟨hok, rfl⟩⟩
  · exact roll_books hsp

theorem bump_space (w : Wal) (len : Nat) : (w.bump len).space = w.space.bump len := by
  rw [bump_eq]
  rfl

/-! ## Staying within the files -/

/-- Nothing failed, and there is a file under all of the current segment. -/
structure Tight (w : Wal) : Prop where
  ok : w.failure = none
  laid : w.Laid
  snug : w.Snug

/-- The log goes on with the files it has, and none gets longer. -/
structure Stays (w w' : Wal) : Prop where
  tight : w'.Tight
  ops : ∃ new, w'.disk.ops = w.disk.ops ++ new ∧ ∀ seg, .create seg ∉ new
  shorter : ∀ seg, w'.disk.fileLen seg ≤ w.disk.fileLen seg

namespace Stays

theorem trans (h : Stays w w') (h' : Stays w' w'') : Stays w w'' := by
  obtain ⟨new, hnew, hcreate⟩ := h.ops
  obtain ⟨new', hnew', hcreate'⟩ := h'.ops
  refine ⟨h'.tight, ⟨new ++ new', by rw [hnew', hnew, List.append_assoc], fun seg hseg => ?_⟩,
    fun seg => Nat.le_trans (h'.shorter seg) (h.shorter seg)⟩
  rcases List.mem_append.1 hseg with hseg | hseg
  · exact hcreate seg hseg
  · exact hcreate' seg hseg

/-- Nothing is done to the files, and the current segment is not extended. -/
theorem of_run (h : Run recs w w') (hw : w.Tight) (hok : w'.failure = none)
    (hdisk : w'.disk = w.disk) (hcurrent : w'.current.index = w.current.index)
    (hsize : w'.current.size = w.current.size) : Stays w w' := by
  refine ⟨⟨hok, h.laid hw.laid hok, ?_⟩, ⟨[], by rw [hdisk, List.append_nil], by simp⟩,
    fun seg => Nat.le_of_eq (by rw [hdisk])⟩
  rw [Snug, hdisk, hcurrent, hsize]
  exact hw.snug

/-- One file operation, after which nothing is buffered. -/
theorem of_op {op : FileOp} (h : Run recs w w') (hw : w.Tight) (hok : w'.failure = none)
    (hbuf : w'.buf = []) (hdisk : w'.disk = w.disk.perform op) (hop : ∀ seg, op ≠ .create seg)
    (hshort : ∀ seg, (w.disk.perform op).fileLen seg ≤ w.disk.fileLen seg) : Stays w w' := by
  have hlaid := h.laid hw.laid hok
  refine ⟨⟨hok, hlaid, hlaid.snug hbuf⟩, ⟨[op], by rw [hdisk]; rfl, fun seg hseg => ?_⟩,
    fun seg => by rw [hdisk]; exact hshort seg⟩
  exact hop seg (List.mem_singleton.1 hseg).symm

end Stays

theorem Tight.refl (h : w.Tight) : Stays w w := .of_run (.refl w) h h.ok rfl rfl rfl

/-- The buffer lies within the file. -/
theorem flush_stays (hw : w.Tight) : Stays w w.flush ∧ w.flush.buf = [] := by
  have hends : w.bufStart + w.buf.length = w.current.written := hw.laid.ends
  have hfits : w.current.written ≤ w.current.size := hw.laid.fits
  have hsnug : w.disk.fileLen w.current.index = w.current.size := hw.snug
  have hrun : Run [] w w.flush := .one (.flush w)
  rcases flush_cases w with ⟨hbuf, heq⟩ | ⟨-, hshort, heq⟩ | ⟨-, heq⟩ <;> rw [heq] at hrun ⊢
  · exact ⟨hw.refl, hbuf⟩
  · omega
  refine ⟨.of_op hrun hw hw.ok rfl rfl (by simp) fun seg => ?_, rfl⟩
  by_cases hseg : seg = w.current.index
  · subst hseg
    obtain ⟨hpos, hstart⟩ : 0 < w.bufStart ∧ w.bufStart ≤ w.disk.fileLen w.current.index :=
      hw.laid.start
    rw [Disk.fileLen_write _ _ (Nat.lt_of_lt_of_le hpos hstart) hstart]
    omega
  · exact Nat.le_of_eq (Disk.fileLen_perform_ne _ (by simpa [FileOp.target] using Ne.symm hseg))

theorem syncCur_stays (hw : w.Tight) (hbuf : w.buf = []) : Stays w w.syncCur :=
  .of_op (.one (.sync w)) hw hw.ok hbuf rfl (by simp) fun _ =>
    Nat.le_of_eq (Disk.fileLen_perform_ne _ nofun)

theorem flushSync_stays (hw : w.Tight) : Stays w w.flushSync ∧ w.flushSync.buf = [] ∧
    (w.flushSync.policy ≠ .never → w.flushSync.unsynced = false) := by
  obtain ⟨hflush, hbuf⟩ := flush_stays hw
  rw [flushSync, andThen_eq hflush.tight.ok]
  refine ⟨hflush.trans ?_, (syncIfUnsynced_buf _).trans hbuf, syncIfUnsynced_unsynced _⟩
  rw [syncIfUnsynced]
  split
  · exact syncCur_stays hflush.tight hbuf
  · exact hflush.tight.refl

/-- The file that is left is cut to its records. -/
theorem advance_stays (hw : w.Tight) (hbuf : w.buf = [])
    (hsync : w.policy ≠ .never → w.unsynced = false) {next : Seg} {spares : List Seg}
    (h : w.spares = next :: spares) : Stays w w.advance := by
  have hrun : Run [] w w.advance := .one (.advance hbuf hsync)
  have hsnug : w.disk.fileLen w.current.index = w.current.size := hw.snug
  have hpos : 0 < w.disk.fileLen w.current.index :=
    Nat.lt_of_lt_of_le hw.laid.start.1 hw.laid.start.2
  rw [advance_eq h] at hrun ⊢
  by_cases hcut : w.current.size > w.current.written
  · refine .of_op hrun hw hw.ok hbuf (if_pos hcut) (by simp) fun seg => ?_
    by_cases hseg : seg = w.current.index
    · rw [hseg, Disk.fileLen_setLen hpos]
      omega
    · exact Nat.le_of_eq (Disk.fileLen_perform_ne _ (by simpa [FileOp.target] using Ne.symm hseg))
  · have hlaid := hrun.laid hw.laid hw.ok
    refine ⟨⟨hw.ok, hlaid, hlaid.snug hbuf⟩, ⟨[], ?_, by simp⟩, fun seg => Nat.le_of_eq ?_⟩ <;>
      simp only [if_neg hcut, List.append_nil]

theorem rolled_stays (ht : w.Tight) (hw : w.Roomy) {s' : Room.Space}
    (h : w.space.roll segHeaderLen w.capacity len = some s') :
    Stays w (w.rolled len) ∧ (w.rolled len).jobs = w.jobs ∧ (w.rolled len).space = s' := by
  have hstays : Stays w (w.rolled len) := by
    rcases rolled_cases hw h with ⟨heq, -⟩ | ⟨next, spares, hsp, heq, -⟩ <;> rw [heq]
    · exact ht.refl
    obtain ⟨hflush, hbuf, hsync⟩ := flushSync_stays ht
    have hspares := (flushSync_books w).2.2.trans hsp
    rw [roll, andThen_eq hflush.tight.ok, if_neg (by simp [hspares])]
    exact hflush.trans (advance_stays hflush.tight hbuf hsync hspares)
  obtain ⟨hjobs, ⟨hfailed, -⟩ | ⟨-, hspace⟩⟩ := rolled_books hw ht.ok h
  · exact absurd hstays.tight.ok hfailed
  · exact ⟨hstays, hjobs, hspace⟩

/-! ## Appending what was announced -/

theorem index_keeps (w : Wal) (e : JournalEntry) : Keeps w (w.index e) := by
  refine .of_files (index_files w e) ?_ ?_ <;> cases e <;>
    simp only [index, indexPut, indexUpdate, indexDelete] <;> split <;> rfl

theorem indexPut_jobs (w : Wal) (record : JobRecord) (off len : Nat) :
    ∃ j, (w.indexPut record off len).jobs = w.jobs.insert record.id j := by
  simp only [indexPut]
  split <;> exact ⟨_, rfl⟩

theorem indexDelete_jobs (w : Wal) {id : JobId} (hlive : id ∈ w.jobs) :
    (w.indexDelete id).jobs = w.jobs.erase id := by
  rw [indexDelete]
  split
  next hnone => exact absurd (ExtTreeMap.isSome_getElem?_iff_mem.2 hlive) (by simp [hnone])
  · rfl

/-- Deletes of live jobs only, and no updates. -/
def deletesLive (live : JobId → Bool) : List JournalEntry → Bool
  | [] => true
  | .put record _ _ :: entries => deletesLive (fun id => record.id = id || live id) entries
  | .update _ :: _ => false
  | .delete id :: entries => live id && deletesLive (fun i => id ≠ i && live i) entries

/-- The lengths of the puts among the entries. -/
def putLens : List JournalEntry → List Nat
  | [] => []
  | .put _ tube body :: entries => putRecLen tube.bytes.length body.length :: putLens entries
  | _ :: entries => putLens entries

/-- What is pending covers the entries. -/
structure Covers (w : Wal) (entries : List JournalEntry) : Prop where
  live : deletesLive w.jobs.contains entries = true
  puts : (putLens entries).length ≤ w.pendingPuts
  bytes : (putLens entries).sum ≤ w.pendingBytes
  fits : ∀ len ∈ putLens entries, len ≤ w.capacity

/-- A record that fits a segment has a length its header can hold. -/
theorem encode_fits (crc : Bytes → UInt32) (hmax : w.segSize ≤ maxFileSize) {e : JournalEntry}
    (hlen : recLen e ≤ w.capacity) : encode crc e = .ok (frame crc (payload e)) := by
  refine if_pos ?_
  have hframe := length_frame_payload crc e
  rw [length_frame] at hframe
  simp only [capacity, segHeaderLen, frameHeader, maxFileSize] at hlen hframe hmax
  omega

/-- A record that fits the current segment is laid there, and its entry gets into the index. -/
theorem enter_stays (ht : w.Tight) {e : JournalEntry} {bytes : Bytes}
    (hbytes : encode crc e = .ok bytes) (hfits : w.current.written + recLen e ≤ w.current.size) :
    let w' := (w.bump (recLen e)).enter crc e
    Stays w w' ∧ Keeps (w.bump (recLen e)) w' ∧
      ∃ u : Wal, u.jobs = w.jobs ∧ w'.jobs = (u.index e).jobs := by
  intro w'
  have hfiles : w'.files = (w.lay bytes).files := enter_files ht.ok hbytes
  have hlen : bytes.length = recLen e := by rw [encode_ok hbytes, length_frame_payload]
  have hlay : (w.lay bytes).files = { w.files with
      current := ⟨w.current.index, w.current.size, w.current.written + recLen e⟩
      buf := w.buf ++ bytes, recordsWritten := w.recordsWritten + 1 } := by
    rw [lay, hlen, bump_eq, Nat.max_eq_left hfits]
    rfl
  obtain ⟨u, hu, heq⟩ := enter_eq (w := w.bump (recLen e)) (by rw [bump_eq]; exact ht.ok) hbytes
  refine ⟨?_, ?_, u, ?_, (congrArg Wal.jobs heq).trans rfl⟩
  · have hall := hfiles.trans hlay
    refine .of_run ((Run.one (.lay w bytes)).andAccount hfiles) ht ?_ ?_ ?_ ?_
    · exact (congrArg Files.failure hall).trans ht.ok
    · exact congrArg Files.disk hall
    · exact congrArg (·.current.index) hall
    · exact congrArg (·.current.size) hall
  · have hpushed : Keeps (w.bump (recLen e)) u := by
      rw [hu]
      exact rfl
    rw [show w' = _ from heq]
    exact hpushed.trans (index_keeps u e)
  · rw [hu, bump_eq]

/-- An entry gets the room there is for its record, and leaves at most `live` jobs. -/
theorem place_enter (crc : Bytes → UInt32) (ht : w.Tight) (hw : w.Roomy)
    {e : JournalEntry} (hlen : recLen e ≤ w.capacity) {live : Nat}
    (hroom : ∃ s', w.space.roll segHeaderLen w.capacity (recLen e) = some s' ∧
      Room.Space.Sound segHeaderLen w.capacity deleteRecLen { s'.bump (recLen e) with live })
    {P : ExtTreeMap JobId JobEntry → Prop}
    (hindex : ∀ u : Wal, u.jobs = w.jobs → P (u.index e).jobs)
    (hsize : ∀ jobs, P jobs → jobs.size ≤ live) :
    let w' := (w.place (recLen e)).andThen (·.enter crc e)
    Stays w w' ∧ w'.Roomy ∧ w'.pendingPuts = w.pendingPuts ∧ w'.pendingBytes = w.pendingBytes ∧
      P w'.jobs := by
  obtain ⟨s', hroll, hsound⟩ := hroom
  obtain ⟨hrolled, hjobs, hspace⟩ := rolled_stays ht hw hroll
  have hbytes := encode_fits crc hw.le_max hlen
  have hfits : (w.rolled (recLen e)).space.written + recLen e ≤
      (w.rolled (recLen e)).space.size := by
    rw [hspace]
    exact Room.Space.roll_fits hroll hw.sound.head_le hw.sound.fresh hlen
  obtain ⟨hentered, hkeeps, u, hu, hindexed⟩ := enter_stays hrolled.tight hbytes hfits
  obtain ⟨-, hputs, hpbytes⟩ := Room.Space.roll_promises hroll
  have hP := hindexed ▸ hindex u (hu.trans hjobs)
  rw [place_andThen, andThen_eq hrolled.tight.ok]
  have hspace' := hkeeps.trans rfl
  rw [Keeps, bump_space, hspace] at hspace'
  refine ⟨hrolled.trans hentered, ?_, ?_, ?_, hP⟩
  · obtain ⟨recs, hrun, -⟩ := enter_lays crc e hrolled.tight.ok
    refine hw.run ((rolled_run w _).trans hrun) ?_
    rw [hspace']
    exact hsound.mono rfl rfl rfl (Nat.add_le_add_right (hsize _ hP) _) (Nat.le_refl _)
  · exact (congrArg Room.Space.pending hspace').trans hputs
  · exact (congrArg Room.Space.bytes hspace').trans hpbytes

theorem appendOne_put (crc : Bytes → UInt32) (ht : w.Tight) (hw : w.Roomy)
    (record : JobRecord) (tube : TubeName) (body : Bytes)
    (hput : putRecLen tube.bytes.length body.length = len) (hpending : 0 < w.pendingPuts)
    (hbytes : len ≤ w.pendingBytes) (hlen : len ≤ w.capacity) :
    let w' := w.appendOne crc (.put record tube body)
    Stays w w' ∧ w'.Roomy ∧ w'.pendingPuts = w.pendingPuts - 1 ∧
      w'.pendingBytes = w.pendingBytes - len ∧ ∃ j, w'.jobs = w.jobs.insert record.id j := by
  subst hput
  let u : Wal := { w with
    pendingPuts := w.pendingPuts - 1
    pendingBytes := w.pendingBytes - putRecLen tube.bytes.length body.length }
  have hunreserve : w.unreserve (recLen (.put record tube body)) = u := if_pos hpending
  have hstays : Stays w u := .of_run (.account rfl) ht ht.ok rfl rfl rfl
  have hu : u.Roomy := hw.less (Nat.sub_le _ _) (Nat.sub_le _ _)
  have hpos : 0 < putRecLen tube.bytes.length body.length := by
    simp only [putRecLen, frameHeader]
    omega
  obtain ⟨hrest, hroomy, hputs, hpbytes, hjobs⟩ := place_enter crc hstays.tight hu
    (e := .put record tube body) hlen
    (Room.Space.place_announced hw.sound hpending hbytes hpos hlen)
    (P := fun jobs => ∃ j, jobs = w.jobs.insert record.id j)
    (fun v hv => by
      obtain ⟨j, hj⟩ := indexPut_jobs v record (v.placed (recLen (.put record tube body)))
        (recLen (.put record tube body))
      exact ⟨j, hj.trans (by rw [hv])⟩)
    (by
      rintro _ ⟨j, rfl⟩
      exact ExtTreeMap.size_insert_le)
  rw [← hunreserve] at hrest hroomy hputs hpbytes hjobs
  exact ⟨hstays.trans (hunreserve ▸ hrest), hroomy, hputs.trans (by rw [hunreserve]),
    hpbytes.trans (by rw [hunreserve]), hjobs⟩

theorem appendOne_delete (crc : Bytes → UInt32) (ht : w.Tight) (hw : w.Roomy) {id : JobId}
    (hlive : id ∈ w.jobs) :
    let w' := w.appendOne crc (.delete id)
    Stays w w' ∧ w'.Roomy ∧ w'.pendingPuts = w.pendingPuts ∧ w'.pendingBytes = w.pendingBytes ∧
      w'.jobs = w.jobs.erase id := by
  have hpos : 0 < w.jobs.size := by
    refine Nat.pos_of_ne_zero fun h0 => ?_
    rw [ExtTreeMap.eq_empty_iff_size_eq_zero.2 h0] at hlive
    exact ExtTreeMap.not_mem_empty hlive
  have hunit : 0 < deleteRecLen := by decide
  refine place_enter crc ht hw (e := .delete id) (Nat.le_of_lt hw.unit_lt)
    (Room.Space.place_unit hw.sound hpos hunit (Nat.le_of_lt hw.unit_lt))
    (P := fun jobs => jobs = w.jobs.erase id) (fun v hv => ?_) ?_
  · exact (indexDelete_jobs v (hv.symm ▸ hlive)).trans (by rw [hv])
  rintro _ rfl
  rw [ExtTreeMap.size_erase, if_pos (ExtTreeMap.contains_iff_mem.2 hlive)]
  exact Nat.le_refl _

/-- One entry of a batch that is covered. -/
theorem Covers.appendOne (crc : Bytes → UInt32) {e : JournalEntry} {entries : List JournalEntry}
    (h : w.Covers (e :: entries)) (ht : w.Tight) (hw : w.Roomy) :
    Stays w (w.appendOne crc e) ∧ (w.appendOne crc e).Roomy ∧
      (w.appendOne crc e).Covers entries := by
  obtain ⟨hlive, hputs, hbytes, hfits⟩ := h
  obtain ⟨_, hrun, -⟩ := appendOne_lays crc w e
  cases e with
  | put record tube body =>
    simp only [putLens, List.length_cons, List.sum_cons, List.mem_cons, forall_eq_or_imp]
      at hputs hbytes hfits
    obtain ⟨hstays, hroomy, hputs', hbytes', j, hjobs⟩ := appendOne_put crc ht hw record tube body
      rfl (by omega) (by omega) hfits.1
    refine ⟨hstays, hroomy, ?_, by omega, by omega, ?_⟩
    · rw [← hlive, deletesLive, hjobs]
      congr 1
      funext id
      rw [Bool.eq_iff_iff]
      simp [ExtTreeMap.contains_insert]
    · rw [hrun.capacity]
      exact hfits.2
  | update record => cases hlive
  | delete id =>
    simp only [deletesLive, Bool.and_eq_true] at hlive
    obtain ⟨hstays, hroomy, hputs', hbytes', hjobs⟩ :=
      appendOne_delete crc ht hw (ExtTreeMap.contains_iff_mem.1 hlive.1)
    refine ⟨hstays, hroomy, ?_, hputs'.symm ▸ hputs, hbytes'.symm ▸ hbytes, ?_⟩
    · rw [← hlive.2, hjobs]
      congr 1
      funext i
      rw [Bool.eq_iff_iff]
      simp [ExtTreeMap.contains_erase]
    · rw [hrun.capacity]
      exact hfits

theorem appends_stays (crc : Bytes → UInt32) (entries : List JournalEntry) (h : w.Covers entries)
    (ht : w.Tight) (hw : w.Roomy) :
    Stays w (entries.foldl (fun w e => w.andThen (·.appendOne crc e)) w) ∧
      (entries.foldl (fun w e => w.andThen (·.appendOne crc e)) w).Roomy := by
  induction entries generalizing w with
  | nil => exact ⟨ht.refl, hw⟩
  | cons e entries ih =>
    obtain ⟨hstays, hroomy, hcovers⟩ := h.appendOne crc ht hw
    obtain ⟨hrest, hroomy'⟩ := ih hcovers hstays.tight hroomy
    rw [List.foldl_cons, andThen_eq ht.ok]
    exact ⟨hstays.trans hrest, hroomy'⟩

theorem settle_stays (ht : w.Tight) (hw : w.Roomy) : Stays w w.settle ∧ w.settle.Roomy ∧
    w.settle.pendingPuts = 0 ∧ w.settle.pendingBytes = 0 := by
  let u : Wal := { w with pendingPuts := 0, pendingBytes := 0 }
  have hstays : Stays w u := .of_run (.account rfl) ht ht.ok rfl rfl rfl
  obtain ⟨hflush, hbuf⟩ := flush_stays hstays.tight
  have hsettle : Stays u.flush w.settle ∧ w.settle.space = u.flush.space := by
    rw [settle, andThen_eq hflush.tight.ok]
    split
    · exact ⟨syncCur_stays hflush.tight hbuf, rfl⟩
    · exact ⟨hflush.tight.refl, rfl⟩
  have hspace : w.settle.space = u.space := hsettle.2.trans (flush_books u).1
  refine ⟨(hstays.trans hflush).trans hsettle.1, ?_, congrArg Room.Space.pending hspace,
    congrArg Room.Space.bytes hspace⟩
  refine hw.run (settle_run w) ?_
  rw [hspace]
  exact (hw.less (Nat.zero_le _) (Nat.zero_le _)).sound

/-- An append of a batch that is covered goes through with the files there are. -/
theorem append_stays (crc : Bytes → UInt32) {entries : List JournalEntry} (h : w.Covers entries)
    (ht : w.Tight) (hw : w.Roomy) :
    Stays w (w.append crc entries) ∧ (w.append crc entries).Roomy ∧
      (w.append crc entries).pendingPuts = 0 ∧ (w.append crc entries).pendingBytes = 0 := by
  obtain ⟨hstays, hroomy⟩ := appends_stays crc entries h ht hw
  obtain ⟨hstays', hsettled⟩ := settle_stays hstays.tight hroomy
  rw [append, andThen_eq hstays.tight.ok]
  exact ⟨hstays.trans hstays', hsettled⟩

/-! ## Making room -/

/-- Only spares have been added. -/
structure Grown (w w' : Wal) : Prop where
  failure : w'.failure = w.failure
  jobs : w'.jobs = w.jobs
  space : ∃ k, w'.space = { w.space with spares := w.space.spares + k }

namespace Grown

theorem refl (w : Wal) : Grown w w := ⟨rfl, rfl, 0, rfl⟩

theorem trans (h : Grown w w') (h' : Grown w' w'') : Grown w w'' := by
  obtain ⟨k, hk⟩ := h.space
  obtain ⟨k', hk'⟩ := h'.space
  refine ⟨h'.failure.trans h.failure, h'.jobs.trans h.jobs, k + k', ?_⟩
  rw [hk', hk, Nat.add_assoc]

theorem of_allocate (w : Wal) : Grown w w.allocate.1 := by
  rcases allocate_cases w with ⟨e, heq⟩ | ⟨-, heq | heq⟩ <;> rw [heq]
  · exact .refl w
  · exact ⟨rfl, rfl, 0, rfl⟩
  · exact ⟨rfl, rfl, 1, by simp [Wal.space]⟩

end Grown

theorem roomLoop_grown (n : Nat) (spare : Bool) (fuel : Nat) (w : Wal) :
    Grown w (roomLoop n spare fuel w).1 ∧
      ((roomLoop n spare fuel w).2 = true →
        (roomLoop n spare fuel w).1.hasRoom n spare = true) := by
  induction fuel generalizing w with
  | zero => exact ⟨.refl w, id⟩
  | succ fuel ih =>
    have halloc := Grown.of_allocate w
    rw [roomLoop]
    split
    next hroom => exact ⟨.refl w, fun _ => hroom⟩
    · split
      next ha =>
        rw [ha] at halloc
        exact ⟨halloc, fun hfalse => by cases hfalse⟩
      next w' ha =>
        rw [ha] at halloc
        exact ⟨halloc.trans (ih w').1, (ih w').2⟩

theorem ensureRoom_grown (w : Wal) (n : Nat) (spare : Bool) :
    Grown w (w.ensureRoom n spare).1 ∧
      ((w.ensureRoom n spare).2 = true → (w.ensureRoom n spare).1.hasRoom n spare = true) :=
  roomLoop_grown n spare _ w

/-- The step keeps the room, and what is pending. -/
structure Upholds (w w' : Wal) : Prop where
  roomy : w'.Roomy
  pendingPuts : w'.pendingPuts = w.pendingPuts
  pendingBytes : w'.pendingBytes = w.pendingBytes

namespace Upholds

theorem refl (hw : w.Roomy) : Upholds w w := ⟨hw, rfl, rfl⟩

theorem trans (h : Upholds w w') (h' : Upholds w' w'') : Upholds w w'' :=
  ⟨h'.roomy, h'.pendingPuts.trans h.pendingPuts, h'.pendingBytes.trans h.pendingBytes⟩

theorem of_keeps (hw : w.Roomy) (hrun : Run recs w w') (h : Keeps w w')
    (hle : w'.jobs.size ≤ w.jobs.size) : Upholds w w' :=
  ⟨h.roomy hrun hw hle, h.pending.1, h.pending.2⟩

theorem of_space (hw : w.Roomy) (hrun : Run recs w w') (h : w'.space = w.space) : Upholds w w' :=
  .of_keeps hw hrun (h.trans (congrArg (fun n => { w.space with live := n })
    (congrArg Room.Space.live h).symm)) (Nat.le_of_eq (congrArg Room.Space.live h))

theorem of_grown (hw : w.Roomy) (hrun : Run recs w w') (h : Grown w w') : Upholds w w' := by
  obtain ⟨k, hk⟩ := h.space
  refine ⟨hw.run hrun ?_, congrArg Room.Space.pending hk, congrArg Room.Space.bytes hk⟩
  rw [hk]
  exact hw.sound.spares (Nat.le_of_lt hw.unit_lt) k

theorem andThen {f : Wal → Wal} (h : Upholds w w')
    (hf : w'.failure = none → Upholds w' (f w')) : Upholds w (w'.andThen f) := by
  rw [Wal.andThen]
  split
  · exact h
  next hok => exact h.trans (hf (by simpa using hok))

theorem fail (hw : w.Roomy) (e : WalError) : Upholds w (w.fail e) :=
  .of_space hw (.one (.fail w e)) rfl

end Upholds

/-- A reservation that is granted counts the put as pending; otherwise there are at most
more spares. -/
theorem reservePut_roomy (hw : w.Roomy) {tubeLen bodyLen : Nat} {ok : Bool}
    (h : w.reservePut tubeLen bodyLen = (w', ok)) :
    w'.Roomy ∧ bif ok then
      putRecLen tubeLen bodyLen ≤ w.capacity ∧ w'.pendingPuts = w.pendingPuts + 1 ∧
        w'.pendingBytes = w.pendingBytes + putRecLen tubeLen bodyLen
    else w'.pendingPuts = w.pendingPuts ∧ w'.pendingBytes = w.pendingBytes := by
  rw [reservePut] at h
  split at h
  · cases h
    exact ⟨hw, rfl, rfl⟩
  next hfits =>
    generalize putRecLen tubeLen bodyLen = put at h hfits ⊢
    have hrun := ensureRoom_run { w with pendingBytes := w.pendingBytes + put } deleteRecLen true
    obtain ⟨hgrown, hroom⟩ :=
      ensureRoom_grown { w with pendingBytes := w.pendingBytes + put } deleteRecLen true
    generalize ensureRoom { w with pendingBytes := w.pendingBytes + put } deleteRecLen true = r
      at h hgrown hroom hrun
    obtain ⟨v, ok'⟩ := r
    obtain ⟨k, hk⟩ := hgrown.space
    have hbytes : v.pendingBytes = w.pendingBytes + put := congrArg Room.Space.bytes hk
    -- without the put's bytes, the log has only grown
    have hup : Upholds w { v with pendingBytes := v.pendingBytes - put } := by
      have hpending : Run [] w { w with pendingBytes := w.pendingBytes + put } := .account rfl
      refine .of_grown hw ((hpending.trans hrun).andAccount rfl)
        ⟨hgrown.failure, hgrown.jobs, k, ?_⟩
      show { v.space with bytes := v.pendingBytes - put } = _
      rw [hk, hbytes, Nat.add_sub_cancel]
      rfl
    cases ok' with
    | false =>
      cases h
      exact ⟨hup.roomy, hup.pendingPuts, hup.pendingBytes⟩
    | true =>
      cases h
      refine ⟨?_, Nat.le_of_not_lt hfits, congrArg (· + 1) hup.pendingPuts,
        congrArg (· + put) hup.pendingBytes⟩
      obtain ⟨hge, hmax, hspared, -, hhead, hle, hfresh⟩ := hup.roomy
      refine ⟨hge, hmax, hspared, ?_, hhead, hle, hfresh⟩
      have hneed := of_decide_eq_true (hroom rfl)
      simp only [reserved, slack, avail, capacity, if_true] at hneed
      simp only [space, Room.Space.reserved, Room.Space.slack, Room.Space.avail, capacity, hbytes,
        Nat.add_sub_cancel, Nat.mul_add] at hneed ⊢
      omega

/-! ## Maintenance -/

theorem relocate_space (w : Wal) (seg : Nat) {id : JobId} (hid : id ∈ w.jobs) (j : JobEntry)
    (bytes : Bytes) : (w.relocate seg id j bytes).space = w.space := by
  have hmod := Keeps.of_files (modSeg_files
    ({ w with buf := w.buf ++ bytes }.anchor id (w.placed j.putLen)) seg
    (f := fun s => { s with anchors := s.anchors - 1, puts := s.puts.drop 1 }) fun _ => rfl) rfl rfl
  have hsize : (w.relocate seg id j bytes).jobs.size = w.jobs.size := by
    show (w.jobs.insert id _).size = _
    rw [ExtTreeMap.size_insert, if_pos (ExtTreeMap.contains_iff_mem.2 hid)]
  calc (w.relocate seg id j bytes).space
      = { w.space with live := (w.relocate seg id j bytes).jobs.size } :=
        congrArg (fun s => { s with live := (w.relocate seg id j bytes).jobs.size }) hmod
    _ = w.space := by rw [hsize]; rfl

/-- There was room made for the copy and a whole segment, so it fits even where it
extends a fresh one. -/
theorem move_upholds (crc : Bytes → UInt32) (hw : w.Roomy) (hok : w.failure = none) {id : JobId}
    (hid : id ∈ w.jobs) {j : JobEntry} (hroom : w.hasRoom j.putLen true = true) (seg : Seg) :
    Upholds w (w.move crc seg id j) := by
  rcases move_cases crc w seg id j with ⟨e, heq⟩ | ⟨bytes, hlen, heq⟩ <;> rw [heq]
  · exact .fail hw e
  obtain ⟨s', hroll, hsound⟩ := Room.Space.place_spare hw.sound
    (Nat.lt_of_le_of_lt (Nat.zero_le _) hw.unit_lt) (of_decide_eq_true hroom)
  obtain ⟨hlive, hputs, hbytes⟩ := Room.Space.roll_promises hroll
  rw [place_andThen]
  obtain ⟨hjobs, ⟨hfailed, hspace⟩ | ⟨hfine, hspace⟩⟩ := rolled_books hw hok hroll
  · rw [Wal.andThen, if_pos (Option.isSome_iff_ne_none.mpr hfailed)]
    exact .of_space hw (rolled_run w _) hspace
  rw [andThen_eq hfine]
  have hid' : id ∈ ((w.rolled j.putLen).bump j.putLen).jobs := by
    rw [bump_eq]
    exact hjobs.symm ▸ hid
  have hmoved := relocate_space _ seg.index hid' j bytes
  rw [bump_space, hspace] at hmoved
  refine ⟨hw.run ((rolled_run w _).trans (relocate_run seg.index id j hlen)) ?_,
    (congrArg Room.Space.pending hmoved).trans hputs,
    (congrArg Room.Space.bytes hmoved).trans hbytes⟩
  rw [hmoved]
  exact hsound.mono rfl rfl rfl (Nat.add_le_add_right (Nat.le_of_eq hlive) _) (Nat.le_refl _)

theorem moveOne_upholds (crc : Bytes → UInt32) (hw : w.Roomy) (hok : w.failure = none)
    (start : Nat) : Upholds w (w.moveOne crc start).1 ∧
      ((w.moveOne crc start).2 ≠ none → (w.moveOne crc start).1.failure = none) := by
  rw [moveOne]
  split
  · exact ⟨.refl hw, fun h => absurd rfl h⟩
  split
  · exact ⟨.refl hw, fun h => absurd rfl h⟩
  next seg _ =>
    have hputs : (w.setPuts seg.index (w.freshPuts seg.index seg.puts)).files = w.files :=
      modSeg_files w seg.index fun _ => rfl
    have hup : Upholds w (w.setPuts seg.index (w.freshPuts seg.index seg.puts)) :=
      .of_keeps hw (.account hputs) (.of_files hputs rfl rfl) (Nat.le_refl _)
    dsimp only
    split
    · exact ⟨hup.trans (.fail hup.roomy _), fun h => absurd rfl h⟩
    split
    · exact ⟨hup, fun h => absurd rfl h⟩
    next id _ _ _ j hj =>
      obtain ⟨hgrown, hroom⟩ := ensureRoom_grown
        (w.setPuts seg.index (w.freshPuts seg.index seg.puts)) j.putLen true
      have hup' := hup.trans (.of_grown hup.roomy (ensureRoom_run _ _ _) hgrown)
      split
      · exact ⟨hup', fun h => absurd rfl h⟩
      next hmade =>
        have hid : id ∈ w.jobs := ExtTreeMap.isSome_getElem?_iff_mem.1 (by
          rw [show w.jobs[id]? = some j from hj]
          rfl)
        refine ⟨hup'.trans (move_upholds crc hup'.roomy (hgrown.failure.trans hok)
          (hgrown.jobs.symm ▸ hid) (hroom (by simpa using hmade)) seg), fun h => ?_⟩
        split at h
        · exact absurd rfl h
        next hfine => simpa using hfine

theorem moveLoop_upholds (crc : Bytes → UInt32) (moves start : Nat) (hw : w.Roomy)
    (hok : w.failure = none) : Upholds w (moveLoop crc moves start w) := by
  induction moves generalizing start w with
  | zero => exact .refl hw
  | succ moves ih =>
    obtain ⟨hup, hgoes⟩ := moveOne_upholds crc hw hok start
    rw [moveLoop]
    split
    next w' heq => rwa [heq] at hup
    next w' start' heq =>
      rw [heq] at hup hgoes
      exact hup.trans (ih start' hup.roomy (hgoes (by simp)))

theorem gc_upholds (hw : w.Roomy) : Upholds w w.gc := by
  have hdrop (gone : List Seg) (w : Wal) :
      (gone.foldl (fun w _ => w.dropFront) w).space = w.space := by
    induction gone generalizing w with
    | nil => rfl
    | cons s gone ih =>
      rw [List.foldl_cons, ih, dropFront]
      split <;> rfl
  refine .of_space hw (gc_run w) ?_
  have hsync := (flushSync_books w).1
  rw [gc]
  dsimp only
  split
  · rfl
  rw [andThen]
  split
  · exact hsync
  split
  · exact (hdrop _ w.flushSync).trans hsync
  · exact (hdrop _ w.flushSync).trans hsync

theorem maintain_upholds (crc : Bytes → UInt32) (hw : w.Roomy) (hok : w.failure = none) :
    Upholds w (w.maintain crc) := by
  rw [maintain]
  split
  · have hmoved := moveLoop_upholds crc (w.ratio - 1) 0 hw hok
    have hflushed := hmoved.andThen fun _ =>
      .of_space hmoved.roomy (.one (.flush _)) (flush_books _).1
    exact hflushed.andThen fun _ => gc_upholds hflushed.roomy
  · exact (Upholds.refl hw).andThen fun _ => gc_upholds hw

theorem syncIfDue_eq (w : Wal) (now : Nanos) :
    w.syncIfDue now = w ∨ w.syncIfDue now = { w.syncCur with lastSync := some now } := by
  rw [syncIfDue]
  split
  · split
    · exact .inl rfl
    split
    · exact .inl rfl
    · exact .inr rfl
  · exact .inl rfl

end Wal

/-! ## Opening -/

namespace Wal

variable {w w' : Wal}

/-- A log that starts with a fresh segment, once it has the room it needs. -/
theorem ensureRoom_first (h : (w.ensureRoom 0 false).2 = true) (hge : block ≤ w.segSize)
    (hmax : w.segSize ≤ maxFileSize) (hspares : w.spares = [])
    (hcurrent : w.current.extent.Blank w.segSize) : Upholds w (w.ensureRoom 0 false).1 := by
  obtain ⟨hgrown, hroom⟩ := ensureRoom_grown w 0 false
  obtain ⟨hsegs, hspared⟩ := (ensureRoom_run w 0 false).spared
  obtain ⟨k, hk⟩ := hgrown.space
  obtain ⟨hsize, hwritten⟩ : w.current.size = w.segSize ∧ w.current.written = segHeaderLen :=
    hcurrent
  have hcap : segHeaderLen + (w.ensureRoom 0 false).1.capacity = w.segSize := by
    rw [capacity, hsegs]
    simp only [block, segHeaderLen] at hge ⊢
    omega
  refine ⟨⟨?_, ?_, hspared ?_, of_decide_eq_true (hroom h), ?_, ?_, ?_⟩,
    congrArg Room.Space.pending hk, congrArg Room.Space.bytes hk⟩
  · rw [hsegs]
    exact hge
  · rw [hsegs]
    exact hmax
  · rw [Spared, files, hspares]
    exact fun s hs => absurd hs List.not_mem_nil
  all_goals rw [hk]
  · exact Nat.le_of_eq hwritten.symm
  · show w.current.written ≤ w.current.size
    omega
  intro _
  rw [hcap]
  exact hsize

theorem start_roomy {recovery recovery' : Recovery}
    (h : (w.start recovery).result = .ok (w', recovery')) (hge : block ≤ w.segSize)
    (hmax : w.segSize ≤ maxFileSize) (hspares : w.spares = []) :
    w'.Roomy ∧ w'.pendingPuts = w.pendingPuts ∧ w'.pendingBytes = w.pendingBytes := by
  obtain ⟨current, spares, halloc, hcons, hmade, -, rfl⟩ := start_ok h
  rcases allocate_cases w with ⟨e, heq⟩ | ⟨-, heq | heq⟩
  all_goals rw [heq] at halloc hcons hmade ⊢
  · cases halloc
  · cases halloc
  simp only [hspares, List.nil_append] at hcons
  cases hcons
  have hfirst := ensureRoom_first hmade hge hmax rfl ⟨rfl, rfl⟩
  have hgc := gc_upholds hfirst.roomy
  exact ⟨hgc.roomy, hgc.pendingPuts.trans hfirst.pendingPuts,
    hgc.pendingBytes.trans hfirst.pendingBytes⟩

end Wal

theorem openWal_roomy {crc : Bytes → UInt32} {opts : WalOptions} {disk : Disk} {w : Wal}
    {recovery : Recovery} (h : (openWal crc opts disk).result = .ok (w, recovery)) :
    w.Roomy ∧ w.pendingPuts = 0 ∧ w.pendingBytes = 0 := by
  obtain ⟨segSize, sc, d, recovery', hsize, -, hstart⟩ := Wal.openWal_ok h
  obtain ⟨hge, hmax⟩ := segmentSize_bounds hsize
  exact Wal.start_roomy hstart hge hmax rfl

/-! ## Whole runs -/

open Wal

/-- The batch has only puts with a reservation and deletes of live jobs; `granted` are
the reserved lengths, and each put has one of its own. -/
structure Announced (w : Wal) (granted : List Nat) (entries : List JournalEntry) : Prop where
  live : deletesLive w.jobs.contains entries = true
  granted : ∃ rs : List Nat, rs.Subperm granted ∧ List.Forall₂ (· ≤ ·) (putLens entries) rs

/-- A log in use: `granted` are the lengths reserved since the last append. -/
inductive Held (crc : Bytes → UInt32) : Wal → List Nat → Prop where
  | opened {opts : WalOptions} {disk : Disk} {w : Wal} {recovery : Recovery}
    (h : (openWal crc opts disk).result = .ok (w, recovery)) : Held crc w []
  | reserved {w w' : Wal} {granted : List Nat} {tubeLen bodyLen : Nat} (h : Held crc w granted)
    (hput : w.reservePut tubeLen bodyLen = (w', true)) :
    Held crc w' (putRecLen tubeLen bodyLen :: granted)
  | refused {w w' : Wal} {granted : List Nat} {tubeLen bodyLen : Nat} (h : Held crc w granted)
    (hput : w.reservePut tubeLen bodyLen = (w', false)) : Held crc w' granted
  | appended {w : Wal} {granted : List Nat} {entries : List JournalEntry} (h : Held crc w granted)
    (hok : w.failure = none) (hentries : Announced w granted entries) :
    Held crc (w.append crc entries) []
  | maintained {w : Wal} {granted : List Nat} (h : Held crc w granted) (hok : w.failure = none) :
    Held crc (w.maintain crc) granted
  | collected {w : Wal} {granted : List Nat} (h : Held crc w granted) : Held crc w.gc granted
  | synced {w : Wal} {granted : List Nat} (h : Held crc w granted) (now : Nanos) :
    Held crc (w.syncIfDue now) granted
  /-- The limit is reached or the disk fills up, or there is space again. -/
  | limited {w : Wal} {granted : List Nat} (h : Held crc w granted) (limit : Option Nat)
    (full : Bool) : Held crc { w with limit, disk := { w.disk with full } } granted

/-- What is pending is what was granted, and nothing is buffered between the operations. -/
structure Grants (w : Wal) (granted : List Nat) : Prop where
  roomy : w.Roomy
  pendingPuts : w.pendingPuts = granted.length
  pendingBytes : w.pendingBytes = granted.sum
  fits : ∀ r ∈ granted, r ≤ w.capacity
  laid : w.failure = none → w.Laid ∧ w.buf = []

variable {crc : Bytes → UInt32} {w w' : Wal} {granted : List Nat} {entries : List JournalEntry}
  {recs : List Bytes}

namespace Grants

theorem laid_run (h : Grants w granted) (hrun : Run recs w w')
    (hbuf : w.buf = [] → w'.failure = none → w'.buf = []) (hok : w'.failure = none) :
    w'.Laid ∧ w'.buf = [] := by
  obtain ⟨hlaid, hnone⟩ := h.laid (hrun.ok hok)
  exact ⟨hrun.laid hlaid hok, hbuf hnone hok⟩

theorem upholds (h : Grants w granted) (hrun : Run recs w w') (hup : Upholds w w')
    (hbuf : w.buf = [] → w'.failure = none → w'.buf = []) : Grants w' granted := by
  refine ⟨hup.roomy, hup.pendingPuts.trans h.pendingPuts, hup.pendingBytes.trans h.pendingBytes,
    ?_, h.laid_run hrun hbuf⟩
  rw [hrun.capacity]
  exact h.fits

/-- Neither the clock nor the space left on the disk matters. -/
theorem aside (h : Grants w granted) (lastSync : Option Nanos) (limit : Option Nat) (full : Bool) :
    Grants { w with lastSync, limit, disk := { w.disk with full } } granted := by
  refine ⟨{ h.roomy with }, h.pendingPuts, h.pendingBytes, h.fits, fun hok => ?_⟩
  have hlaid : w.files.Laid := (h.laid hok).1
  exact ⟨{ hlaid with }, (h.laid hok).2⟩

theorem tight (h : Grants w granted) (hok : w.failure = none) : w.Tight :=
  ⟨hok, (h.laid hok).1, (h.laid hok).1.snug (h.laid hok).2⟩

end Grants

theorem exists_mem_ge {xs ys : List Nat} (h : List.Forall₂ (· ≤ ·) xs ys) :
    ∀ x ∈ xs, ∃ y ∈ ys, x ≤ y := by
  induction h with
  | nil => exact nofun
  | cons hle _ ih =>
    refine List.forall_mem_cons.2 ⟨⟨_, List.mem_cons_self, hle⟩, fun x hx => ?_⟩
    obtain ⟨y, hy, hxy⟩ := ih x hx
    exact ⟨y, List.mem_cons_of_mem _ hy, hxy⟩

theorem Grants.covers (h : Grants w granted) (ha : Announced w granted entries) :
    w.Covers entries := by
  obtain ⟨rs, hsub, hall⟩ := ha.granted
  refine ⟨ha.live, ?_, ?_, fun len hlen => ?_⟩
  · rw [hall.length_eq, h.pendingPuts]
    exact hsub.length_le
  · rw [h.pendingBytes]
    obtain ⟨rs', hperm, hsublist⟩ := hsub
    calc (putLens entries).sum ≤ rs.sum := hall.sum_le_sum
      _ = rs'.sum := hperm.symm.sum_eq
      _ ≤ granted.sum := hsublist.sum_le_sum fun _ _ => Nat.zero_le _
  · obtain ⟨r, hr, hle⟩ := exists_mem_ge hall len hlen
    exact hle.trans (h.fits r (hsub.subset hr))

theorem Held.grants (h : Held crc w granted) : Grants w granted := by
  induction h with
  | opened h =>
    obtain ⟨hroomy, hputs, hbytes⟩ := openWal_roomy h
    exact ⟨hroomy, hputs, hbytes, nofun, fun _ => openWal_laid h⟩
  | @reserved w w' granted tubeLen bodyLen _ hput ih =>
    obtain ⟨hroomy, hlen, hputs, hbytes⟩ := reservePut_roomy ih.roomy hput
    have hrun := reservePut_run w tubeLen bodyLen
    rw [hput] at hrun
    refine ⟨hroomy, ?_, ?_, ?_, ih.laid_run hrun fun hbuf _ => hrun.buf_nil hbuf⟩
    · rw [hputs, ih.pendingPuts, List.length_cons]
    · rw [hbytes, ih.pendingBytes, List.sum_cons, Nat.add_comm]
    · rw [hrun.capacity]
      exact List.forall_mem_cons.2 ⟨hlen, ih.fits⟩
  | @refused w w' granted tubeLen bodyLen _ hput ih =>
    obtain ⟨hroomy, hputs, hbytes⟩ := reservePut_roomy ih.roomy hput
    have hrun := reservePut_run w tubeLen bodyLen
    rw [hput] at hrun
    exact ih.upholds hrun ⟨hroomy, hputs, hbytes⟩ fun hbuf _ => hrun.buf_nil hbuf
  | appended _ hok hentries ih =>
    obtain ⟨hstays, hroomy, hputs, hbytes⟩ :=
      append_stays _ (ih.covers hentries) (ih.tight hok) ih.roomy
    exact ⟨hroomy, hputs, hbytes, nofun, fun hok' => ⟨hstays.tight.laid, append_buf hok'⟩⟩
  | maintained _ hok ih =>
    obtain ⟨recs, hrun⟩ := maintain_run crc _
    exact ih.upholds hrun (maintain_upholds _ ih.roomy hok) maintain_buf
  | collected _ ih =>
    exact ih.upholds (gc_run _) (gc_upholds ih.roomy) fun hbuf _ => (gc_run _).buf_nil hbuf
  | @synced w granted _ now ih =>
    rcases syncIfDue_eq w now with heq | heq <;> rw [heq]
    · exact ih
    have hsynced : Grants w.syncCur granted :=
      ih.upholds (.one (.sync w)) (.of_space ih.roomy (.one (.sync w)) rfl) fun hbuf _ => hbuf
    exact hsynced.aside (some now) _ _
  | limited _ limit full ih => exact ih.aside _ limit full

end Beanstalkd.Store
