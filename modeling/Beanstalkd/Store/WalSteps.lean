import Mathlib.Data.List.Induction
import Beanstalkd.Store.Wal

/-!
# What an operation of the log consists of

Every operation of the log is a run of a few steps: the buffer is written, the current
segment is synced or left, a segment is allocated or removed, a record is laid at the end of
the current segment, something fails, or only the accounting changes. `Step` says what each
of them needs, and `Run` carries the records that were laid, in their order.

What a step keeps, every operation keeps: which writes are synced (`WalSync`) and how the
files lie under the segments (`WalFiles`) are proved for the steps only.
-/

open Std

namespace Beanstalkd.Store

open File

/-- A file operation that neither writes records nor syncs a segment. -/
def FileOp.Plain : FileOp → Prop
  | .write .. => False
  | .sync _ => False
  | _ => True

/-- The bytes of a record write. -/
def FileOp.data : FileOp → Bytes
  | .write _ _ data _ => data
  | _ => []

theorem Disk.perform_foldl_ops (d : Disk) (ops : List FileOp) :
    (ops.foldl Disk.perform d).ops = d.ops ++ ops := by
  induction ops generalizing d with
  | nil => simp
  | cons op ops ih => rw [List.foldl_cons, ih]; simp [Disk.perform]

/-- Where the records of a segment are. -/
structure Extent where
  index : Nat
  size : Nat
  written : Nat

def Seg.extent (s : Seg) : Extent := ⟨s.index, s.size, s.written⟩

/-- A log without its accounting of jobs and space. -/
structure Files where
  policy : SyncPolicy
  segSize : Nat
  nextIndex : Nat
  closed : List Extent
  current : Extent
  spares : List Extent
  buf : Bytes
  bufStart : Nat
  unsynced : Bool
  lastSync : Option Nanos
  recordsWritten : Nat
  disk : Disk
  failure : Option WalError

namespace Wal

variable {w w' w'' : Wal} {crc : Bytes → UInt32} {entries : List JournalEntry} {e : JournalEntry}
  {recs more : List Bytes}

def files (w : Wal) : Files where
  policy := w.policy
  segSize := w.segSize
  nextIndex := w.nextIndex
  closed := w.closed.map Seg.extent
  current := w.current.extent
  spares := w.spares.map Seg.extent
  buf := w.buf
  bufStart := w.bufStart
  unsynced := w.unsynced
  lastSync := w.lastSync
  recordsWritten := w.recordsWritten
  disk := w.disk
  failure := w.failure

/-- A record at the end of the current segment. -/
def lay (w : Wal) (bytes : Bytes) : Wal :=
  { w.bump bytes.length with buf := w.buf ++ bytes, recordsWritten := w.recordsWritten + 1 }

theorem bump_eq (w : Wal) (len : Nat) : w.bump len = { w with
    diskTotal := w.diskTotal + (w.current.written + len - w.current.size)
    current := { w.current with
      written := w.current.written + len
      size := max w.current.size (w.current.written + len) } } := by
  rw [bump]
  split
  next hover => simp only [Nat.max_eq_right (Nat.le_of_lt hover)]
  next hfits =>
    simp only [Nat.max_eq_left (Nat.le_of_not_lt hfits),
      Nat.sub_eq_zero_of_le (Nat.le_of_not_lt hfits), Nat.add_zero]

inductive Step : List Bytes → Wal → Wal → Prop where
  | account {w w' : Wal} (h : w'.files = w.files) : Step [] w w'
  | fail (w : Wal) (e : WalError) : Step [] w (w.fail e)
  | flush (w : Wal) : Step [] w w.flush
  | sync (w : Wal) : Step [] w w.syncCur
  | allocate (w : Wal) : Step [] w w.allocate.1
  /-- The current segment is left when it is written, and synced if the policy syncs. -/
  | advance {w : Wal} (hbuf : w.buf = []) (hsync : w.policy ≠ .never → w.unsynced = false) :
    Step [] w w.advance
  | lay (w : Wal) (bytes : Bytes) : Step [bytes] w (w.lay bytes)
  /-- A record got its place and could not be encoded. -/
  | stray (w : Wal) (len : Nat) (e : WalError) : Step [] w ((w.bump len).fail e)
  | drop (w : Wal) : Step [] w w.dropFront
  | syncDir (w : Wal) : Step [] w (w.perform .syncDir)

inductive Run : List Bytes → Wal → Wal → Prop where
  | refl (w : Wal) : Run [] w w
  | step {recs more : List Bytes} {w w' w'' : Wal} (h : Run recs w w')
    (hstep : Step more w' w'') : Run (recs ++ more) w w''

namespace Run

theorem one (h : Step recs w w') : Run recs w w' := .step (.refl w) h

theorem account (h : w'.files = w.files) : Run [] w w' := one (.account h)

theorem trans (h : Run recs w w') (h' : Run more w' w'') : Run (recs ++ more) w w'' := by
  induction h' with
  | refl => rwa [List.append_nil]
  | step _ hstep ih =>
    rw [← List.append_assoc]
    exact .step (ih h) hstep

theorem andAccount (h : Run recs w w') (hfiles : w''.files = w'.files) : Run recs w w'' := by
  simpa using h.trans (account hfiles)

/-- A run that lays nothing, and then goes on unless something failed. -/
theorem andThen {f : Wal → Wal} (h : Run [] w w')
    (hf : w'.failure = none → Run [] w' (f w')) : Run [] w (w'.andThen f) := by
  rw [Wal.andThen]
  split
  · exact h
  next hok => exact h.trans (hf (by simpa using hok))

/-- What every step keeps, every run keeps. -/
theorem inv {P : Wal → Prop} (hstep : ∀ {recs w w'}, Step recs w w' → P w → P w')
    (h : Run recs w w') (hw : P w) : P w' := by
  induction h with
  | refl => exact hw
  | step _ hs ih => exact hstep hs (ih hw)

end Run

/-- A run that lays just these records, unless it fails. -/
def Lays (recs : List Bytes) (w w' : Wal) : Prop :=
  ∃ laid, Run laid w w' ∧ (w'.failure = none → laid = recs)

namespace Lays

theorem of_run (h : Run recs w w') : Lays recs w w' := ⟨recs, h, fun _ => rfl⟩

theorem andThen {f : Wal → Wal} (h : Lays recs w w')
    (hf : w'.failure = none → Lays more w' (f w')) : Lays (recs ++ more) w (w'.andThen f) := by
  obtain ⟨laid, hrun, hlaid⟩ := h
  rw [Wal.andThen]
  split
  next hfailed => exact ⟨laid, hrun, fun hok => by simp [hok] at hfailed⟩
  next hok =>
    have hnone : w'.failure = none := by simpa using hok
    obtain ⟨laid', hrun', hlaid'⟩ := hf hnone
    exact ⟨laid ++ laid', hrun.trans hrun', fun hok' => by rw [hlaid hnone, hlaid' hok']⟩

end Lays

theorem andThen_ok {f : Wal → Wal} (h : (w.andThen f).failure = none) :
    w.failure = none ∧ (f w).failure = none ∧ w.andThen f = f w := by
  rw [andThen] at h ⊢
  split at h
  next hf => simp [h] at hf
  next hf => exact ⟨by simpa using hf, h, if_neg hf⟩

theorem andThen_eq {f : Wal → Wal} (h : w.failure = none) : w.andThen f = f w := by
  rw [andThen, if_neg (by simp [h])]

/-! ## Writing -/

/-- The buffer is written, or there is no space for it. -/
theorem flush_cases (w : Wal) : (w.buf = [] ∧ w.flush = w) ∨
    (w.disk.full = true ∧ w.disk.fileLen w.current.index < w.bufStart + w.buf.length ∧
      w.flush = w.fail noSpace) ∨
    (w.buf ≠ [] ∧ w.flush = { w with
      disk := w.disk.perform (.write w.current.index w.bufStart w.buf w.queued)
      bufStart := w.bufStart + w.buf.length, buf := [], queued := [], unsynced := true }) := by
  rw [flush]
  split
  next h => exact .inl ⟨by simpa using h, rfl⟩
  next h =>
    split
    next hfull => exact .inr (.inl ⟨hfull.1, hfull.2, rfl⟩)
    · exact .inr (.inr ⟨by simpa using h, rfl⟩)

theorem flush_buf (h : w.flush.failure = none) : w.flush.buf = [] := by
  rcases flush_cases w with ⟨hbuf, heq⟩ | ⟨-, -, heq⟩ | ⟨-, heq⟩
  · rwa [heq]
  · rw [heq] at h
    cases h
  · rw [heq]

theorem syncIfUnsynced_run (w : Wal) : Run [] w w.syncIfUnsynced := by
  rw [syncIfUnsynced]
  split
  · exact .one (.sync w)
  · exact .refl w

theorem syncIfUnsynced_buf (w : Wal) : w.syncIfUnsynced.buf = w.buf := by
  rw [syncIfUnsynced]
  split <;> rfl

theorem syncIfUnsynced_unsynced (w : Wal) (hp : w.syncIfUnsynced.policy ≠ .never) :
    w.syncIfUnsynced.unsynced = false := by
  rw [syncIfUnsynced] at hp ⊢
  split at hp
  next h => rw [if_pos h]; rfl
  next h =>
    rw [if_neg h]
    simpa [hp] using h

theorem flushSync_run (w : Wal) : Run [] w w.flushSync :=
  (Run.one (.flush w)).andThen fun _ => syncIfUnsynced_run _

theorem perform_foldl (w : Wal) (ops : List FileOp) :
    ops.foldl perform w = { w with disk := ops.foldl Disk.perform w.disk } := by
  induction ops generalizing w with
  | nil => rfl
  | cons op ops ih => rw [List.foldl_cons, ih]; rfl

/-- The file operations of a new spare. -/
def allocation (w : Wal) : List FileOp :=
  preallocate w.nextIndex w.segSize ++ if w.policy = .never then [] else [.syncDir]

/-- A segment is refused, or its file finds no space, or there is a new spare. -/
theorem allocate_cases (w : Wal) : (∃ e, w.allocate = (w, some e)) ∨
    w.disk.dir.contains w.nextIndex = false ∧
      (w.allocate = ({ w with
        nextIndex := w.nextIndex + 1
        disk := (w.disk.perform (.create w.nextIndex)).perform (.remove w.nextIndex) },
          some noSpace) ∨
      w.allocate = ({ w with
        nextIndex := w.nextIndex + 1
        disk := w.allocation.foldl Disk.perform w.disk
        diskTotal := w.diskTotal + w.segSize
        spares := w.spares ++
          [{ index := w.nextIndex, size := w.segSize, written := segHeaderLen }] }, none)) := by
  unfold allocate
  split
  · exact .inl ⟨_, rfl⟩
  split
  · exact .inl ⟨_, rfl⟩
  split
  · exact .inl ⟨_, rfl⟩
  next hfresh =>
    refine .inr ⟨Bool.eq_false_iff.2 hfresh, ?_⟩
    dsimp only
    split
    · exact .inl rfl
    refine .inr ?_
    simp only [perform_foldl, allocation]
    by_cases hp : w.policy = .never
    · simp [hp]
    · simp [hp, perform]

/-- What `allocate` leaves alone, whether it succeeds or not. -/
theorem allocate_frame (w : Wal) : w.allocate.1.policy = w.policy ∧
    w.allocate.1.unsynced = w.unsynced ∧ w.allocate.1.buf = w.buf := by
  rcases allocate_cases w with ⟨e, heq⟩ | ⟨-, heq | heq⟩ <;> rw [heq] <;> exact ⟨rfl, rfl, rfl⟩

theorem roll_run (w : Wal) : Run [] w w.roll := by
  refine (flushSync_run w).andThen fun hok => ?_
  obtain ⟨hflush, -, heq⟩ := andThen_ok hok
  rw [flushSync, heq]
  have hbuf : w.flush.syncIfUnsynced.buf = [] := (syncIfUnsynced_buf _).trans (flush_buf hflush)
  have hadvance (u : Wal) (hb : u.buf = []) (hs : u.policy ≠ .never → u.unsynced = false) :
      Run [] u u.advance := .one (.advance hb hs)
  split
  · obtain ⟨hpolicy, hunsynced, hbuf'⟩ := allocate_frame w.flush.syncIfUnsynced
    have halloc : Run [] w.flush.syncIfUnsynced w.flush.syncIfUnsynced.allocate.1 :=
      .one (.allocate _)
    split
    next e ha => exact (ha ▸ halloc).trans (.one (.fail _ e))
    next ha =>
      rw [ha] at halloc hpolicy hunsynced hbuf'
      refine halloc.trans (hadvance _ (hbuf'.trans hbuf) fun hp => ?_)
      rw [hunsynced]
      exact syncIfUnsynced_unsynced _ (hpolicy ▸ hp)
  · exact hadvance _ hbuf (syncIfUnsynced_unsynced _)

/-- Before a record is placed: the log rolls over if it does not fit. -/
def rolled (w : Wal) (len : Nat) : Wal :=
  if w.current.written > segHeaderLen ∧ w.current.written + len > w.current.size then w.roll else w

theorem rolled_run (w : Wal) (len : Nat) : Run [] w (w.rolled len) := by
  rw [rolled]
  split
  · exact roll_run w
  · exact .refl w

/-- A record is placed, and what follows is done with it. -/
theorem place_andThen (w : Wal) (len : Nat) (f : Wal → Wal) :
    (w.place len).andThen f = (w.rolled len).andThen fun u => f (u.bump len) := by
  rw [show w.place len = (w.rolled len).andThen (·.bump len) from rfl]
  by_cases hok : (w.rolled len).failure = none
  · rw [andThen_eq hok, andThen_eq hok, andThen_eq (by rw [bump_eq]; exact hok)]
  · have hfailed : (w.rolled len).failure.isSome = true := Option.isSome_iff_ne_none.mpr hok
    simp only [andThen, if_pos hfailed]

theorem place_lays {f : Wal → Wal} {len : Nat}
    (hf : ∀ u : Wal, u.failure = none → Lays recs u (f (u.bump len))) :
    Lays recs w ((w.place len).andThen f) := by
  rw [place_andThen]
  exact (Lays.of_run (rolled_run w len)).andThen (hf _)

/-! ## The operations -/

theorem modSeg_files (w : Wal) (index : Nat) {f : Seg → Seg} (hf : ∀ s, (f s).extent = s.extent) :
    (w.modSeg index f).files = w.files := by
  have hg : ∀ s : Seg, (if s.index = index then f s else s).extent = s.extent := by
    intro s
    split
    · exact hf s
    · rfl
  have hmap (l : List Seg) :
      (l.map fun s => if s.index = index then f s else s).map Seg.extent = l.map Seg.extent := by
    rw [List.map_map]
    exact List.map_congr_left fun s _ => hg s
  simp only [modSeg, files, hmap, hg]

theorem index_files (w : Wal) (e : JournalEntry) : (w.index e).files = w.files := by
  cases e with
  | put record tube body =>
    simp only [index, indexPut]
    split
    · rfl
    · exact modSeg_files _ _ fun _ => rfl
  | update record =>
    simp only [index, indexUpdate]
    split <;> rfl
  | delete id =>
    simp only [index, indexDelete]
    split
    · rfl
    · exact modSeg_files _ _ fun _ => rfl

theorem encode_ok {bytes : Bytes} (h : encode crc e = .ok bytes) :
    bytes = frame crc (payload e) := by
  rw [encode] at h
  split at h
  · cases h
    rfl
  · cases h

theorem files_counted (h : w'.files = w.files) :
    { w' with recordsWritten := w'.recordsWritten + 1 }.files =
      { w with recordsWritten := w.recordsWritten + 1 }.files := by
  simp only [files, Files.mk.injEq] at h ⊢
  simp only [h, and_self]

theorem enter_eq {bytes : Bytes} (hok : w.failure = none) (hbytes : encode crc e = .ok bytes) :
    ∃ u : Wal, u = { w with buf := w.buf ++ bytes, queued := w.queued ++ [e] } ∧
      w.enter crc e = { u.index e with recordsWritten := (u.index e).recordsWritten + 1 } := by
  refine ⟨_, rfl, ?_⟩
  rw [enter, push, hbytes, andThen, if_neg (by simp [hok])]

theorem enter_files {bytes : Bytes} (hok : w.failure = none) (hbytes : encode crc e = .ok bytes) :
    ((w.bump (recLen e)).enter crc e).files = (w.lay bytes).files := by
  have hlen : bytes.length = recLen e := by rw [encode_ok hbytes, length_frame_payload]
  obtain ⟨u, hu, heq⟩ := enter_eq (w := w.bump (recLen e)) (by rw [bump_eq]; exact hok) hbytes
  rw [heq, files_counted (index_files u e), hu, lay, hlen, bump_eq]
  rfl

theorem enter_lays (crc : Bytes → UInt32) (e : JournalEntry) (hok : w.failure = none) :
    Lays [frame crc (payload e)] w ((w.bump (recLen e)).enter crc e) := by
  cases hbytes : encode crc e with
  | error what =>
    rw [enter, push, hbytes]
    exact ⟨[], .one (.stray w (recLen e) (.io what)), fun h => by cases h⟩
  | ok bytes =>
    rw [← encode_ok hbytes]
    exact .of_run ((Run.one (.lay w bytes)).andAccount (enter_files hok hbytes))

theorem appendOne_lays (crc : Bytes → UInt32) (w : Wal) (e : JournalEntry) :
    Lays [frame crc (payload e)] w (w.appendOne crc e) := by
  have hrest (w : Wal) :
      Lays [frame crc (payload e)] w ((w.place (recLen e)).andThen (·.enter crc e)) :=
    place_lays fun u hok => enter_lays crc e hok
  cases e with
  | put record tube body =>
    obtain ⟨laid, hrun, hlaid⟩ := hrest (w.unreserve (recLen (.put record tube body)))
    refine ⟨laid, (Run.account ?_).trans hrun, hlaid⟩
    rw [unreserve]
    split <;> rfl
  | update | delete => exact hrest w

theorem appends_lays (crc : Bytes → UInt32) (w : Wal) (entries : List JournalEntry) :
    Lays (entries.map fun e => frame crc (payload e)) w
      (entries.foldl (fun w e => w.andThen (·.appendOne crc e)) w) := by
  -- from the end of the list, since a failure stays
  induction entries using List.reverseRecOn with
  | nil => exact .of_run (.refl w)
  | append_singleton entries e ih =>
    rw [List.foldl_append, List.map_append]
    exact ih.andThen (f := (·.appendOne crc e)) fun _ => appendOne_lays crc _ e

theorem settle_run (w : Wal) : Run [] w w.settle := by
  refine ((Run.account ?_).trans (.one (.flush _))).andThen fun _ => ?_
  · rfl
  split
  · exact .one (.sync _)
  · exact .refl _

/-- A successful `append` lays the records of its entries, in their order. -/
theorem append_lays (crc : Bytes → UInt32) (w : Wal) (entries : List JournalEntry) :
    Lays (entries.map fun e => frame crc (payload e)) w (w.append crc entries) := by
  have h := (appends_lays crc w entries).andThen fun _ => .of_run (settle_run _)
  rwa [List.append_nil] at h

theorem settle_buf (h : w.settle.failure = none) : w.settle.buf = [] := by
  unfold settle at h ⊢
  obtain ⟨hflush, -, heq⟩ := andThen_ok h
  have hbuf := flush_buf hflush
  rw [heq]
  split <;> exact hbuf

theorem append_buf (h : (w.append crc entries).failure = none) :
    (w.append crc entries).buf = [] := by
  obtain ⟨-, hsettle, heq⟩ := andThen_ok h
  rw [append, heq]
  exact settle_buf hsettle

theorem roomLoop_run (n : Nat) (spare : Bool) (fuel : Nat) (w : Wal) :
    Run [] w (roomLoop n spare fuel w).1 := by
  induction fuel generalizing w with
  | zero => exact .refl w
  | succ fuel ih =>
    have halloc : Run [] w w.allocate.1 := .one (.allocate w)
    rw [roomLoop]
    split
    · exact .refl w
    split
    next ha => rwa [ha] at halloc
    next w' ha =>
      rw [ha] at halloc
      exact halloc.trans (ih w')

theorem ensureRoom_run (w : Wal) (n : Nat) (spare : Bool) : Run [] w (w.ensureRoom n spare).1 :=
  roomLoop_run n spare _ w

theorem reservePut_run (w : Wal) (tubeLen bodyLen : Nat) :
    Run [] w (w.reservePut tubeLen bodyLen).1 := by
  rw [reservePut]
  split
  · exact .refl w
  have hpending : Run [] w { w with
      pendingBytes := w.pendingBytes + putRecLen tubeLen bodyLen } := .account rfl
  have h := hpending.trans (ensureRoom_run _ deleteRecLen true)
  dsimp only
  split <;> exact h.trans (.account rfl)

/-! ## Compaction -/

theorem relocate_run (seg : Nat) (id : JobId) (j : JobEntry) {bytes : Bytes}
    (hlen : bytes.length = j.putLen) :
    Run [bytes] w ((w.bump j.putLen).relocate seg id j bytes) := by
  refine (Run.one (.lay w bytes)).andAccount ?_
  rw [lay, hlen, bump_eq]
  exact (files_counted (modSeg_files _ seg
    (f := fun s => { s with anchors := s.anchors - 1, puts := s.puts.drop 1 })
      fun _ => rfl)).trans rfl

/-- The old record is read, and its copy is as long. -/
theorem move_cases (crc : Bytes → UInt32) (w : Wal) (seg : Seg) (id : JobId) (j : JobEntry) :
    (∃ e, w.move crc seg id j = w.fail e) ∨ ∃ bytes, bytes.length = j.putLen ∧
      w.move crc seg id j = (w.place j.putLen).andThen (·.relocate seg.index id j bytes) := by
  rw [move]
  split
  · exact .inl ⟨_, rfl⟩
  next bytes hread =>
    split
    next len hparse =>
      split
      next hlen =>
        subst hlen
        obtain ⟨file, -, hfile⟩ := Option.bind_eq_some_iff.mp hread
        exact .inr ⟨_, by
          rw [length_restampPut crc j.record (length_of_parse_put hparse), length_readAt hfile],
            rfl⟩
      · exact .inl ⟨_, rfl⟩
    · exact .inl ⟨_, rfl⟩

theorem move_run (crc : Bytes → UInt32) (w : Wal) (seg : Seg) (id : JobId) (j : JobEntry) :
    ∃ recs, Run recs w (w.move crc seg id j) := by
  rcases move_cases crc w seg id j with ⟨e, heq⟩ | ⟨bytes, hlen, heq⟩ <;> rw [heq]
  · exact ⟨[], .one (.fail w e)⟩
  obtain ⟨laid, hrun, -⟩ := place_lays (f := (·.relocate seg.index id j bytes))
    fun u _ => .of_run (relocate_run seg.index id j hlen)
  exact ⟨laid, hrun⟩

theorem moveOne_run (crc : Bytes → UInt32) (w : Wal) (start : Nat) :
    ∃ recs, Run recs w (w.moveOne crc start).1 := by
  rw [moveOne]
  split
  · exact ⟨[], .refl w⟩
  split
  · exact ⟨[], .refl w⟩
  next seg _ =>
    have hputs : Run [] w (w.setPuts seg.index (w.freshPuts seg.index seg.puts)) :=
      .account (modSeg_files w seg.index fun _ => rfl)
    dsimp only
    split
    · exact ⟨[], hputs.trans (.one (.fail _ _))⟩
    split
    · exact ⟨[], hputs⟩
    next j _ =>
      have hroom := hputs.trans (ensureRoom_run _ j.putLen true)
      split
      · exact ⟨[], hroom⟩
      obtain ⟨recs, hmove⟩ := move_run crc (ensureRoom
        (w.setPuts seg.index (w.freshPuts seg.index seg.puts)) j.putLen true).1 seg _ j
      exact ⟨recs, hroom.trans hmove⟩

theorem moveLoop_run (crc : Bytes → UInt32) (moves start : Nat) (w : Wal) :
    ∃ recs, Run recs w (moveLoop crc moves start w) := by
  induction moves generalizing start w with
  | zero => exact ⟨[], .refl w⟩
  | succ moves ih =>
    obtain ⟨recs, h⟩ := moveOne_run crc w start
    rw [moveLoop]
    split
    next w' heq => exact ⟨recs, by rwa [heq] at h⟩
    next w' start' heq =>
      rw [heq] at h
      obtain ⟨recs', h'⟩ := ih start' w'
      exact ⟨recs ++ recs', h.trans h'⟩

theorem gc_run (w : Wal) : Run [] w w.gc := by
  have hdrop (gone : List Seg) (w : Wal) : Run [] w (gone.foldl (fun w _ => w.dropFront) w) := by
    induction gone generalizing w with
    | nil => exact .refl w
    | cons s gone ih => exact (Run.one (.drop w)).trans (ih _)
  rw [gc]
  dsimp only
  split
  · exact .refl w
  refine (flushSync_run w).andThen fun _ => ?_
  split
  · exact (hdrop _ _).trans (.one (.syncDir _))
  · exact hdrop _ _

theorem maintain_run (crc : Bytes → UInt32) (w : Wal) : ∃ recs, Run recs w (w.maintain crc) := by
  have hgc (u : Wal) : Run [] u (u.andThen gc) := (Run.refl u).andThen fun _ => gc_run u
  rw [maintain]
  split
  · obtain ⟨recs, hmoves⟩ := moveLoop_run crc (w.ratio - 1) 0 w
    refine ⟨recs, ?_⟩
    have hflush := (Run.refl (moveLoop crc (w.ratio - 1) 0 w)).andThen fun _ => .one (.flush _)
    simpa using (hmoves.trans hflush).trans (hgc _)
  · exact ⟨[], hgc w⟩

/-! ## What a run writes -/

/-- All that was ever written, and what is about to be. -/
def text (w : Wal) : Bytes := w.disk.ops.flatMap FileOp.data ++ w.buf

theorem advance_eq {next : Seg} {spares : List Seg} (h : w.spares = next :: spares) :
    w.advance = { w with
      disk := if w.current.size > w.current.written then
        w.disk.perform (.setLen w.current.index w.current.written) else w.disk
      diskTotal := w.diskTotal - (w.current.size - w.current.written)
      closed := w.closed ++ [{ w.current with size := min w.current.size w.current.written }]
      current := next, spares := spares, bufStart := next.written, unsynced := false } := by
  rw [advance, h]
  dsimp only
  split
  · rfl
  next hfits => rw [Nat.sub_eq_zero_of_le (Nat.le_of_not_lt hfits), Nat.sub_zero]

/-- A step that writes nothing and syncs no segment. The current segment is left only when
nothing of it is unsynced. -/
structure Plain (recs : List Bytes) (w w' : Wal) : Prop where
  policy : w'.policy = w.policy
  lastSync : w'.lastSync = w.lastSync
  counted : w'.recordsWritten = w.recordsWritten + recs.length
  buf : w'.buf = w.buf ++ recs.flatten
  ops : ∃ new, w'.disk.ops = w.disk.ops ++ new ∧ ∀ op ∈ new, op.Plain
  current : w'.current.index = w.current.index ∧ w'.unsynced = w.unsynced ∨
    (w.policy ≠ .never → w.unsynced = false) ∧ w'.unsynced = false

theorem allocation_plain (w : Wal) : ∀ op ∈ w.allocation, op.Plain := by
  intro op hop
  rcases List.mem_append.1 hop with hop | hop
  · simp only [preallocate, List.mem_cons, List.mem_map] at hop
    rcases hop with rfl | rfl | ⟨n, -, rfl⟩ <;> exact trivial
  split at hop
  · cases hop
  · rw [List.mem_singleton.1 hop]
    exact trivial

/-- What of the log decides which writes are synced. -/
def tip (w : Wal) := (w.policy, w.lastSync, w.recordsWritten, w.buf, w.current.index, w.unsynced)

theorem Plain.of_tip (h : w'.tip = w.tip) {l : List FileOp} (hnew : ∀ op ∈ l, op.Plain)
    (hops : w'.disk.ops = w.disk.ops ++ l) : Plain [] w w' := by
  simp only [tip, Prod.mk.injEq] at h
  obtain ⟨hpolicy, hlast, hcount, hbuf, hcurrent, hunsynced⟩ := h
  exact ⟨hpolicy, hlast, hcount, by simpa using hbuf, ⟨l, hops, hnew⟩, .inl ⟨hcurrent, hunsynced⟩⟩

/-- A step is a write, a sync, or plain. -/
theorem Step.plain (h : Step recs w w') :
    recs = [] ∧ (w' = w.flush ∨ w' = w.syncCur) ∨ Plain recs w w' := by
  have hnil (d : Disk) : d.ops = d.ops ++ [] := (List.append_nil _).symm
  cases h with
  | flush => exact .inl ⟨rfl, .inl rfl⟩
  | sync => exact .inl ⟨rfl, .inr rfl⟩
  | account h =>
    refine .inr (.of_tip (l := []) ?_ (by simp) ?_)
    · exact congrArg (fun f : Files => (f.policy, f.lastSync, f.recordsWritten, f.buf,
        f.current.index, f.unsynced)) h
    · rw [List.append_nil]
      exact congrArg (fun f : Files => f.disk.ops) h
  | fail => exact .inr (.of_tip rfl (by simp) (hnil _))
  | allocate =>
    refine .inr ?_
    rcases allocate_cases w with ⟨e, heq⟩ | ⟨-, heq | heq⟩ <;> rw [heq]
    · exact .of_tip rfl (by simp) (hnil _)
    · exact .of_tip (l := [.create w.nextIndex, .remove w.nextIndex]) rfl (by simp [FileOp.Plain])
        (by simp [Disk.perform])
    · exact .of_tip rfl (allocation_plain w) (Disk.perform_foldl_ops ..)
  | advance hbuf hsync =>
    refine .inr ?_
    cases hspares : w.spares with
    | nil =>
      rw [Wal.advance, hspares]
      exact .of_tip rfl (by simp) (hnil _)
    | cons next spares =>
      rw [advance_eq hspares]
      refine ⟨rfl, rfl, rfl, (List.append_nil _).symm, ?_, .inr ⟨hsync, rfl⟩⟩
      split
      · exact ⟨_, rfl, by simp [FileOp.Plain]⟩
      · exact ⟨[], hnil _, by simp⟩
  | lay bytes =>
    rw [Wal.lay, bump_eq]
    exact .inr ⟨rfl, rfl, rfl, by simp, ⟨[], hnil _, by simp⟩, .inl ⟨rfl, rfl⟩⟩
  | stray len e =>
    rw [bump_eq]
    exact .inr (.of_tip rfl (by simp) (hnil _))
  | drop =>
    refine .inr ?_
    rw [dropFront]
    split
    · exact .of_tip rfl (by simp) (hnil _)
    · exact .of_tip rfl (by simp [FileOp.Plain]) rfl
  | syncDir => exact .inr (.of_tip rfl (by simp [FileOp.Plain]) rfl)

theorem plain_data {ops : List FileOp} (h : ∀ op ∈ ops, op.Plain) :
    ops.flatMap FileOp.data = [] := by
  rw [List.flatMap_eq_nil_iff]
  intro op hop
  have hplain := h op hop
  cases op with
  | write => cases hplain
  | _ => rfl

/-- A step writes what is buffered or leaves it there, and counts what it lays. -/
theorem Step.text (h : Step recs w w') : w'.text = w.text ++ recs.flatten ∧
    w'.recordsWritten = w.recordsWritten + recs.length := by
  rcases h.plain with ⟨rfl, rfl | rfl⟩ | hplain
  · rw [List.flatten_nil, List.append_nil]
    rcases flush_cases w with ⟨-, heq⟩ | ⟨-, -, heq⟩ | ⟨-, heq⟩ <;> rw [heq]
    · exact ⟨rfl, rfl⟩
    · exact ⟨rfl, rfl⟩
    · simp [Wal.text, Disk.perform, FileOp.data]
  · simp [Wal.text, syncCur, perform, Disk.perform, FileOp.data]
  · obtain ⟨new, hops, hnew⟩ := hplain.ops
    refine ⟨?_, hplain.counted⟩
    rw [Wal.text, Wal.text, hops, hplain.buf, List.flatMap_append, plain_data hnew, List.append_nil,
      List.append_assoc]

theorem Run.text (h : Run recs w w') : w'.text = w.text ++ recs.flatten ∧
    w'.recordsWritten = w.recordsWritten + recs.length := by
  induction h with
  | refl => simp
  | step _ hstep ih =>
    rw [hstep.text.1, hstep.text.2, ih.1, ih.2]
    simp [Nat.add_assoc]

/-- A run that lays nothing leaves an empty buffer empty. -/
theorem Run.buf_nil (h : Run [] w w') (hbuf : w.buf = []) : w'.buf = [] := by
  have hall {recs : List Bytes} {w w' : Wal} (h : Run recs w w') (hrecs : recs = [])
      (hbuf : w.buf = []) : w'.buf = [] := by
    induction h with
    | refl => exact hbuf
    | step _ hstep ih =>
      obtain ⟨h₁, rfl⟩ := List.append_eq_nil_iff.mp hrecs
      have hmid := ih h₁ hbuf
      rcases hstep.plain with ⟨-, rfl | rfl⟩ | hplain
      · rw [flush, hmid]
        exact hmid
      · exact hmid
      · rw [hplain.buf, hmid]
        rfl
  exact hall h rfl hbuf

theorem maintain_buf (h : w.buf = []) (hok : (w.maintain crc).failure = none) :
    (w.maintain crc).buf = [] := by
  rw [maintain] at hok ⊢
  obtain ⟨hmoved, -, heq⟩ := andThen_ok hok
  rw [heq]
  refine (gc_run _).buf_nil ?_
  by_cases hr : w.ratio ≥ 2
  · rw [if_pos hr] at hmoved ⊢
    obtain ⟨-, hflush, heq'⟩ := andThen_ok hmoved
    rw [heq']
    exact flush_buf hflush
  · rwa [if_neg hr]

/-! ## Opening -/

/-- A log is started with a new current segment, then gets the room it needs and is
collected. -/
theorem start_ok {recovery recovery' : Recovery}
    (h : (w.start recovery).result = .ok (w', recovery')) :
    ∃ current spares, w.allocate.2 = none ∧ w.allocate.1.spares = current :: spares ∧
      (ensureRoom { w.allocate.1 with current, spares } 0 false).2 = true ∧ w'.failure = none ∧
      w' = (ensureRoom { w.allocate.1 with current, spares } 0 false).1.gc := by
  rw [start] at h
  split at h
  · cases h
  next w₁ ha =>
    rw [ha]
    split at h
    · cases h
    next current spares hspares =>
      split at h
      next w₂ ok heq =>
        split at h
        · cases h
        next hok =>
          dsimp only at h
          split at h
          · cases h
          next hfine =>
            injection h with h
            injection h with h _
            subst h
            refine ⟨current, spares, rfl, hspares, ?_, hfine, ?_⟩ <;> rw [heq]
            simpa using hok

theorem openWal_ok {opts : WalOptions} {disk : Disk} {recovery : Recovery}
    (h : (openWal crc opts disk).result = .ok (w, recovery)) :
    ∃ segSize s d recovery', segmentSize opts.fileSize = .ok segSize ∧ scan crc disk.dir = .ok s ∧
      ((ofScan opts segSize s d).start recovery').result = .ok (w, recovery) := by
  rw [openWal] at h
  split at h
  · cases h
  next segSize hsize =>
    split at h
    · cases h
    next s hscan =>
      split at h
      · cases h
      · exact ⟨segSize, s, _, _, hsize, hscan, h⟩

end Wal

end Beanstalkd.Store
