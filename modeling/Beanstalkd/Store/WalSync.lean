import Beanstalkd.Store.WalSteps

/-!
# Which writes are synced

A record write is exposed until its segment is synced. `after` follows the
exposed writes through a list of file operations, and `Writes` says what a log
operation does to them: under a policy that syncs, only writes to the current
segment are exposed, and only while `unsynced` is set. An operation that counts
no new record exposes nothing new.

`syncIfDue` is the one operation that is not of this kind: it is the one that
clears the exposed writes on time.
-/

namespace Beanstalkd.Store

open Wal

/-- The exposed writes, each with its time and its segment, after an operation at
time `t`. -/
def exposed (t : Nanos) (p : List (Nanos × Nat)) : FileOp → List (Nanos × Nat)
  | .write seg .. => p ++ [(t, seg)]
  | .sync seg => p.filter (·.2 ≠ seg)
  | _ => p

def after (t : Nanos) (p : List (Nanos × Nat)) (ops : List FileOp) : List (Nanos × Nat) :=
  ops.foldl (exposed t) p

theorem after_append (t : Nanos) (p : List (Nanos × Nat)) (xs ys : List FileOp) :
    after t p (xs ++ ys) = after t (after t p xs) ys := List.foldl_append

theorem after_plain {ops : List FileOp} (h : ∀ op ∈ ops, op.Plain) (t : Nanos)
    (p : List (Nanos × Nat)) : after t p ops = p := by
  induction ops with
  | nil => rfl
  | cons op ops ih =>
    have hop : exposed t p op = p := by
      cases op with
      | write | sync => exact absurd (h _ List.mem_cons_self) id
      | _ => rfl
    rw [after, List.foldl_cons, hop]
    exact ih fun op' hop' => h op' (List.mem_cons_of_mem _ hop')

namespace Wal

/-- `p` are writes to the current segment, if something is unsynced. -/
def Exposes (w : Wal) (p : List (Nanos × Nat)) : Prop :=
  ∀ x ∈ p, x.2 = w.current.index ∧ w.unsynced = true

/-- What the operations of the log do to the exposed writes. -/
structure Writes (w w' : Wal) : Prop where
  policy : w'.policy = w.policy
  lastSync : w'.lastSync = w.lastSync
  counted : w.recordsWritten ≤ w'.recordsWritten
  exposes : w.policy ≠ .never → ∃ new, w'.disk.ops = w.disk.ops ++ new ∧ ∀ t p, w.Exposes p →
    w'.Exposes (after t p new) ∧ (∀ x ∈ after t p new, x ∈ p ∨ x.1 = t) ∧
      (w'.recordsWritten = w.recordsWritten → w.buf = [] →
        w'.buf = [] ∧ ∀ x ∈ after t p new, x ∈ p)

namespace Writes

variable {w w' w'' : Wal}

theorem refl (w : Wal) : Writes w w :=
  ⟨rfl, rfl, Nat.le_refl _, fun _ => ⟨[], (List.append_nil _).symm, fun _ _ hp =>
    ⟨hp, fun _ hx => .inl hx, fun _ hb => ⟨hb, fun _ hx => hx⟩⟩⟩⟩

theorem trans (h : Writes w w') (h' : Writes w' w'') : Writes w w'' where
  policy := h'.policy.trans h.policy
  lastSync := h'.lastSync.trans h.lastSync
  counted := Nat.le_trans h.counted h'.counted
  exposes hp := by
    obtain ⟨new, hnew, hexp⟩ := h.exposes hp
    obtain ⟨new', hnew', hexp'⟩ := h'.exposes (by rwa [h.policy])
    refine ⟨new ++ new', by rw [hnew', hnew, List.append_assoc], fun t p hw => ?_⟩
    rw [after_append]
    obtain ⟨h1, h2, h3⟩ := hexp t p hw
    obtain ⟨h1', h2', h3'⟩ := hexp' t _ h1
    refine ⟨h1', fun x hx => ?_, fun heq hbuf => ?_⟩
    · rcases h2' x hx with hx | hx
      · exact h2 x hx
      · exact .inr hx
    -- the counter only grows, so neither part moved it
    have hle := h.counted
    have hle' := h'.counted
    obtain ⟨hb, hsub⟩ := h3 (by omega) hbuf
    obtain ⟨hb', hsub'⟩ := h3' (by omega) hb
    exact ⟨hb', fun x hx => hsub x (hsub' x hx)⟩

theorem andThen {f : Wal → Wal} (h : Writes w w') (hf : w'.failure = none → Writes w' (f w')) :
    Writes w (w'.andThen f) := by
  rw [Wal.andThen]
  split
  · exact h
  next hok => exact h.trans (hf (by simpa using hok))

end Writes

variable {w w' : Wal} {crc : Bytes → UInt32} {entries : List JournalEntry} {recs : List Bytes}

theorem flush_writes (w : Wal) : Writes w w.flush := by
  rcases flush_cases w with ⟨-, heq⟩ | ⟨-, -, heq⟩ | ⟨hbuf, heq⟩
  · rw [heq]
    exact .refl w
  · rw [heq]
    exact ⟨rfl, rfl, Nat.le_refl _, ((Writes.refl w).exposes ·)⟩
  rw [heq]
  refine ⟨rfl, rfl, Nat.le_refl _,
    fun _ => ⟨[_], rfl, fun t p hp => ⟨fun x hx => ?_, fun x hx => ?_,
    fun _ h0 => absurd h0 hbuf⟩⟩⟩
  · rcases List.mem_append.1 hx with hx | hx
    · exact ⟨(hp x hx).1, rfl⟩
    · rw [List.mem_singleton.1 hx]
      exact ⟨rfl, rfl⟩
  · rcases List.mem_append.1 hx with hx | hx
    · exact .inl hx
    · exact .inr (by rw [List.mem_singleton.1 hx])

/-- A sync of the current segment leaves nothing exposed. -/
theorem after_sync {p : List (Nanos × Nat)} (hp : w.Exposes p) (t : Nanos) :
    after t p [.sync w.current.index] = [] := by
  show p.filter _ = []
  rw [List.filter_eq_nil_iff]
  intro x hx
  simp [(hp x hx).1]

theorem syncCur_writes (w : Wal) : Writes w w.syncCur := by
  refine ⟨rfl, rfl, Nat.le_refl _, fun _ => ⟨[_], rfl, fun t p hp => ?_⟩⟩
  rw [after_sync hp]
  exact ⟨by simp [Exposes], by simp, fun _ hb => ⟨hb, by simp⟩⟩

theorem Plain.writes (h : Plain recs w w') : Writes w w' := by
  refine ⟨h.policy, h.lastSync, h.counted ▸ Nat.le_add_right .., fun hp => ?_⟩
  obtain ⟨new, hops, hnew⟩ := h.ops
  refine ⟨new, hops, fun t p hw => ?_⟩
  rw [after_plain hnew]
  refine ⟨?_, fun _ hx => .inl hx, fun heq hbuf => ⟨?_, fun _ hx => hx⟩⟩
  · intro x hx
    rcases h.current with ⟨hindex, hunsynced⟩ | ⟨hsynced, -⟩
    · rw [hindex, hunsynced]
      exact hw x hx
    · -- nothing was exposed, so the new current segment starts with nothing exposed
      cases (hsynced hp).symm.trans (hw x hx).2
  · have hnone : recs = [] := List.eq_nil_of_length_eq_zero (by have := h.counted; omega)
    rw [h.buf, hbuf, hnone]
    rfl

theorem Run.writes (h : Run recs w w') : Writes w w' := by
  induction h with
  | refl => exact .refl _
  | step _ hstep ih =>
    refine ih.trans ?_
    rcases hstep.plain with ⟨-, rfl | rfl⟩ | hplain
    · exact flush_writes _
    · exact syncCur_writes _
    · exact hplain.writes

theorem reservePut_writes (w : Wal) (tubeLen bodyLen : Nat) :
    Writes w (w.reservePut tubeLen bodyLen).1 := (reservePut_run w tubeLen bodyLen).writes

theorem reservePut_recordsWritten (w : Wal) (tubeLen bodyLen : Nat) :
    (w.reservePut tubeLen bodyLen).1.recordsWritten = w.recordsWritten :=
  (reservePut_run w tubeLen bodyLen).text.2

theorem append_writes (crc : Bytes → UInt32) (w : Wal) (entries : List JournalEntry) :
    Writes w (w.append crc entries) := by
  obtain ⟨_, hrun, -⟩ := append_lays crc w entries
  exact hrun.writes

theorem maintain_writes (crc : Bytes → UInt32) (w : Wal) : Writes w (w.maintain crc) := by
  obtain ⟨_, hrun⟩ := maintain_run crc w
  exact hrun.writes

/-- A successful `append` of some entries counts records. -/
theorem append_counted (hne : entries ≠ []) (hok : (w.append crc entries).failure = none) :
    w.recordsWritten < (w.append crc entries).recordsWritten := by
  obtain ⟨laid, hrun, hlaid⟩ := append_lays crc w entries
  rw [hrun.text.2, hlaid hok, List.length_map]
  exact Nat.lt_add_of_pos_right (List.length_pos_of_ne_nil hne)

/-! ## Syncing on time -/

/-- Under an interval policy `syncIfDue` leaves the log as it is, because nothing is
unsynced or the last sync is recent, or it syncs. -/
theorem syncIfDue_cases {every : Nanos} (hp : w.policy = .interval every) (now : Nanos) :
    (w.syncIfDue now = w ∧
      (w.unsynced = false ∨ ∃ last, w.lastSync = some last ∧ now < last + every)) ∨
    w.syncIfDue now = { w with lastSync := some now }.syncCur := by
  rw [syncIfDue, hp]
  dsimp only
  split
  next h => exact .inl ⟨rfl, .inl (by simpa using h)⟩
  split
  next h =>
    obtain ⟨last, hlast, hlt⟩ := (Option.any_eq_true ..).1 h
    have hrecent : now - last < every := of_decide_eq_true hlt
    refine .inl ⟨rfl, .inr ⟨last, hlast, Nat.lt_of_not_le fun hle => ?_⟩⟩
    exact Nat.not_lt.2 (Nat.le_sub_of_add_le' hle) hrecent
  · exact .inr rfl

end Wal

/-- The log that `open` returns has nothing in its buffer and never synced. -/
theorem openWal_fresh {crc : Bytes → UInt32} {opts : WalOptions} {disk : Disk} {w : Wal}
    {recovery : Recovery} (h : (openWal crc opts disk).result = .ok (w, recovery)) :
    w.policy = opts.sync ∧ w.lastSync = none ∧ w.buf = [] := by
  obtain ⟨segSize, scan, d, _, -, -, hstart⟩ := openWal_ok h
  obtain ⟨current, spares, -, -, -, -, rfl⟩ := start_ok hstart
  have hrun := (ensureRoom_run { (ofScan opts segSize scan d).allocate.1 with
    current, spares } 0 false).trans (gc_run _)
  have halloc := (Run.one (.allocate (ofScan opts segSize scan d))).writes
  exact ⟨hrun.writes.policy.trans halloc.policy, hrun.writes.lastSync.trans halloc.lastSync,
    hrun.buf_nil (allocate_frame _).2.2⟩

end Beanstalkd.Store
