import Beanstalkd.Raft.SnapshotFile

/-!
# A received snapshot file holds the accepted chunks

What the caller of a receiver was told is kept beside it as `contents`: a write that is
accepted at `p` replaces what was from `p` on, one that fails or is dropped cuts it there,
one that is rejected changes nothing.

The file holds `contents` in every run in which a write that finds an earlier, dropped one
still in flight is of the same bytes. The receiver takes any write for the resumption of
the one in flight: a write of other bytes returns the count of the earlier one, and the file
keeps the earlier bytes (`received_other_bytes`).
-/

namespace Beanstalkd.Raft

open File AsyncFile

namespace SnapshotFile

/-- A write that is refused without touching the file: over the maximum, or after a failure
without a seek. -/
def rejects (s : SnapshotFile) (buf : Bytes) : Bool :=
  (s.max.all fun max => s.pos + buf.length > max) || (s.inflight.isNone && s.broken)

end SnapshotFile

/-- A receiver and what its caller was told. -/
structure Receiving where
  file : SnapshotFile
  contents : Bytes
  /-- The bytes of the write in flight. -/
  handed : Bytes

namespace Receiving

inductive Op where
  /-- A write that is polled at least once, and dropped if it is pending after that. -/
  | write (buf : Bytes) (first : SnapshotFile.Answers) (more : List SnapshotFile.Answers)
  | seek (pos : SeekFrom) (first second : Outcome) (refused : Option IoError)

/-- What the caller knows of the contents after a write of `buf`. -/
def told (r : Receiving) (buf : Bytes) : Option (Except IoError Nat) → Bytes
  | some (.ok n) => r.contents.take r.file.pos ++ buf.take n
  | _ => if r.file.rejects buf then r.contents else r.contents.take r.file.pos

def step (r : Receiving) : Op → Receiving
  | .write buf first more =>
    let (file, result) := r.file.write buf (first :: more)
    { file
      contents := r.told buf result
      handed := match r.file.inflight, file.inflight with
        | none, some n => buf.take n
        | _, _ => r.handed }
  | .seek pos first second refused => { r with file := (r.file.seek pos first second refused).1 }

def start (bytes : Bytes) (temp : String) (base max : Nat) : Receiving :=
  ⟨.receiver bytes temp base max, [], []⟩

/-- If a write is in flight, this one begins with the same bytes. -/
def Resumes (r : Receiving) : Op → Prop
  | .write buf _ _ => ∀ n, r.file.inflight = some n → buf.take n = r.handed
  | .seek .. => True

/-- Every operation meets the condition in the state it finds. -/
def Along (C : Receiving → Op → Prop) : Receiving → List Op → Prop
  | _, [] => True
  | r, op :: ops => C r op ∧ Along C (r.step op) ops

end Receiving

/-! ## The invariant -/

namespace SnapshotFile

/-- What is known while a write of the bytes `h` is in flight: the file has yet to perform
it, has performed it, or has a failure to report. -/
inductive InFlight (f : AsyncFile) (base : Nat) (c h : Bytes) : Prop where
  | running (hbusy : f.busy = some (.write h)) (hno : f.writeErr = none)
      (hcursor : f.cursor = base + c.length)
  | performed (hidle : f.busy = none) (hno : f.writeErr = none)
      (hcursor : f.cursor = base + (c ++ h).length)
      (hthere : slice f.bytes base (base + (c ++ h).length) = c ++ h)
  | failed (hidle : f.busy = none) (herr : f.writeErr ≠ none)

structure Keeps (max : Nat) (s : SnapshotFile) (c h : Bytes) : Prop where
  limit : s.max = some max
  seeking : s.seeking = false
  len : s.len = c.length
  le_max : c.length ≤ max
  pos_le : s.pos ≤ c.length
  bytes : slice s.file.bytes s.base (s.base + c.length) = c
  idle : s.inflight = none → s.file.busy = none
  placed : s.inflight = none → s.broken = false → s.file.cursor = s.base + s.pos
  flying : ∀ n, s.inflight = some n → s.broken = true ∧ s.pos = c.length ∧ h.length = n ∧
    c.length + n ≤ max ∧ InFlight s.file s.base c h

variable {s : SnapshotFile} {max n base : Nat} {c h buf : Bytes} {f : AsyncFile}

/-- With nothing in flight, nothing depends on what was handed to the file. -/
theorem Keeps.of_idle (hk : s.Keeps max c h) (hidle : s.inflight = none) (h' : Bytes) :
    s.Keeps max c h' :=
  { hk with flying := fun n hn => by rw [hidle] at hn; cases hn }

/-! ## What the file does with a write -/

/-- A write at the end of the window leaves the window. -/
theorem slice_put (hcursor : f.cursor = base + c.length)
    (hbytes : slice f.bytes base (base + c.length) = c) (data : Bytes) :
    slice (f.put data).bytes base (base + c.length) = c :=
  slice_writeAt_of_le hbytes (Nat.le_of_eq hcursor.symm)

/-- It extends the window. -/
theorem slice_put_append (hcursor : f.cursor = base + c.length)
    (hbytes : slice f.bytes base (base + c.length) = c) (data : Bytes) :
    (f.put data).cursor = base + (c ++ data).length ∧
      slice (f.put data).bytes base (base + (c ++ data).length) = c ++ data := by
  constructor
  · show f.cursor + data.length = _
    rw [hcursor, List.length_append, Nat.add_assoc]
  show slice (writeAt f.bytes f.cursor data) _ _ = _
  rw [hcursor]
  exact slice_writeAt hbytes data

/-- Waiting for a write in flight: it is under way, or has failed, or is there. -/
theorem InFlight.pollFlush (hf : InFlight f base c h)
    (hbytes : slice f.bytes base (base + c.length) = c) (answer : Option Outcome) :
    f.pollFlush answer = (f, .pending) ∨
      (∃ f' e, f.pollFlush answer = (f', .ready (.error e)) ∧ f'.busy = none ∧
        slice f'.bytes base (base + c.length) = c) ∨
      ∃ f', f.pollFlush answer = (f', .ready (.ok ())) ∧ f'.busy = none ∧
        f'.cursor = base + (c ++ h).length ∧
        slice f'.bytes base (base + (c ++ h).length) = c ++ h := by
  cases hf with
  | running hbusy hno hcursor =>
    rw [pollFlush_of_write hno hbusy]
    cases answer with
    | none => exact .inl rfl
    | some o =>
      cases o with
      | done => exact .inr (.inr ⟨_, rfl, rfl, slice_put_append hcursor hbytes h⟩)
      | failed k e => exact .inr (.inl ⟨_, e, rfl, rfl, slice_put hcursor hbytes _⟩)
  | performed hidle hno hcursor hthere =>
    rw [pollFlush_of_idle hno hidle]
    exact .inr (.inr ⟨f, rfl, hidle, hcursor, hthere⟩)
  | failed hidle herr =>
    obtain ⟨e, he⟩ := Option.ne_none_iff_exists'.mp herr
    rw [pollFlush_of_writeErr he]
    exact .inr (.inl ⟨_, e, rfl, hidle, hbytes⟩)

/-- The second half of a write: it is under way, or cut off, or accepted. -/
theorem Keeps.confirm (hk : s.Keeps max c h) (hn : s.inflight = some n) (flush : Option Outcome) :
    s.confirm n flush = (s, .pending) ∨
      (∃ s' e, s.confirm n flush = (s', .ready (.error e)) ∧ s'.Keeps max c h ∧
        s'.inflight = none) ∨
      ∃ s', s.confirm n flush = (s', .ready (.ok n)) ∧ s'.Keeps max (c ++ h) h ∧
        s'.inflight = none := by
  obtain ⟨hbroken, hpos, hlen, hroom, hfly⟩ := hk.flying n hn
  rcases hfly.pollFlush hk.bytes flush with heq | ⟨f', e, heq, hidle, hbytes⟩ |
    ⟨f', heq, hidle, hcursor, hbytes⟩
  · left
    rw [SnapshotFile.confirm, heq]
  · refine .inr (.inl ⟨{ s with file := f', inflight := none }, e, ?_, ?_, rfl⟩)
    · rw [SnapshotFile.confirm, heq]
    exact { hk with
      bytes := hbytes
      idle := fun _ => hidle
      placed := fun _ hb => by
        rw [hbroken] at hb
        cases hb
      flying := nofun }
  · refine .inr (.inr ⟨{ s with
      file := f', inflight := none, broken := false, pos := s.pos + n, len := s.pos + n },
      ?_, ?_, rfl⟩)
    · rw [SnapshotFile.confirm, heq]
    have hall : s.pos + n = (c ++ h).length := by
      rw [List.length_append, hpos, hlen]
    exact { hk with
      len := hall
      le_max := by rw [List.length_append, hlen]; exact hroom
      pos_le := Nat.le_of_eq hall
      bytes := hbytes
      idle := fun _ => hidle
      placed := fun _ _ => by
        show f'.cursor = s.base + (s.pos + n)
        rw [hcursor, hall]
      flying := nofun }

/-! ## Writes -/

/-- The window up to the write position. -/
theorem Keeps.slice_take (hk : s.Keeps max c h) :
    slice s.file.bytes s.base (s.base + (c.take s.pos).length) = c.take s.pos := by
  have hlen : (c.take s.pos).length = s.pos := List.length_take_of_le hk.pos_le
  have hb := congrArg (List.take s.pos) hk.bytes
  rw [slice, List.take_take] at hb
  rw [slice, hlen, ← hb]
  have := hk.pos_le
  congr 1
  omega

/-- A write begins: the bytes from its position on are not kept. -/
theorem Keeps.cut (hk : s.Keeps max c h) (hidle : s.inflight = none) :
    ({ s with len := s.pos } : SnapshotFile).Keeps max (c.take s.pos) h := by
  have hlen : (c.take s.pos).length = s.pos := List.length_take_of_le hk.pos_le
  exact { hk with
    len := hlen.symm
    le_max := by
      rw [hlen]
      exact Nat.le_trans hk.pos_le hk.le_max
    pos_le := Nat.le_of_eq hlen.symm
    bytes := hk.slice_take
    flying := fun n hn => absurd (hidle.symm.trans hn) nofun }

/-- The write of `h` is handed to the file at the end of the window. -/
theorem Keeps.hand (hk : s.Keeps max c h) (hidle : s.inflight = none) (hsound : s.broken = false)
    (hpos : s.pos = c.length) (hno : s.file.writeErr = none) (data : Bytes)
    (hroom : c.length + data.length ≤ max) :
    ({ s with
      file := { s.file with busy := some (.write data) }
      broken := true
      inflight := some data.length } : SnapshotFile).Keeps max c data :=
  { hk with
    idle := nofun
    placed := nofun
    flying := fun n hn => by
      cases hn
      refine ⟨rfl, hpos, rfl, hroom, .running rfl hno ?_⟩
      show s.file.cursor = _
      rw [hk.placed hidle hsound, hpos] }

/-- The file changed nothing of the window, and the write is not accepted. -/
theorem Keeps.refuse (hk : s.Keeps max c h) (hidle : s.inflight = none)
    (hbytes : f.bytes = s.file.bytes) (hfile : f.busy = none) :
    ({ s with file := f, broken := true } : SnapshotFile).Keeps max c h :=
  { hk with
    bytes := by
      show slice f.bytes _ _ = _
      rw [hbytes]
      exact hk.bytes
    idle := fun _ => hfile
    placed := fun _ => nofun
    flying := fun n hn => absurd (hidle.symm.trans hn) nofun }

theorem rejects_eq_false (hlimit : s.max = some max) :
    s.rejects buf = false ↔ s.pos + buf.length ≤ max ∧ (s.inflight = none → s.broken = false) := by
  rw [rejects, hlimit]
  cases s.inflight <;> cases s.broken <;> simp

/-- With nothing in flight the file's answer decides. -/
theorem pollWrite_idle (hmax : s.max = some max) (hroom : s.pos + buf.length ≤ max)
    (hfly : s.inflight = none) (hfine : s.broken = false) (a : Answers) :
    (∀ file, s.file.pollWrite buf a.task a.start = (file, .pending) →
        s.pollWrite buf a = ({ s with len := s.pos, file }, .pending)) ∧
      (∀ file e, s.file.pollWrite buf a.task a.start = (file, .ready (.error e)) →
        s.pollWrite buf a =
          ({ s with len := s.pos, file, broken := true }, .ready (.error e))) ∧
      ∀ file n, s.file.pollWrite buf a.task a.start = (file, .ready (.ok n)) →
        s.pollWrite buf a = ({ s with
          len := s.pos, file, broken := true, inflight := some n } : SnapshotFile).confirm n
            a.flush := by
  unfold SnapshotFile.pollWrite
  rw [hmax, hfly, hfine]
  simp only
  rw [if_neg (Nat.not_lt.mpr hroom)]
  refine ⟨fun file hfile => ?_, fun file e hfile => ?_, fun file n hfile => ?_⟩ <;>
    · rw [hfile]
      rfl

/-- A write at the end of `c` is over: it failed, or some of its bytes were accepted. -/
def Ended (max : Nat) (s : SnapshotFile) (c h buf : Bytes) : Except IoError Nat → Prop
  | .error _ => s.inflight = none ∧ s.Keeps max c h
  | .ok n => s.inflight = none ∧ s.Keeps max (c ++ buf.take n) h

theorem Ended.of_handed {r : Except IoError Nat} {h' : Bytes} (hend : s.Ended max c h' buf r)
    (h : Bytes) : s.Ended max c h buf r := by
  cases r <;> exact ⟨hend.1, hend.2.of_idle hend.1 h⟩

/-- A poll of a write that is not rejected: pending, or the end of it. -/
theorem Keeps.pollWrite (hk : s.Keeps max c h) (hrej : s.rejects buf = false)
    (hres : ∀ n, s.inflight = some n → buf.take n = h) (a : Answers) :
    (∃ s' h', s.pollWrite buf a = (s', .pending) ∧ s'.Keeps max (c.take s.pos) h' ∧
        s'.pos = s.pos ∧ s'.rejects buf = false ∧ (∀ n, s'.inflight = some n → buf.take n = h') ∧
        (s.inflight ≠ none → s'.inflight = s.inflight)) ∨
      ∃ s' r, s.pollWrite buf a = (s', .ready r) ∧ s'.Ended max (c.take s.pos) h buf r := by
  obtain ⟨hroom, hsound⟩ := (rejects_eq_false hk.limit).mp hrej
  cases hfly : s.inflight with
  | some n =>
    have hpoll : s.pollWrite buf a = s.confirm n a.flush := by
      unfold SnapshotFile.pollWrite
      rw [hk.limit, hfly]
      simp only
      rw [if_neg (Nat.not_lt.mpr hroom)]
    have hcut : c.take s.pos = c :=
      List.take_of_length_le (Nat.le_of_eq (hk.flying n hfly).2.1.symm)
    rw [hpoll, hcut]
    rcases hk.confirm hfly a.flush with heq | ⟨s', e, heq, hk', hidle⟩ | ⟨s', heq, hk', hidle⟩
    · refine .inl ⟨s, h, heq, hk, rfl, hrej, hres, fun _ => hfly⟩
    · exact .inr ⟨s', .error e, heq, hidle, hk'⟩
    · exact .inr ⟨s', .ok n, heq, hidle, hres n hfly ▸ hk'⟩
  | none =>
    have hfine := hsound hfly
    have hk₀ := hk.cut hfly
    have hlen : (c.take s.pos).length = s.pos := List.length_take_of_le hk.pos_le
    have hfile := hk.idle hfly
    obtain ⟨hpending, herror, hready⟩ := pollWrite_idle hk.limit hroom hfly hfine a
    cases herr : s.file.writeErr with
    | some e =>
      rw [herror _ e (pollWrite_of_writeErr herr)]
      exact .inr ⟨_, .error e, rfl, hfly, hk₀.refuse hfly rfl hfile⟩
    | none =>
      have hbegin : s.file.pollWrite buf a.task a.start = s.file.begin buf a.start :=
        pollWrite_of_idle herr hfile
      cases hstart : a.start with
      | later =>
        rw [hpending _ (hbegin.trans (by rw [hstart]; rfl))]
        refine .inl ⟨_, h, rfl, hk₀, rfl, ?_, fun n hn => ?_, fun hne => absurd rfl hne⟩
        · exact (rejects_eq_false hk.limit).mpr ⟨hroom, hsound⟩
        · cases hfly.symm.trans hn
      | refused e =>
        rw [herror _ e (hbegin.trans (by rw [hstart]; rfl))]
        exact .inr ⟨_, .error e, rfl, hfly, hk₀.refuse hfly rfl hfile⟩
      | takes m =>
        rw [hready _ _ (hbegin.trans (by rw [hstart]; rfl))]
        have htake : (buf.take m).length ≤ buf.length := List.length_take_le' ..
        have hk₁ := hk₀.hand hfly hfine hlen.symm herr (buf.take m) (by omega)
        have hagain : buf.take (buf.take m).length = buf.take m :=
          (List.prefix_iff_eq_take.mp (List.take_prefix m buf)).symm
        rcases hk₁.confirm rfl a.flush with heq | ⟨s', e, heq, hk', hidle⟩ | ⟨s', heq, hk', hidle⟩
        · refine .inl ⟨_, buf.take m, heq, hk₁, rfl, ?_, ?_, fun hne => absurd rfl hne⟩
          · refine (rejects_eq_false hk₁.limit).mpr ⟨hroom, fun hnone => ?_⟩
            exact absurd hnone (Option.some_ne_none _)
          intro n hn
          cases hn
          exact hagain
        · exact .inr ⟨s', .error e, heq, hidle, hk'.of_idle hidle h⟩
        · refine .inr ⟨s', .ok _, heq, hidle, ?_⟩
          rw [hagain]
          exact hk'.of_idle hidle h

/-- A write that is not rejected, through all its polls. -/
theorem Keeps.write (as : List Answers) :
    ∀ {s : SnapshotFile} {c h : Bytes} (a : Answers), s.Keeps max c h → s.rejects buf = false →
      (∀ n, s.inflight = some n → buf.take n = h) →
      (∃ s' h', s.write buf (a :: as) = (s', none) ∧ s'.Keeps max (c.take s.pos) h' ∧
          (∀ n, s'.inflight = some n → buf.take n = h') ∧
          (s.inflight ≠ none → s'.inflight = s.inflight)) ∨
        ∃ s' r, s.write buf (a :: as) = (s', some r) ∧ s'.Ended max (c.take s.pos) h buf r := by
  induction as with
  | nil =>
    intro s c h a hk hrej hres
    rcases hk.pollWrite hrej hres a with ⟨s', h', heq, hk', -, -, hres', hsame⟩ |
      ⟨s', r, heq, hend⟩
    · refine .inl ⟨s', h', ?_, hk', hres', hsame⟩
      simp only [SnapshotFile.write, heq]
    · refine .inr ⟨s', r, ?_, hend⟩
      simp only [SnapshotFile.write, heq]
  | cons a' as ih =>
    intro s c h a hk hrej hres
    rcases hk.pollWrite hrej hres a with ⟨s', h', heq, hk', hpos, hrej', hres', hsame⟩ |
      ⟨s', r, heq, hend⟩
    · -- the position is the same at the next poll, so cutting there again changes nothing
      have hcut : (c.take s.pos).take s'.pos = c.take s.pos := by
        rw [hpos, List.take_take, Nat.min_self]
      have hwrite : s.write buf (a :: a' :: as) = s'.write buf (a' :: as) := by
        rw [SnapshotFile.write, heq]
      rw [hwrite]
      rcases ih a' hk' hrej' hres' with ⟨s₂, h₂, heq₂, hk₂, hres₂, hsame₂⟩ | ⟨s₂, r, heq₂, hend⟩
      · refine .inl ⟨s₂, h₂, heq₂, hcut ▸ hk₂, hres₂, fun hne => ?_⟩
        rw [hsame₂ (hsame hne ▸ hne), hsame hne]
      · exact .inr ⟨s₂, r, heq₂, (hcut ▸ hend).of_handed h⟩
    · refine .inr ⟨s', r, ?_, hend⟩
      simp only [SnapshotFile.write, heq]

/-- A write that is rejected leaves everything as it is. -/
theorem write_of_rejects (hlimit : s.max = some max) (hrej : s.rejects buf = true) (a : Answers)
    (as : List Answers) : ∃ e, s.write buf (a :: as) = (s, some (.error e)) := by
  have hpoll : ∃ e, s.pollWrite buf a = (s, .ready (.error e)) := by
    unfold SnapshotFile.pollWrite
    rw [hlimit]
    simp only
    split
    · exact ⟨_, rfl⟩
    next hle =>
      have hfail : s.inflight = none ∧ s.broken = true := by
        rw [rejects, hlimit] at hrej
        simpa [hle] using hrej
      rw [hfail.1, hfail.2]
      exact ⟨_, rfl⟩
  obtain ⟨e, heq⟩ := hpoll
  exact ⟨e, by rw [SnapshotFile.write, heq]⟩

/-! ## Seeks -/

/-- Waiting for what is under way: then the file is idle. -/
theorem Keeps.pollComplete (hk : s.Keeps max c h) (first : Outcome) :
    ∃ s' p, s.pollComplete (some first) = (s', .ready (.ok p)) ∧ s'.Keeps max c h ∧
      s'.file.busy = none ∧ s'.inflight = s.inflight := by
  have hdone : ∀ f p, s.file.pollComplete (some first) = (f, .ready (.ok p)) →
      s.pollComplete (some first) = ({ s with file := f }, .ready (.ok s.pos)) := by
    intro f p heq
    unfold SnapshotFile.pollComplete
    rw [heq, hk.seeking]
    rfl
  have hkeep : ∀ f : AsyncFile, slice f.bytes s.base (s.base + c.length) = c → f.busy = none →
      (∀ n, s.inflight = some n → InFlight f s.base c h) → s.inflight ≠ none →
      ({ s with file := f } : SnapshotFile).Keeps max c h := by
    intro f hbytes hidle hfly hne
    exact { hk with
      bytes := hbytes
      idle := fun _ => hidle
      placed := fun hnone => absurd hnone hne
      flying := fun n hn => by
        obtain ⟨hbroken, hpos, hlen, hroom, -⟩ := hk.flying n hn
        exact ⟨hbroken, hpos, hlen, hroom, hfly n hn⟩ }
  cases hfly : s.inflight with
  | none =>
    have hidle := hk.idle hfly
    exact ⟨_, _, hdone _ _ (pollComplete_of_idle hidle), hk, hidle, hfly⟩
  | some n =>
    have hne : s.inflight ≠ none := by rw [hfly]; exact nofun
    obtain ⟨-, -, -, -, hin⟩ := hk.flying n hfly
    cases hin with
    | running hbusy hno hcursor =>
      have hpoll := pollComplete_of_write (o := first) hbusy
      cases first with
      | done =>
        obtain ⟨hcursor', hthere⟩ := slice_put_append hcursor hk.bytes h
        refine ⟨_, _, hdone _ _ hpoll, hkeep _ (slice_put hcursor hk.bytes h) rfl ?_ hne, rfl, hfly⟩
        exact fun _ _ => .performed rfl hno hcursor' hthere
      | failed k e =>
        refine ⟨_, _, hdone _ _ hpoll, hkeep _ (slice_put hcursor hk.bytes _) rfl ?_ hne, rfl, hfly⟩
        exact fun _ _ => .failed rfl nofun
    | performed hidle | failed hidle =>
      exact ⟨_, _, hdone _ _ (pollComplete_of_idle hidle), hk, hidle, hfly⟩

/-- A seek is accepted: what was in flight is forgotten, and was not accepted. -/
theorem Keeps.forget (hk : s.Keeps max c h) (hidle : s.file.busy = none) :
    ({ s with inflight := none } : SnapshotFile).Keeps max c h :=
  { hk with
    idle := fun _ => hidle
    placed := fun _ hsound => by
      cases hfly : s.inflight with
      | none => exact hk.placed hfly hsound
      | some n => exact absurd ((hk.flying n hfly).1.symm.trans hsound) nofun
    flying := nofun }

/-- The seek itself, to a place in the window. -/
theorem Keeps.complete {t : Nat} (hk : s.Keeps max c h) (hnone : s.inflight = none)
    (ht : t ≤ c.length) (second : Outcome) :
    (({ s with file := { s.file with busy := some (.seek (s.base + t)) }, seeking := true } :
      SnapshotFile).pollComplete (some second)).1.Keeps max c h := by
  unfold SnapshotFile.pollComplete
  rw [pollComplete_of_seek rfl]
  cases second with
  | done =>
    simp only [if_true]
    rw [if_neg (by omega)]
    exact { hk with
      seeking := rfl
      pos_le := by
        show s.base + t - s.base ≤ _
        omega
      idle := fun _ => rfl
      placed := fun _ _ => by
        show s.base + t = s.base + (s.base + t - s.base)
        omega
      flying := fun n hn => absurd (hnone.symm.trans hn) nofun }
  | failed place e =>
    exact { hk with
      seeking := rfl
      idle := fun _ => rfl
      placed := fun _ => nofun
      flying := fun n hn => absurd (hnone.symm.trans hn) nofun }

/-- A seek, wherever to and however it ends. -/
theorem Keeps.seek (hk : s.Keeps max c h) (pos : SeekFrom) (first second : Outcome)
    (refused : Option IoError) : (s.seek pos first second refused).1.Keeps max c h := by
  obtain ⟨s', p, heq, hk', hidle, -⟩ := hk.pollComplete first
  rw [SnapshotFile.seek, heq]
  simp only
  unfold SnapshotFile.startSeek
  generalize s'.target pos = target
  simp only
  by_cases hin : 0 ≤ target ∧ target ≤ (s'.len : Int)
  · have hk₁ := hk'.forget hidle
    have ht : target.toNat ≤ c.length := by
      rw [← hk'.len]
      omega
    rw [if_neg (not_not_intro hin), startSeek_of_idle hidle]
    cases refused with
    | some e => exact hk₁
    | none => exact hk₁.complete rfl ht second
  · rw [if_pos hin]
    exact hk'

end SnapshotFile

/-! ## Runs -/

namespace Receiving

open SnapshotFile

variable {r : Receiving} {max : Nat}

theorem step_keeps (hk : r.file.Keeps max r.contents r.handed) (op : Op) (hres : r.Resumes op) :
    (r.step op).file.Keeps max (r.step op).contents (r.step op).handed := by
  cases op with
  | seek pos first second refused => exact hk.seek pos first second refused
  | write buf first more =>
    cases hrej : r.file.rejects buf with
    | true =>
      obtain ⟨e, heq⟩ := write_of_rejects hk.limit hrej first more
      simp only [step, heq, told, hrej, if_true]
      cases hfly : r.file.inflight with
      | none => exact hk.of_idle hfly _
      | some n => exact hk
    | false =>
      rcases hk.write more first hrej hres with
        ⟨s', h', heq, hk', hres', hsame⟩ | ⟨s', r, heq, hend⟩
      · simp only [step, heq, told, hrej]
        cases hold : r.file.inflight with
        | none =>
          cases hnew : s'.inflight with
          | none => exact hk'.of_idle hnew _
          | some n =>
            rw [← hres' n hnew] at hk'
            exact hk'
        | some m =>
          have hnew : s'.inflight = some m := (hsame (hold ▸ Option.some_ne_none m)).trans hold
          rw [← hres' m hnew, hres m hold] at hk'
          exact hk'
      · simp only [step, heq]
        cases r with
        | error e =>
          simp only [told, hrej]
          exact hend.2.of_idle hend.1 _
        | ok n => exact hend.2.of_idle hend.1 _

theorem run_keeps (ops : List Op) : ∀ {r : Receiving}, r.file.Keeps max r.contents r.handed →
    Along Resumes r ops →
    (ops.foldl step r).file.Keeps max (ops.foldl step r).contents (ops.foldl step r).handed := by
  induction ops with
  | nil => exact fun hk _ => hk
  | cons op ops ih => exact fun hk hall => ih (step_keeps hk op hall.1) hall.2

theorem start_keeps (bytes : Bytes) (temp : String) (base max : Nat) :
    (start bytes temp base max).file.Keeps max [] [] where
  limit := rfl
  seeking := rfl
  len := rfl
  le_max := Nat.zero_le _
  pos_le := Nat.le_refl _
  bytes := by
    show slice bytes base (base + 0) = []
    rw [slice, Nat.add_zero, Nat.sub_self, List.take_zero]
  idle _ := rfl
  placed _ _ := rfl
  flying := nofun

/-- The length is that of what the caller was told, within the maximum and not before the
position; and a payload that is given out holds it. -/
structure Faithful (max : Nat) (r : Receiving) : Prop where
  len : r.file.len = r.contents.length
  le_max : r.file.len ≤ max
  pos_le : r.file.pos ≤ r.file.len
  payload : ∀ answer p, r.file.intoPayload answer = .ready (.ok p) →
    p.len = r.contents.length ∧ slice p.file p.base (p.base + p.len) = r.contents

theorem faithful_of_keeps (hk : r.file.Keeps max r.contents r.handed) : Faithful max r where
  len := hk.len
  le_max := hk.len ▸ hk.le_max
  pos_le := hk.len ▸ hk.pos_le
  payload answer p hp := by
    -- a payload is given out only if no write failed or is in flight
    have hsound : r.file.broken = false := by
      cases hb : r.file.broken with
      | false => rfl
      | true =>
        unfold SnapshotFile.intoPayload at hp
        rw [hb] at hp
        rcases hflush : r.file.file.pollFlush answer with ⟨f, _ | (e | u)⟩ <;>
          (rw [hflush] at hp; cases hp)
    have hnone : r.file.inflight = none := by
      cases hfly : r.file.inflight with
      | none => rfl
      | some n => exact absurd ((hk.flying n hfly).1.symm.trans hsound) nofun
    unfold SnapshotFile.intoPayload at hp
    cases herr : r.file.file.writeErr with
    | some e =>
      rw [pollFlush_of_writeErr herr] at hp
      cases hp
    | none =>
      rw [pollFlush_of_idle herr (hk.idle hnone), hsound] at hp
      cases hp
      refine ⟨hk.len, ?_⟩
      show slice r.file.file.bytes r.file.base (r.file.base + r.file.len) = _
      rw [hk.len]
      exact hk.bytes

end Receiving

/-- In every run in which a write that finds an earlier, dropped one in flight is of the same
bytes, a received snapshot file holds exactly the accepted chunks. -/
theorem received_holds_chunks (bytes : Bytes) (temp : String) (base max : Nat)
    (ops : List Receiving.Op)
    (h : Receiving.Along Receiving.Resumes (.start bytes temp base max) ops) :
    Receiving.Faithful max (ops.foldl Receiving.step (.start bytes temp base max)) :=
  Receiving.faithful_of_keeps (Receiving.run_keeps ops (Receiving.start_keeps ..) h)

/-- A chunk is dropped while the file performs it, and sent again. -/
theorem received_again :
    let dropped : SnapshotFile.Answers := ⟨none, .takes 9, none⟩
    let again : SnapshotFile.Answers := ⟨none, .later, some .done⟩
    let r := [.write [1, 2] dropped [], .write [1, 2] again []].foldl Receiving.step
      (.start [0] "1.part.tmp" 1 8)
    r.contents = [1, 2] ∧ Receiving.Faithful 8 r := by
  refine ⟨rfl, received_holds_chunks [0] "1.part.tmp" 1 8 _ ⟨nofun, fun n hn => ?_, trivial⟩⟩
  cases hn
  rfl

/-- A chunk is dropped while the file performs it, and another one is written in its place:
that one is accepted, and the file holds the first. -/
theorem received_other_bytes :
    let dropped : SnapshotFile.Answers := ⟨none, .takes 9, none⟩
    let other : SnapshotFile.Answers := ⟨none, .later, some .done⟩
    let r := [.write [1, 2] dropped [], .write [3, 4] other []].foldl Receiving.step
      (.start [0] "1.part.tmp" 1 8)
    r.contents = [3, 4] ∧
      r.file.intoPayload none = .ready (.ok ⟨[0, 1, 2], some "1.part.tmp", 1, 2⟩) ∧
      slice [0, 1, 2] 1 (1 + 2) ≠ r.contents :=
  ⟨rfl, rfl, by decide⟩

end Beanstalkd.Raft
