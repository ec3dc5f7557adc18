import Beanstalkd.Raft.SnapshotRead

/-!
# Snapshots are replaced atomically

A node that commits snapshots, crashes after any number of a commit's file operations and
starts again. `last` is the snapshot whose file was renamed last, and a commit that answers
`Ok(true)` has renamed its file. Whenever the directory is opened, `last` is current: a file
gets its name only when it is complete, has the highest number then, and older files are
removed only after that.
-/

open Std

namespace Beanstalkd.Raft

open File SnapshotStore

variable {M : Type} {w : SnapshotWire M} {d : SnapshotDir}

/-! ## The node -/

/-- A snapshot's file, in one of its versions. -/
def Snapshot.Image (s : Snapshot w) (f : Bytes) (l : Layout) : Prop :=
  f = s.file ∧ l = s.layout ∨ f = fileV1 w s.snapMeta s.payload ∧ l = s.layoutV1

structure SnapshotNode (w : SnapshotWire M) where
  dir : SnapshotDir
  /-- `none` while the node is down. -/
  store : Option (SnapshotStore M)
  last : Option (Snapshot w)

inductive SnapshotEvent (w : SnapshotWire M) where
  /-- The payload is in a temporary file, after a placeholder for the header and followed
  by leftover bytes, and is committed; if `cut` is given, the node crashes after so many file
  operations. -/
  | commit (snap : Snapshot w) (placeholder leftover : Bytes)
      (len : placeholder.length = headerLen) (installed : Bool) (luck : Luck) (cut : Option Nat)
  | crash
  | restart

def FileOp.isRename : SnapshotStore.FileOp → Bool
  | .rename .. => true
  | _ => false

/-- The operations that are done before the crash, if there is one. -/
def FileOp.before (cut : Option Nat) (ops : List SnapshotStore.FileOp) :
    List SnapshotStore.FileOp :=
  match cut with
  | none => ops
  | some k => ops.take k

/-- `commit` of a snapshot whose payload is in the next temporary file. -/
def SnapshotStore.commitNext (st : SnapshotStore M) (s : Snapshot w) (installed : Bool)
    (luck : Luck) : Except IoError Bool × SnapshotStore M × List SnapshotStore.FileOp :=
  commit w { st with nextTmp := st.nextTmp + 1 } st.nextTmp s.snapMeta s.payload.length
    (w.crc s.payload) installed luck

namespace SnapshotNode

/-- The directory with the received payload in a temporary file. -/
def staged (d : SnapshotDir) (tmp : Nat) (s : Snapshot w) (placeholder leftover : Bytes) :
    SnapshotDir :=
  { d with temps := d.temps.insert tmp (placeholder ++ (s.payload ++ leftover)) }

/-- The node after file operations of a commit. -/
def performed (n : SnapshotNode w) (d : SnapshotDir) (s : Snapshot w)
    (store : Option (SnapshotStore M)) (ops : List SnapshotStore.FileOp) : SnapshotNode w where
  dir := ops.foldl FileOp.perform d
  store := store
  last := if ops.any FileOp.isRename then some s else n.last

def step (path : String) (n : SnapshotNode w) : SnapshotEvent w → SnapshotNode w
  | .commit s placeholder leftover _ installed luck cut =>
    match n.store with
    | none => n
    | some st =>
      let (_, st', ops) := st.commitNext s installed luck
      n.performed (staged n.dir st.nextTmp s placeholder leftover) s
        (if cut.isNone then some st' else none) (FileOp.before cut ops)
  | .crash => { n with store := none }
  | .restart =>
    match SnapshotStore.open w path n.dir with
    | .error _ => n
    | .ok (st, dir) => { n with dir, store := some st }

/-- The snapshot is current. -/
def Current (st : SnapshotStore M) (d : SnapshotDir) : Option (Snapshot w) → Prop
  | none => st.current = none
  | some s => ∃ seq f l, s.Image f l ∧ st.current = some (s.snapMeta, seq, l) ∧
      d.snaps[seq]? = some f

/-- The newest file of the directory is that of the snapshot. -/
def Holds (d : SnapshotDir) : Option (Snapshot w) → Prop
  | none => ∀ k : Nat, d.snaps[k]? = none
  | some s => ∃ seq f l, s.Image f l ∧ d.snaps[seq]? = some f ∧ seq + 1 < 2 ^ 64 ∧
      ∀ (k : Nat) (v : Bytes), d.snaps[k]? = some v → k ≤ seq

/-- A store that is open on a directory. -/
structure Up (st : SnapshotStore M) (d : SnapshotDir) (last : Option (Snapshot w)) : Prop where
  current : Current st d last
  below : ∀ (k : Nat) (v : Bytes), d.snaps[k]? = some v → k < st.nextSeq
  old : ∀ c, st.current = some c → c.2.1 < st.nextSeq

structure Inv (n : SnapshotNode w) : Prop where
  holds : Holds n.dir n.last
  up : ∀ st, n.store = some st → Up st n.dir n.last

end SnapshotNode

open SnapshotNode

/-! ## Opening -/

theorem Snapshot.Image.accepted {s : Snapshot w} {f : Bytes} {l : Layout} (h : s.Image f l)
    (path : String) :
    readLayout w path f = .ok (s.snapMeta, l) ∧ verify w path f l = .ok () ∧
      slice f l.payloadOff (l.payloadOff + l.payloadLen) = s.payload := by
  rcases h with ⟨rfl, rfl⟩ | ⟨rfl, rfl⟩
  · exact ⟨s.readLayout_fileWith path rfl, s.verify_file path, s.slice_fileWith rfl⟩
  · exact ⟨s.readLayout_fileV1With path rfl, s.verify_fileV1 path, s.slice_fileV1With rfl⟩

/-- A directory that holds a snapshot opens with it. -/
theorem open_of_holds (path : String) {last : Option (Snapshot w)} (h : Holds d last) :
    ∃ st d', SnapshotStore.open w path d = .ok (st, d') ∧ Up st d' last ∧ Holds d' last := by
  cases last with
  | none =>
    have hnil : d.snaps.toList.getLast? = none := by
      rw [List.getLast?_eq_none_iff, List.eq_nil_iff_forall_not_mem]
      rintro ⟨k, v⟩ hmem
      rw [ExtTreeMap.mem_toList_iff_getElem?_eq_some, h k] at hmem
      cases hmem
    refine ⟨⟨path, none, 1, 1⟩, ⟨d.snaps, ∅⟩, ?_, ⟨rfl, ?_, nofun⟩, h⟩
    · rw [SnapshotStore.open, hnil]
    · intro k v hk
      exact absurd ((h k).symm.trans hk) nofun
  | some s =>
    obtain ⟨seq, f, l, himage, hseq, hroom, hmax⟩ := h
    have hnewest : d.snaps.toList.getLast? = some (seq, f) :=
      TreeMap.getLast?_toList hseq fun k v hk => Nat.isLE_compare.mpr (hmax k v hk)
    obtain ⟨hlayout, hverify, -⟩ := himage.accepted (SnapshotStore.path path seq)
    have honly : ∀ (k : Nat) (v : Bytes),
        ((∅ : ExtTreeMap Nat Bytes).insert seq f)[k]? = some v → k = seq := by
      intro k v hk
      by_cases hne : seq = k
      · exact hne.symm
      · rw [TreeMap.getElem?_insert_ne hne] at hk
        simp at hk
    have hsame : ((∅ : ExtTreeMap Nat Bytes).insert seq f)[seq]? = some f :=
      ExtTreeMap.getElem?_insert_self
    refine ⟨⟨path, some (s.snapMeta, seq, l), seq + 1, 1⟩,
      ⟨(∅ : ExtTreeMap Nat Bytes).insert seq f, ∅⟩, ?_, ⟨?_, ?_, ?_⟩, ?_⟩
    · rw [SnapshotStore.open, hnewest]
      simp only
      rw [if_neg (Nat.not_le.mpr hroom), hlayout]
      simp only
      rw [hverify]
    · exact ⟨seq, f, l, himage, rfl, hsame⟩
    · intro k v hk
      rw [honly k v hk]
      exact Nat.lt_succ_self seq
    · rintro c hc
      cases hc
      exact Nat.lt_succ_self seq
    · exact ⟨seq, f, l, himage, hsame, hroom, fun k v hk => Nat.le_of_eq (honly k v hk)⟩

/-! ## Committing -/

section Commit

variable (s : Snapshot w) (tmp : Nat)

/-- What is written to the temporary file. -/
def written : List SnapshotStore.FileOp :=
  [.setLen tmp (headerLen + s.payload.length), .write tmp (headerLen + s.payload.length) s.encoded,
    .write tmp 0 (header 2 s.crc s.lens), .sync tmp]

theorem crc_eq : w.append (w.append (w.crc s.payload) s.encoded) s.lens = s.crc := by
  rw [SnapshotWire.crc, w.append_append, w.append_append, List.append_assoc]
  rfl

/-- An operation that leaves the snapshot files alone. -/
def FileOp.Quiet : SnapshotStore.FileOp → Prop
  | .rename .. | .remove _ => False
  | _ => True

/-- The snapshot is not built behind the current one, and there is a number left. -/
structure Wanted (st : SnapshotStore M) (installed : Bool) : Prop where
  ahead : installed = false →
    ∀ c, st.current = some c → beyond (w.lastLogId c.1) (w.lastLogId s.snapMeta) = false
  room : st.nextSeq + 1 < 2 ^ 64

theorem quiet_written : ∀ op ∈ written s tmp, FileOp.Quiet op := by
  intro op hop
  simp only [written, List.mem_cons, List.not_mem_nil, or_false] at hop
  rcases hop with rfl | rfl | rfl | rfl <;> trivial

theorem quiet_removeTemp : ∀ op ∈ [SnapshotStore.FileOp.removeTemp tmp], FileOp.Quiet op :=
  fun _ hop => List.mem_singleton.mp hop ▸ trivial

/-- The commit of a snapshot: it is not wanted and no snapshot file is touched, or it is
written and renamed, and the file of the one before may be removed. -/
theorem commit_cases (st : SnapshotStore M) (installed : Bool) (luck : Luck) :
    (∃ result ops, commit w st tmp s.snapMeta s.payload.length (w.crc s.payload) installed luck =
        (result, st, ops) ∧ result ≠ .ok true ∧ ¬Wanted s st installed ∧
          ∀ op ∈ ops, FileOp.Quiet op) ∨
      ∃ cleanup : List SnapshotStore.FileOp, st.nextSeq + 1 < 2 ^ 64 ∧
        (∀ op ∈ cleanup, ∃ c, st.current = some c ∧ op = .remove c.2.1) ∧
        commit w st tmp s.snapMeta s.payload.length (w.crc s.payload) installed luck =
          (.ok true,
            { st with
              current := some (s.snapMeta, st.nextSeq, s.layout), nextSeq := st.nextSeq + 1 },
            written s tmp ++ (.rename tmp st.nextSeq :: .syncDir :: cleanup)) := by
  have henc : w.encode s.snapMeta = s.encoded := rfl
  have hlens : lens s.encoded.length s.payload.length = s.lens := rfl
  have hsmall : ¬ s.encoded.length > maxMetaLen := Nat.not_lt.mpr s.small
  unfold commit
  simp only [henc, hlens, crc_eq]
  split
  next hbehind =>
    refine .inl ⟨_, _, rfl, nofun, fun hwanted => ?_, quiet_removeTemp tmp⟩
    rw [Bool.and_eq_true, Bool.not_eq_true', Option.any_eq_true] at hbehind
    obtain ⟨hbuilt, c, hc, hbeyond⟩ := hbehind
    cases (hwanted.ahead hbuilt c hc).symm.trans hbeyond
  split
  next hfull =>
    refine .inl ⟨_, _, rfl, nofun, fun hwanted => Nat.not_le.mpr hwanted.room hfull, ?_⟩
    exact List.forall_mem_append.mpr ⟨quiet_written s tmp, quiet_removeTemp tmp⟩
  next hroom =>
    cases hcur : st.current with
    | none =>
      refine .inr ⟨[], Nat.not_le.mp hroom, by simp, ?_⟩
      rfl
    | some c =>
      obtain ⟨snapMeta, old, l⟩ := c
      refine .inr ⟨if luck.dirSynced && luck.removed then [.remove old] else [],
        Nat.not_le.mp hroom, fun op hop => ?_, ?_⟩
      · split at hop
        · exact ⟨(snapMeta, old, l), rfl, List.mem_singleton.mp hop⟩
        · cases hop
      · rfl

variable {s tmp} in
/-- Once the temporary file is written it is the snapshot's file. -/
theorem perform_written {placeholder leftover : Bytes} (hlen : placeholder.length = headerLen)
    (htmp : d.temps[tmp]? = some (placeholder ++ (s.payload ++ leftover))) :
    ((written s tmp).foldl FileOp.perform d).snaps = d.snaps ∧
      ((written s tmp).foldl FileOp.perform d).temps[tmp]? = some s.file := by
  refine ⟨rfl, ?_⟩
  have hall : (placeholder ++ s.payload).length = headerLen + s.payload.length := by
    rw [List.length_append, hlen]
  have hcut : File.setLen (placeholder ++ (s.payload ++ leftover)) (headerLen + s.payload.length) =
      placeholder ++ s.payload := by
    rw [← List.append_assoc, ← hall]
    exact setLen_append ..
  have hmeta : writeAt (placeholder ++ s.payload) (headerLen + s.payload.length) s.encoded =
      placeholder ++ (s.payload ++ s.encoded) := by
    rw [← hall, writeAt_end, List.append_assoc]
  have hhead : writeAt (placeholder ++ (s.payload ++ s.encoded)) 0 (header 2 s.crc s.lens) =
      s.file :=
    writeAt_append [] placeholder _ _ (by rw [hlen, s.length_header])
  show (((d.temps.modify tmp _).modify tmp _).modify tmp _)[tmp]? = _
  simp only [TreeMap.modify_modify]
  rw [TreeMap.getElem?_modify_of htmp]
  simp only [Function.comp, hcut, hmeta, hhead]

end Commit

/-! ## Runs -/

theorem perform_quiet (ops : List SnapshotStore.FileOp) :
    ∀ d : SnapshotDir, (∀ op ∈ ops, FileOp.Quiet op) →
      (ops.foldl SnapshotStore.FileOp.perform d).snaps = d.snaps ∧
        ops.any FileOp.isRename = false := by
  induction ops with
  | nil => exact fun _ _ => ⟨rfl, rfl⟩
  | cons op ops ih =>
    intro d h
    obtain ⟨hsnaps, hany⟩ := ih (op.perform d) fun op' h' => h op' (List.mem_cons_of_mem _ h')
    have hop := h op List.mem_cons_self
    rw [List.foldl_cons, List.any_cons, hsnaps, hany]
    cases op with
    | rename | remove => cases hop
    | _ => exact ⟨rfl, rfl⟩

/-- Removing older files leaves the newest. -/
theorem perform_cleanup {seq : Nat} {f : Bytes} (ops : List SnapshotStore.FileOp) :
    ∀ d : SnapshotDir, (∀ op ∈ ops, op = .syncDir ∨ ∃ old, old < seq ∧ op = .remove old) →
      d.snaps[seq]? = some f → (∀ (k : Nat) (v : Bytes), d.snaps[k]? = some v → k ≤ seq) →
      (ops.foldl SnapshotStore.FileOp.perform d).snaps[seq]? = some f ∧
        ∀ (k : Nat) (v : Bytes),
          (ops.foldl SnapshotStore.FileOp.perform d).snaps[k]? = some v → k ≤ seq := by
  induction ops with
  | nil => exact fun _ _ hseq hmax => ⟨hseq, hmax⟩
  | cons op ops ih =>
    intro d h hseq hmax
    refine ih _ (fun op' h' => h op' (List.mem_cons_of_mem _ h')) ?_ ?_
    · rcases h op List.mem_cons_self with rfl | ⟨old, hold, rfl⟩
      · exact hseq
      show (d.snaps.erase old)[seq]? = _
      rw [TreeMap.getElem?_erase_ne (Nat.ne_of_lt hold)]
      exact hseq
    · intro k v hk
      rcases h op List.mem_cons_self with rfl | ⟨old, hold, rfl⟩
      · exact hmax k v hk
      · exact hmax k v (TreeMap.erase_eq_some_iff.mp hk).2

theorem any_isRename (s : Snapshot w) (tmp seq : Nat) (rest : List SnapshotStore.FileOp) :
    (written s tmp ++ .rename tmp seq :: rest).any FileOp.isRename = true := by
  exact Bool.or_true _

/-- The snapshot has got its name: it is the newest file, whatever else is done of the
commit. -/
theorem perform_renamed {s : Snapshot w} {tmp seq : Nat} {placeholder leftover : Bytes}
    (hlen : placeholder.length = headerLen)
    (htmp : d.temps[tmp]? = some (placeholder ++ (s.payload ++ leftover)))
    (hbelow : ∀ (k : Nat) (v : Bytes), d.snaps[k]? = some v → k < seq)
    {rest : List SnapshotStore.FileOp}
    (hrest : ∀ op ∈ rest, op = .syncDir ∨ ∃ old, old < seq ∧ op = .remove old) :
    ((written s tmp ++ .rename tmp seq :: rest).foldl FileOp.perform d).snaps[seq]? = some s.file ∧
      ∀ (k : Nat) (v : Bytes),
        ((written s tmp ++ .rename tmp seq :: rest).foldl FileOp.perform d).snaps[k]? = some v →
        k ≤ seq := by
  obtain ⟨hsnaps, hfile⟩ := perform_written hlen htmp
  rw [List.foldl_append, List.foldl_cons]
  have hrename : FileOp.perform ((written s tmp).foldl FileOp.perform d) (.rename tmp seq) =
      { snaps := d.snaps.insert seq s.file
        temps := ((written s tmp).foldl FileOp.perform d).temps.erase tmp } := by
    simp only [FileOp.perform, hfile, hsnaps]
  rw [hrename]
  refine perform_cleanup rest _ hrest ExtTreeMap.getElem?_insert_self fun k v hk => ?_
  by_cases hne : seq = k
  · exact Nat.le_of_eq hne.symm
  · rw [TreeMap.getElem?_insert_ne hne] at hk
    exact Nat.le_of_lt (hbelow k v hk)

namespace SnapshotNode

variable {n : SnapshotNode w}

/-- Nothing of the snapshot files has changed. -/
theorem Inv.of_same (h : n.Inv) {n' : SnapshotNode w} (hsnaps : n'.dir.snaps = n.dir.snaps)
    (hlast : n'.last = n.last)
    (hstore : ∀ st, n'.store = some st → ∃ st₀, n.store = some st₀ ∧ st.current = st₀.current ∧
      st.nextSeq = st₀.nextSeq) : n'.Inv := by
  obtain ⟨⟨snaps, temps⟩, store, last⟩ := n
  obtain ⟨⟨snaps', temps'⟩, store', last'⟩ := n'
  cases hsnaps
  cases hlast
  refine ⟨by cases last <;> exact h.holds, fun st hst => ?_⟩
  obtain ⟨st₀, hst₀, hcurrent, hnext⟩ := hstore st hst
  obtain ⟨hcur, hbelow, hold⟩ := h.up st₀ hst₀
  refine ⟨?_, by rwa [hnext], by rwa [hcurrent, hnext]⟩
  cases last with
  | none => exact hcurrent.trans hcur
  | some s =>
    obtain ⟨seq, f, l, himage, hc, hseq⟩ := hcur
    exact ⟨seq, f, l, himage, hcurrent.trans hc, hseq⟩

section Commit

variable (h : n.Inv) {st : SnapshotStore M} (hst : n.store = some st) {s : Snapshot w}
  {placeholder leftover : Bytes} {store : Option (SnapshotStore M)}
include h hst

/-- A commit whose operations leave the snapshot files alone. -/
theorem Inv.quiet {ops : List SnapshotStore.FileOp} (hops : ∀ op ∈ ops, FileOp.Quiet op)
    (hstore : ∀ st₁, store = some st₁ → st₁.current = st.current ∧ st₁.nextSeq = st.nextSeq) :
    (n.performed (staged n.dir st.nextTmp s placeholder leftover) s store ops).Inv := by
  obtain ⟨hsnaps, hany⟩ :=
    perform_quiet ops (staged n.dir st.nextTmp s placeholder leftover) hops
  refine h.of_same hsnaps ?_ fun st₁ h₁ => ⟨st, hst, hstore st₁ h₁⟩
  rw [performed, hany]
  rfl

/-- A commit that got as far as the name. -/
theorem Inv.named (hlen : placeholder.length = headerLen) {rest : List SnapshotStore.FileOp}
    (hroom : st.nextSeq + 1 < 2 ^ 64)
    (hrest : ∀ op ∈ rest, op = .syncDir ∨ ∃ old, old < st.nextSeq ∧ op = .remove old)
    (hstore : ∀ st₁, store = some st₁ → st₁.current = some (s.snapMeta, st.nextSeq, s.layout) ∧
      st₁.nextSeq = st.nextSeq + 1) :
    (n.performed (staged n.dir st.nextTmp s placeholder leftover) s store
      (written s st.nextTmp ++ .rename st.nextTmp st.nextSeq :: rest)).Inv := by
  have htmp : (staged n.dir st.nextTmp s placeholder leftover).temps[st.nextTmp]? =
      some (placeholder ++ (s.payload ++ leftover)) := ExtTreeMap.getElem?_insert_self
  obtain ⟨hfile, hmax⟩ := perform_renamed hlen htmp (h.up st hst).below hrest
  refine ⟨⟨st.nextSeq, s.file, s.layout, .inl ⟨rfl, rfl⟩, hfile, hroom, hmax⟩, fun st₁ h₁ => ?_⟩
  obtain ⟨hcurrent, hnext⟩ := hstore st₁ h₁
  refine ⟨⟨st.nextSeq, s.file, s.layout, .inl ⟨rfl, rfl⟩, hcurrent, hfile⟩, fun k v hk => ?_,
    fun c hc => ?_⟩
  · rw [hnext]
    exact Nat.lt_succ_of_le (hmax k v hk)
  rw [hcurrent] at hc
  cases hc
  rw [hnext]
  exact Nat.lt_succ_self _

end Commit

theorem Inv.commit (path : String) (h : n.Inv) (s : Snapshot w) (placeholder leftover : Bytes)
    (hlen : placeholder.length = headerLen) (installed : Bool) (luck : Luck) (cut : Option Nat) :
    (n.step path (.commit s placeholder leftover hlen installed luck cut)).Inv := by
  cases hst : n.store with
  | none =>
    rw [step, hst]
    exact h
  | some st =>
    rw [step, hst]
    simp only [SnapshotStore.commitNext]
    rcases commit_cases s st.nextTmp { st with nextTmp := st.nextTmp + 1 } installed luck with
      ⟨result, ops, heq, -, -, hops⟩ | ⟨cleanup, hroom, hcleanup, heq⟩
    · rw [heq]
      cases cut with
      | none =>
        refine h.quiet hst hops fun st₁ h₁ => ?_
        cases h₁
        exact ⟨rfl, rfl⟩
      | some k => exact h.quiet hst (fun op hop => hops op (List.mem_of_mem_take hop)) nofun
    · rw [heq]
      have hrest : ∀ op ∈ SnapshotStore.FileOp.syncDir :: cleanup,
          op = .syncDir ∨ ∃ old, old < st.nextSeq ∧ op = .remove old := by
        intro op hop
        rcases List.mem_cons.mp hop with rfl | hop
        · exact .inl rfl
        · obtain ⟨c, hc, rfl⟩ := hcleanup op hop
          exact .inr ⟨c.2.1, (h.up st hst).old c hc, rfl⟩
      cases cut with
      | none =>
        refine h.named hst hlen hroom hrest fun st₁ h₁ => ?_
        cases h₁
        exact ⟨rfl, rfl⟩
      | some k =>
        -- the crash is before the file has its name, or after
        simp only [FileOp.before, List.take_append]
        cases hk : k - (written s st.nextTmp).length with
        | zero =>
          rw [List.take_zero, List.append_nil]
          exact h.quiet hst
            (fun op hop => quiet_written s st.nextTmp op (List.mem_of_mem_take hop)) nofun
        | succ j =>
          rw [List.take_succ_cons, List.take_of_length_le (by omega)]
          exact h.named hst hlen hroom (fun op hop => hrest op (List.mem_of_mem_take hop)) nofun

/-- A commit that is wanted and not cut answers `Ok(true)`, and one that answers so has
renamed its file. -/
theorem step_commit (path : String) {st : SnapshotStore M} (hst : n.store = some st)
    (s : Snapshot w) (placeholder leftover : Bytes) (hlen : placeholder.length = headerLen)
    (installed : Bool) (luck : Luck) :
    (Wanted s st installed → (st.commitNext s installed luck).1 = .ok true) ∧
      ((st.commitNext s installed luck).1 = .ok true →
        let n' := n.step path (.commit s placeholder leftover hlen installed luck none)
        n'.last = some s ∧ ∃ st', n'.store = some st') := by
  rw [step, hst]
  simp only [SnapshotStore.commitNext]
  rcases commit_cases s st.nextTmp { st with nextTmp := st.nextTmp + 1 } installed luck with
    ⟨result, ops, heq, hresult, hunwanted, -⟩ | ⟨cleanup, -, -, heq⟩
  · rw [heq]
    exact ⟨fun hwanted => absurd ⟨hwanted.ahead, hwanted.room⟩ hunwanted, fun h => absurd h hresult⟩
  rw [heq]
  refine ⟨fun _ => rfl, fun _ => ⟨?_, _, rfl⟩⟩
  simp only [performed, FileOp.before, any_isRename, if_true]

theorem Inv.step (path : String) (h : n.Inv) (e : SnapshotEvent w) : (n.step path e).Inv := by
  cases e with
  | commit s placeholder leftover hlen installed luck cut =>
    exact h.commit path s placeholder leftover hlen installed luck cut
  | crash => exact ⟨h.holds, nofun⟩
  | restart =>
    obtain ⟨st, d', heq, hup, hholds⟩ := open_of_holds path h.holds
    rw [SnapshotNode.step, heq]
    refine ⟨hholds, fun st₁ h₁ => ?_⟩
    cases h₁
    exact hup

theorem Inv.reopens (path : String) (h : n.Inv) :
    ∃ st d', SnapshotStore.open w path n.dir = .ok (st, d') ∧ Current st d' n.last := by
  obtain ⟨st, d', heq, hup, -⟩ := open_of_holds path h.holds
  exact ⟨st, d', heq, hup.current⟩

theorem run_inv (path : String) (es : List (SnapshotEvent w)) :
    ∀ {n : SnapshotNode w}, n.Inv → (es.foldl (SnapshotNode.step path) n).Inv := by
  induction es with
  | nil => exact fun h => h
  | cons e es ih => exact fun h => ih (h.step path e)

end SnapshotNode

/-! ## All of it -/

/-- Snapshot files round trip, in both versions: `read_layout` and `verify` give back the meta and
the payload, every read of a sequence of reads and backward seeks gives what is at its
position, and of a payload that differs in a way the checksum detects, no read gets to the
end. In every run of commits, crashes within them and restarts, the directory opens with
the snapshot that was renamed last, and a store that is open has it as current. A commit
answers `Ok(true)` unless the snapshot was built behind the current one or the sequence
numbers are used up, and then the snapshot is the last one, current now and after the next
`open`. A built snapshot does not replace one that covers more of the log. -/
theorem snapshot_files (w : SnapshotWire M) (path : String) :
    (∀ (s : Snapshot w) (f : Bytes) (l : Layout), s.Image f l →
      readLayout w path f = .ok (s.snapMeta, l) ∧ verify w path f l = .ok () ∧
      slice f l.payloadOff (l.payloadOff + l.payloadLen) = s.payload ∧
      ∀ ops, ∀ d ∈ (SnapshotFile.reader f
          l.payloadOff l.payloadLen (some l.check)).deliver w.append ops,
        ∃ data, d.result = .ready (.ok data) ∧ data <+: s.payload.drop d.start ∧
          d.next = d.start + data.length ∧ (data = [] → d.start = s.payload.length ∨ d.asked = 0)) ∧
    (∀ (s : Snapshot w) (p : Bytes), p.length = s.payload.length →
      (w.crc (p ++ (s.encoded ++ s.lens)) ≠ s.crc → ∀ ops, ∀ d ∈ (SnapshotFile.reader (s.fileWith p)
          s.layout.payloadOff s.layout.payloadLen (some s.layout.check)).deliver w.append ops,
        ∀ data, d.result = .ready (.ok data) → d.start + data.length < p.length) ∧
      (w.crc (s.lens ++ s.encoded ++ p) ≠ s.crcV1 →
        ∀ ops, ∀ d ∈ (SnapshotFile.reader (s.fileV1With p)
          s.layoutV1.payloadOff s.layoutV1.payloadLen (some s.layoutV1.check)).deliver w.append ops,
        ∀ data, d.result = .ready (.ok data) → d.start + data.length < p.length)) ∧
    (∀ (d : SnapshotDir) (last : Option (Snapshot w)) (es : List (SnapshotEvent w)), Holds d last →
      let n := es.foldl (SnapshotNode.step path) ⟨d, none, last⟩
      (∃ st d', SnapshotStore.open w path n.dir = .ok (st, d') ∧ Current st d' n.last) ∧
      ∀ st, n.store = some st → Current st n.dir n.last ∧
        ∀ (s : Snapshot w) (placeholder leftover : Bytes) (len) (installed : Bool) (luck : Luck),
          (Wanted s st installed → (st.commitNext s installed luck).1 = .ok true) ∧
          ((st.commitNext s installed luck).1 = .ok true →
            let n' := n.step path (.commit s placeholder leftover len installed luck none)
            n'.last = some s ∧ (∃ st', n'.store = some st' ∧ Current st' n'.dir (some s)) ∧
              ∃ st' d', SnapshotStore.open w path n'.dir = .ok (st', d') ∧
                Current st' d' (some s))) ∧
    ∀ (st : SnapshotStore M) (tmp : Nat) (snapMeta : M) (len : Nat) (crc : UInt32) (luck : Luck)
      (c),
      st.current = some c → beyond (w.lastLogId c.1) (w.lastLogId snapMeta) = true →
      commit w st tmp snapMeta len crc false luck = (.ok false, st, [.removeTemp tmp]) := by
  refine ⟨fun s f l himage => ?_, fun s p hp => ⟨fun hbad ops => ?_, fun hbad ops => ?_⟩,
    fun d last es h => ?_, fun st tmp snapMeta len crc luck c hc hbeyond => ?_⟩
  · obtain ⟨hlayout, hverify, hslice⟩ := himage.accepted path
    refine ⟨hlayout, hverify, hslice, fun ops => ?_⟩
    rcases himage with ⟨rfl, rfl⟩ | ⟨rfl, rfl⟩
    · have hreading := reading_start (w := w) hslice rfl SnapshotWire.reached_zero
      refine hreading.deliver_good ops ?_
      rfl
    · have hreading := reading_start hslice rfl s.reached_seedV1
      refine hreading.deliver_good ops ?_
      show w.crc (s.lens ++ s.encoded ++ s.payload ++ []) = _
      rw [List.append_nil]
      rfl
  · have hpos : 0 < p.length := by
      refine Nat.pos_of_ne_zero fun hzero => hbad ?_
      have hnil : s.payload = [] := List.eq_nil_of_length_eq_zero (hp.symm.trans hzero)
      rw [List.eq_nil_of_length_eq_zero hzero, Snapshot.crc, hnil]
    have hreading := reading_start (w := w) (l := s.layout) (s.slice_fileWith hp) hp
      SnapshotWire.reached_zero
    exact hreading.deliver_bad ops (by rw [List.nil_append]; exact hbad) hpos
  · have hpos : 0 < p.length := by
      refine Nat.pos_of_ne_zero fun hzero => hbad ?_
      have hnil : s.payload = [] := List.eq_nil_of_length_eq_zero (hp.symm.trans hzero)
      rw [List.eq_nil_of_length_eq_zero hzero, Snapshot.crcV1, hnil]
    have hreading := reading_start (s.slice_fileV1With hp) hp s.reached_seedV1
    refine hreading.deliver_bad ops ?_ hpos
    show w.crc (s.lens ++ s.encoded ++ p ++ []) ≠ _
    rw [List.append_nil]
    exact hbad
  · have hinv := SnapshotNode.run_inv path es (n := ⟨d, none, last⟩)
      ⟨h, fun st hst => by cases hst⟩
    refine ⟨hinv.reopens path, fun st hst => ⟨(hinv.up st hst).current, ?_⟩⟩
    intro s placeholder leftover hlen installed luck
    obtain ⟨hwanted, hdone⟩ := step_commit path hst s placeholder leftover hlen installed luck
    refine ⟨hwanted, fun hok => ?_⟩
    obtain ⟨hlast, st', hst'⟩ := hdone hok
    have hinv' := hinv.commit path s placeholder leftover hlen installed luck none
    exact ⟨hlast, ⟨st', hst', hlast ▸ (hinv'.up st' hst').current⟩, hlast ▸ hinv'.reopens path⟩
  · unfold commit
    rw [if_pos]
    rw [hc]
    simpa using hbeyond

/-- A checksum that adds up the bytes, and a meta without contents. -/
def sumWire : SnapshotWire Unit where
  append c b := b.foldl (fun c x => c + x.toUInt32) c
  encode _ := []
  decode _ := .ok ()
  lastLogId _ := none
  append_append _ _ := List.foldl_append.symm
  decode_encode _ := rfl

/-- On an empty directory a snapshot is committed, and found again after a crash. A second
commit that is cut before its file has a name leaves the first one current, and one that is
cut after it does not. -/
theorem committed_found_again :
    let s : Snapshot sumWire := ⟨(), [1, 2, 3], by decide, by decide⟩
    let s' : Snapshot sumWire := ⟨(), [4, 5], by decide, by decide⟩
    let run := List.foldl (SnapshotNode.step "snapshots") ⟨⟨∅, ∅⟩, none, none⟩
    let commit (s : Snapshot sumWire) : Option Nat → SnapshotEvent sumWire :=
      .commit s (zeros headerLen) [9, 9] rfl true ⟨true, true⟩
    let finds (d : SnapshotDir) (s : Snapshot sumWire) : Prop :=
      ∃ st d', SnapshotStore.open sumWire "snapshots" d = .ok (st, d') ∧ Current st d' (some s)
    finds (run [.restart, commit s none, .crash]).dir s ∧
      finds (run [.restart, commit s none, commit s' (some 4)]).dir s ∧
      finds (run [.restart, commit s none, commit s' (some 5)]).dir s' := by
  intro s s' run commit finds
  have hrun (es : List (SnapshotEvent sumWire)) :=
    (snapshot_files sumWire "snapshots").2.2.1 ⟨∅, ∅⟩ none es fun _ => by simp
  obtain ⟨-, hcommit⟩ := (hrun [.restart]).2 ⟨"snapshots", none, 1, 1⟩ rfl
  obtain ⟨-, -, hfound⟩ := (hcommit s (zeros headerLen) [9, 9] rfl true ⟨true, true⟩).2 rfl
  exact ⟨hfound, (hrun [.restart, commit s none, commit s' (some 4)]).1,
    (hrun [.restart, commit s none, commit s' (some 5)]).1⟩

end Beanstalkd.Raft
