import Beanstalkd.Raft.LogAppend
import Beanstalkd.Raft.LogRuns

/-!
# Crash recovery of the Raft log

A store in use on its disk, and a crash in the middle of a call: after any number of
the call's file operations, and at any byte of a write. `open` then finds the old log
with some of what the call does to it, and finds the same when it is run again.

A crash of the process keeps what was written, so no assumption about the checksum is
needed here: of a record that is not complete the end is missing, and `open` sees that
from its length.
-/

namespace Beanstalkd.Raft

open File Volume Numbered LogStore

variable {P : Type} {w : VoteWire P}

/-! ## A store in use -/

/-- The file operations of `open`. The vote is read first. -/
def LogNode.openLogOps (w : VoteWire P) (v : LogVolume) : List LogFileOp :=
  match readVote w (v.listing.values .vote) with
  | .error _ => []
  | .ok _ => openOps w.toWire (LogVolume.dir v)

def AbstractLog.call (a : AbstractLog P) : LogCall P → AbstractLog P
  | .append entries => a.append entries
  | .truncate since => a.truncate since.index
  | .purge upto => a.purge upto
  | .saveVote _ => a

inductive LogUse (P : Type) where
  | call (c : LogCall P)
  /-- Close, and open again with other options. -/
  | reopen (opts : LogOptions)

/-- A store on its disk, and the log it should be. -/
structure LogDisk (P : Type) where
  vol : LogVolume
  node : Except String (LogNode P)
  log : AbstractLog P

namespace LogDisk

/-- A call that openraft would not make is skipped. -/
def step (w : VoteWire P) (d : LogDisk P) : LogUse P → LogDisk P
  | .call c =>
    match d.node with
    | .error _ => d
    | .ok n =>
      if c.Issued w d.log then
        { vol := d.vol.performAll (n.ops w c), node := n.exec w c, log := d.log.call c }
      else d
  | .reopen opts =>
    { d with
      vol := d.vol.performAll (LogNode.openLogOps w d.vol)
      node := LogNode.openLog w opts d.vol }

/-- An empty directory. -/
def init : LogDisk P := { vol := .empty, node := .error "not open", log := {} }

/-- A store opened in an empty directory, and then used. -/
def run (w : VoteWire P) (opts : LogOptions) (uses : List (LogUse P)) : LogDisk P :=
  uses.foldl (step w) (init.step w (.reopen opts))

end LogDisk

/-! ## What is found again -/

/-- The store answers as the log does. -/
structure LogStore.Shows (w : Wire P) (s : LogStore P) (a : AbstractLog P) : Prop where
  state : s.logState = a.state
  entries : ∀ lo hi, s.tryGet w lo hi = .ok (a.range lo hi)
  limited : 0 < s.opts.maxReadBytes → ∀ start stop, s.limitedGet w start stop =
    .ok (fit w.recLen s.opts.maxReadBytes 0 false (a.range (.included start) (.excluded stop)))

/-- `open` succeeds and shows the log, and so does a second `open`, after the first one
or after any part of it. -/
def LogVolume.Recovers (w : VoteWire P) (v : LogVolume) (a : AbstractLog P) : Prop :=
  ∀ opts opts' k len, ∃ n n', LogNode.openLog w opts v = .ok n ∧ n.store.Shows w.toWire a ∧
    LogNode.openLog w opts' (v.performAll (interrupted (LogNode.openLogOps w v) k len)) = .ok n' ∧
    n'.store.Shows w.toWire a

/-- What a crash in the middle of a call may leave of the log. -/
def LogCall.Leaves (a : AbstractLog P) : LogCall P → AbstractLog P → Prop
  | .append entries, b => a.Extended (a.above entries) b
  | .truncate since, b => a.Shortened since.index b
  | .purge upto, b => b = a ∨ b = a.purge upto
  | .saveVote _, b => b = a

/-- The newest segment file. -/
def LogVolume.lastSegment (v : LogVolume) : Option Nat := v.listing.names.max?

/-- The newest segment file loses all but its first `len` bytes. -/
def LogVolume.cutLast (v : LogVolume) (len : Nat) : LogVolume :=
  match LogVolume.lastSegment v with
  | none => v
  | some n => v.modify n (List.take len)

theorem Repr.shows {w : Wire P} {o : LogOptions} {s : LogStore P} {a : AbstractLog P}
    (h : Repr w o s a) : s.Shows w a where
  state := h.logState
  entries := h.tryGet
  limited := fun hmax start stop => h.getBetween start stop hmax

/-- The vote file can be read. -/
def Voted (w : VoteWire P) (file : Option Bytes) : Prop :=
  ∃ vote : Option Vote, file = vote.map (fun x => frame w.crc (w.votes.encode x)) ∧
    ∀ x, vote = some x → (w.votes.encode x).length < 2 ^ 32

theorem readVote_eq (w : VoteWire P) {vote : Option Vote}
    (h : ∀ x, vote = some x → (w.votes.encode x).length < 2 ^ 32) :
    readVote w (vote.map fun x => frame w.crc (w.votes.encode x)) = .ok vote := by
  cases vote with
  | none => rfl
  | some x =>
    have hparse := parseRecord_frame w.crc [] (w.votes.encode_ne_nil x) (h x rfl)
    rw [List.append_nil] at hparse
    simp only [Option.map_some, readVote, hparse, w.votes.decode_encode]
    rfl

/-- A log within the limits of the machine. -/
def AbstractLog.Fits (w : Wire P) (a : AbstractLog P) : Prop :=
  total w.recLen a.entries < 2 ^ 64 ∧ a.nextIndex ≤ u64Max

theorem AbstractLog.Fits.mono {w : Wire P} {a b : AbstractLog P} (h : a.Fits w)
    (hpurged : b.purged = a.purged) (hentries : b.entries <+: a.entries) : b.Fits w := by
  obtain ⟨rest, hrest⟩ := hentries
  have hstart : b.start = a.start := by rw [AbstractLog.start, AbstractLog.start, hpurged]
  obtain ⟨hbytes, hbound⟩ := h
  rw [AbstractLog.nextIndex] at hbound
  rw [← hrest, total_append] at hbytes
  rw [← hrest, List.length_append] at hbound
  refine ⟨by omega, ?_⟩
  rw [AbstractLog.nextIndex, hstart]
  omega

namespace LogVolume

variable {v : LogVolume} {a : AbstractLog P}

/-- One `open` of a directory that stands for a log. -/
theorem opens (hstands : Stands w.toWire (dir v) a) (hvote : Voted w (view v).vote)
    (hfits : a.Fits w.toWire) (opts : LogOptions) :
    ∃ n, LogNode.openLog w opts v = .ok n ∧ Repr w.toWire opts n.store a ∧
      (view v).vote = n.vote.map (fun x => frame w.crc (w.votes.encode x)) ∧
      (∀ x, n.vote = some x → (w.votes.encode x).length < 2 ^ 32) ∧
      Vol.Through (Safe w.toWire (fun b => b = a) (view v).vote)
        (Looks (n.store.view (view v).vote)) (LogNode.openLogOps w v) v := by
  obtain ⟨vote, hfile, hshort⟩ := hvote
  obtain ⟨s, hopen, hrepr, hthrough⟩ :=
    hstands.through_open (S := fun b => b = a) rfl rfl opts hfits.1 hfits.2
  have hread : readVote w (v.listing.values .vote) = .ok vote := by
    have hlist : v.listing.values .vote = vote.map fun x => frame w.crc (w.votes.encode x) := hfile
    rw [hlist]
    exact readVote_eq w hshort
  refine ⟨{ store := s, vote }, ?_, hrepr, hfile, hshort, ?_⟩
  · rw [LogNode.openLog, hread, hopen]
    rfl
  · rw [LogNode.openLogOps, hread]
    exact hthrough

theorem recovers (hstands : Stands w.toWire (dir v) a) (hvote : Voted w (view v).vote)
    (hfits : a.Fits w.toWire) : Recovers w v a := by
  intro opts opts' k len
  obtain ⟨n, hopen, hrepr, -, -, hthrough⟩ := opens hstands hvote hfits opts
  obtain ⟨hvote', b, rfl, hstands'⟩ :=
    hthrough.interrupted (fun u hu => Safe.of_view hu rfl hrepr.stands) k len
  obtain ⟨n', hopen', hrepr', -⟩ := opens hstands' (by rwa [hvote']) hfits opts'
  exact ⟨n, n', hopen, hrepr.shows, hopen', hrepr'.shows⟩

/-- The newest segment file is the last one. -/
theorem lastSegment_eq {pre : List (Nat × Bytes)} {first : Nat} {file : Bytes}
    (hsegs : (dir v).segs = pre ++ [(first, file)])
    (hinc : (dir v).segs.Pairwise fun x y => x.1 < y.1) : lastSegment v = some first := by
  have hnames : v.listing.names = pre.map Prod.fst ++ [first] := by
    have hmap := congrArg (List.map Prod.fst) hsegs
    rw [dir, List.map_map, List.map_append] at hmap
    simpa [Function.comp_def] using hmap
  rw [hsegs] at hinc
  rw [lastSegment, hnames, List.max?_eq_some_iff]
  refine ⟨by simp, fun m hm => ?_⟩
  rcases List.mem_append.1 hm with hm | hm
  · obtain ⟨x, hx, rfl⟩ := List.mem_map.1 hm
    exact Nat.le_of_lt ((List.pairwise_append.1 hinc).2.2 x hx (first, file) (by simp))
  · exact Nat.le_of_eq (List.mem_singleton.1 hm)

/-- What is left if the newest segment file is cut. -/
theorem recovers_cutLast (hstands : Stands w.toWire (dir v) a) (hvote : Voted w (view v).vote)
    (hfits : a.Fits w.toWire) (len : Nat) :
    ∃ a' : AbstractLog P, a'.purged = a.purged ∧ a'.entries <+: a.entries ∧
      (∀ e ∈ a.entries, (∃ m ∈ lastSegment v, e.index < m) → e ∈ a'.entries) ∧
      Recovers w (cutLast v len) a' := by
  obtain ⟨n, es, hfiles, -⟩ := hstands.files
  have hinc := hfiles.increasing
  rcases List.eq_nil_or_concat' (dir v).segs with hnil | ⟨pre, last, hsegs⟩
  · have hnone : lastSegment v = none := by
      have hnames : v.listing.names = [] := List.map_eq_nil_iff.1 hnil
      rw [lastSegment, hnames]
      rfl
    refine ⟨a, rfl, List.prefix_rfl, fun e he _ => he, ?_⟩
    rw [cutLast, hnone]
    exact recovers hstands hvote hfits
  · obtain ⟨first, file⟩ := last
    have hlast := lastSegment_eq hsegs hinc
    obtain ⟨a', hpurged, hentries, hbelow, hcut⟩ := hstands.cut hsegs len
    have hview : Looks ⟨pre ++ [(first, file)], (dir v).purged, (view v).vote⟩ v := by
      rw [← hsegs]
      rfl
    have hne : ∀ x ∈ pre, x.1 ≠ first := by
      intro x hx
      rw [hsegs] at hinc
      exact Nat.ne_of_lt ((List.pairwise_append.1 hinc).2.2 x hx (first, file) (by simp))
    have hmod := hview.modify hne (List.take len)
    refine ⟨a', hpurged, hentries, ?_, ?_⟩
    · intro e he hlt
      obtain ⟨m, hm, hlt⟩ := hlt
      rw [hlast] at hm
      cases hm
      exact hbelow e he hlt
    · rw [cutLast, hlast]
      refine recovers ?_ ?_ (hfits.mono hpurged hentries)
      · have hdir : dir (v.modify first (List.take len)) =
            ⟨pre ++ [(first, file.take len)], (dir v).purged⟩ := congrArg LogView.dir hmod
        rw [hdir]
        exact hcut
      · exact hvote

end LogVolume

/-! ## Calls -/

theorem Repr.fits {w : Wire P} {o : LogOptions} {s : LogStore P} {a : AbstractLog P}
    (h : Repr w o s a) : a.Fits w := ⟨h.bytes, h.bound⟩

/-- An open store with its disk, between two calls. -/
structure LogNode.Sound (w : VoteWire P) (opts : LogOptions) (v : LogVolume) (n : LogNode P)
    (a : AbstractLog P) : Prop where
  repr : Repr w.toWire opts n.store a
  view : Looks (n.store.view (n.vote.map fun x => frame w.crc (w.votes.encode x))) v
  vote : ∀ x, n.vote = some x → (w.votes.encode x).length < 2 ^ 32

/-- Wherever the operations are interrupted, a log of `S` is found. -/
def CrashSafe (w : VoteWire P) (S : AbstractLog P → Prop) (v : LogVolume) (ops : List LogFileOp) :
    Prop :=
  ∀ k len, ∃ b, S b ∧ Stands w.toWire (LogVolume.dir (v.performAll (interrupted ops k len))) b ∧
    Voted w (LogVolume.view (v.performAll (interrupted ops k len))).vote

namespace LogNode

variable {opts : LogOptions} {v : LogVolume} {n : LogNode P} {a : AbstractLog P}

variable (h : Sound w opts v n a)
include h

theorem Sound.stands : Stands w.toWire (LogVolume.dir v) a := by
  have hdir : LogVolume.dir v = n.store.dir := congrArg LogView.dir h.view
  rw [hdir]
  exact h.repr.stands

theorem Sound.voted : Voted w (LogVolume.view v).vote :=
  ⟨n.vote, congrArg LogView.vote h.view, h.vote⟩

/-- A call that leaves the vote alone. -/
theorem Sound.through {S : AbstractLog P → Prop} {s' : LogStore P} {a' : AbstractLog P}
    {ops : List LogFileOp} (hrepr : Repr w.toWire opts s' a') (hS : S a')
    (hthrough : Vol.Through (Safe w.toWire S (n.vote.map fun x => frame w.crc (w.votes.encode x)))
      (Looks (s'.view (n.vote.map fun x => frame w.crc (w.votes.encode x)))) ops v) :
    Sound w opts (v.performAll ops) { n with store := s' } a' ∧ CrashSafe w S v ops := by
  refine ⟨⟨hrepr, hthrough.done, h.vote⟩, fun k len => ?_⟩
  obtain ⟨hvote, b, hb, hstands⟩ :=
    hthrough.interrupted (fun u hu => Safe.of_view hu hS hrepr.stands) k len
  exact ⟨b, hb, hstands, n.vote, hvote, h.vote⟩

theorem Sound.append {entries : List (Ent P)} (hissued : (LogCall.append entries).Issued w a) :
    ∃ n', n.exec w (.append entries) = .ok n' ∧
      Sound w opts (v.performAll (n.ops w (.append entries))) n' (a.append entries) ∧
      CrashSafe w (a.Extended (a.above entries)) v (n.ops w (.append entries)) := by
  obtain ⟨hes, hbound, hshort, hbytes⟩ := hissued
  obtain ⟨s', happend, hrepr⟩ := h.repr.append hes hbound hshort hbytes
  have hthrough := h.repr.through_append h.view hshort hes happend
  refine ⟨{ n with store := s' }, ?_, h.through hrepr ?_ hthrough⟩
  · rw [LogNode.exec, happend]
    rfl
  · exact ⟨rfl, List.prefix_append .., List.prefix_rfl⟩

theorem Sound.truncate {since : LogId} (hissued : (LogCall.truncate since : LogCall P).Issued w a) :
    ∃ n', n.exec w (.truncate since) = .ok n' ∧
      Sound w opts (v.performAll (n.ops w (.truncate since))) n' (a.truncate since.index) ∧
      CrashSafe w (a.Shortened since.index) v (n.ops w (.truncate since)) := by
  obtain ⟨s', htrunc, hrepr⟩ := h.repr.truncate hissued
  have hthrough := h.repr.through_truncate h.view hissued htrunc hrepr
  refine ⟨{ n with store := s' }, ?_, h.through hrepr h.repr.shortened_truncate hthrough⟩
  rw [LogNode.exec, htrunc]
  rfl

theorem Sound.purge {upto : LogId} (hissued : (LogCall.purge upto : LogCall P).Issued w a) :
    ∃ n', n.exec w (.purge upto) = .ok n' ∧
      Sound w opts (v.performAll (n.ops w (.purge upto))) n' (a.purge upto) ∧
      CrashSafe w (fun b => b = a ∨ b = a.purge upto) v (n.ops w (.purge upto)) := by
  obtain ⟨hbound, hshort⟩ := hissued
  obtain ⟨s', hpurge, hrepr⟩ := h.repr.purge hbound hshort
  have hthrough := h.repr.through_purge h.view hshort hpurge hrepr
  refine ⟨{ n with store := s' }, ?_, h.through hrepr (.inr rfl) hthrough⟩
  rw [LogNode.exec, hpurge]
  rfl

/-- The vote file is replaced at once. -/
theorem Sound.saveVote {vote : Vote} (hissued : (LogCall.saveVote vote : LogCall P).Issued w a) :
    ∃ n', n.exec w (.saveVote vote) = .ok n' ∧
      Sound w opts (v.performAll (n.ops w (.saveVote vote))) n' a ∧
      CrashSafe w (fun b => b = a) v (n.ops w (.saveVote vote)) := by
  have hshort : (w.votes.encode vote).length < 2 ^ 32 := hissued
  have hnew := h.view.replaceVote (frame w.crc (w.votes.encode vote))
  have hsync := hnew.syncDir
  have hvote : ∀ x, some vote = some x → (w.votes.encode x).length < 2 ^ 32 := by
    intro x hx
    cases hx
    exact hshort
  have hafter : ∀ u, Looks (n.store.view (some (frame w.crc (w.votes.encode vote)))) u →
      Sound w opts u { n with vote := some vote } a :=
    fun u hu => ⟨h.repr, hu, hvote⟩
  rw [LogNode.ops, if_pos hshort]
  refine ⟨{ n with vote := some vote }, by rw [LogNode.exec, if_pos hshort], hafter _ hsync, ?_⟩
  have hthrough : Vol.Through (fun u => Stands w.toWire (LogVolume.dir u) a ∧
      Voted w (LogVolume.view u).vote)
      (fun u => Stands w.toWire (LogVolume.dir u) a ∧ Voted w (LogVolume.view u).vote)
      [.replace .vote (frame w.crc (w.votes.encode vote)), .syncDir] v :=
    .cons (fun _ => rfl) ⟨h.stands, h.voted⟩
      (.cons (fun _ => rfl) ⟨(hafter _ hnew).stands, (hafter _ hnew).voted⟩
        ⟨(hafter _ hsync).stands, (hafter _ hsync).voted⟩)
  intro k len
  exact ⟨a, rfl, hthrough.interrupted (fun _ hu => hu) k len⟩

/-- Every call succeeds, and is safe to interrupt. -/
theorem Sound.call {c : LogCall P} (hissued : c.Issued w a) :
    ∃ n', n.exec w c = .ok n' ∧ Sound w opts (v.performAll (n.ops w c)) n' (a.call c) ∧
      CrashSafe w (c.Leaves a) v (n.ops w c) := by
  cases c with
  | append entries => exact h.append hissued
  | truncate since => exact h.truncate hissued
  | purge upto => exact h.purge hissued
  | saveVote vote => exact h.saveVote hissued

end LogNode

/-- What a call may leave is within the limits if what it makes of the log is. -/
theorem LogCall.Leaves.fits {c : LogCall P} {a b : AbstractLog P} (h : c.Leaves a b)
    (ha : a.Fits w.toWire) (hcall : (a.call c).Fits w.toWire) : b.Fits w.toWire := by
  cases c with
  | append entries => exact hcall.mono h.1 h.2.2
  | truncate since => exact ha.mono h.1 h.2.2
  | purge upto =>
    rcases h with rfl | rfl
    · exact ha
    · exact hcall
  | saveVote vote =>
    cases h
    exact ha

/-! ## Whole runs -/

/-- Opening what stands for the log. -/
theorem LogDisk.reopen_sound {d : LogDisk P} (hstands : Stands w.toWire (LogVolume.dir d.vol) d.log)
    (hvote : Voted w (LogVolume.view d.vol).vote) (hfits : d.log.Fits w.toWire)
    (opts : LogOptions) :
    ∃ n, (d.step w (.reopen opts)).node = .ok n ∧
      n.Sound w opts (d.step w (.reopen opts)).vol (d.step w (.reopen opts)).log := by
  obtain ⟨n, hopen, hrepr, hfile, hshort, hthrough⟩ :=
    LogVolume.opens hstands hvote hfits opts
  have hdone := hthrough.done
  rw [hfile] at hdone
  exact ⟨n, hopen, hrepr, hdone, hshort⟩

theorem LogDisk.run_sound (w : VoteWire P) (opts : LogOptions) (uses : List (LogUse P)) :
    ∃ n opts', (run w opts uses).node = .ok n ∧
      n.Sound w opts' (run w opts uses).vol (run w opts uses).log := by
  have hstep : ∀ d, ∀ use ∈ uses, (∃ n o, d.node = .ok n ∧ n.Sound w o d.vol d.log) →
      ∃ n o, (step w d use).node = .ok n ∧ n.Sound w o (step w d use).vol (step w d use).log := by
    intro d use _ hd
    obtain ⟨n, o, hn, hsound⟩ := hd
    cases use with
    | call c =>
      simp only [step, hn]
      split
      next hissued =>
        obtain ⟨n', hexec, hsound', -⟩ := hsound.call hissued
        exact ⟨n', o, hexec, hsound'⟩
      next => exact ⟨n, o, hn, hsound⟩
    | reopen o' =>
      obtain ⟨n', hopen, hsound'⟩ := reopen_sound hsound.stands hsound.voted hsound.repr.fits o'
      exact ⟨n', o', hopen, hsound'⟩
  have hstands : Stands w.toWire (LogVolume.dir (.empty : LogVolume)) ({} : AbstractLog P) :=
    ⟨rfl, fun id hid => (by cases hid), 0, [], .nil, Nat.zero_le _, rfl⟩
  have hvote : Voted w (LogVolume.view (.empty : LogVolume)).vote :=
    ⟨none, rfl, fun x hx => (by cases hx)⟩
  have hfits : ({} : AbstractLog P).Fits w.toWire := ⟨Nat.two_pow_pos 64, Nat.zero_le _⟩
  obtain ⟨n, hopen, hsound⟩ := reopen_sound (d := init) hstands hvote hfits opts
  exact Loop.foldl_inv uses hstep ⟨n, opts, hopen, hsound⟩

/-- A crash in the middle of a call, wherever: `open` succeeds, and finds the log with
the entries of an append up to some point, with the entries above a truncation up to
some point, or with the purge marker before or after a purge. If the newest segment
file is cut in addition, entries at the end go, but none of an earlier file. -/
theorem log_crash_recovery (w : VoteWire P) (opts : LogOptions) (uses : List (LogUse P))
    (c : LogCall P) (k len : Nat) :
    let d := LogDisk.run w opts uses
    ∃ n, d.node = .ok n ∧ n.store.Shows w.toWire d.log ∧
      (c.Issued w d.log →
        let v := d.vol.performAll (interrupted (n.ops w c) k len)
        ∃ a, c.Leaves d.log a ∧ LogVolume.Recovers w v a ∧
          ∀ len', ∃ a', a'.purged = a.purged ∧ a'.entries <+: a.entries ∧
            (∀ e ∈ a.entries, (∃ m ∈ LogVolume.lastSegment v, e.index < m) → e ∈ a'.entries) ∧
            LogVolume.Recovers w (LogVolume.cutLast v len') a') := by
  obtain ⟨n, opts', hn, hsound⟩ := LogDisk.run_sound w opts uses
  refine ⟨n, hn, hsound.repr.shows, fun hissued => ?_⟩
  obtain ⟨n', -, hsound', hsafe⟩ := hsound.call hissued
  obtain ⟨a, ha, hstands, hvote⟩ := hsafe k len
  have hfits : a.Fits w.toWire := ha.fits hsound.repr.fits hsound'.repr.fits
  exact ⟨a, ha, LogVolume.recovers hstands hvote hfits,
    fun len' => LogVolume.recovers_cutLast hstands hvote hfits len'⟩

/-- A vote as the log id of its term and node, with the flag as the index. -/
def unaryVote (v : Vote) : Bytes := unaryId ⟨v.term, v.node, if v.committed then 1 else 0⟩

def readUnaryVote (b : Bytes) : Vote :=
  let id := readUnaryId b
  { term := id.term, node := id.node, committed := id.index = 1 }

theorem readUnaryVote_unaryVote (v : Vote) : readUnaryVote (unaryVote v) = v := by
  obtain ⟨term, node, committed⟩ := v
  rw [readUnaryVote, unaryVote, readUnaryId_unaryId]
  cases committed <;> rfl

def unaryVotes : VoteWire Unit where
  toWire := unaryWire
  votes :=
    { encode := unaryVote, decode := fun b => .ok (readUnaryVote b)
      decode_encode := fun v => congrArg Except.ok (readUnaryVote_unaryVote v)
      encode_ne_nil := fun _ => unaryId_ne_nil _ }

/-- Two entries, each in a segment of its own. -/
def firstTwo : LogCall Unit := .append [⟨⟨1, 1, 0⟩, ()⟩, ⟨⟨1, 1, 1⟩, ()⟩]

/-- A crash in the header of the second segment. -/
theorem torn_header_recovered :
    firstTwo.Issued unaryVotes {} ∧
      ∃ n, (LogDisk.run unaryVotes tightOptions []).node = .ok n ∧
        ∃ a, firstTwo.Leaves {} a ∧ LogVolume.Recovers unaryVotes
          ((LogDisk.run unaryVotes tightOptions []).vol.performAll
            (interrupted (n.ops unaryVotes firstTwo) 7 10)) a := by
  obtain ⟨n, hn, -, hcrash⟩ := log_crash_recovery unaryVotes tightOptions [] firstTwo 7 10
  have hissued : firstTwo.Issued unaryVotes {} := by decide
  obtain ⟨a, ha, hrecovers, -⟩ := hcrash hissued
  exact ⟨hissued, n, hn, a, ha, hrecovers⟩

end Beanstalkd.Raft
