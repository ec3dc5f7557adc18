import Beanstalkd.Store.WalSync
import Beanstalkd.Server.EngineActor

/-!
# What a power loss can take under an interval policy

`docs/OPERATIONS.md` 3.1: with `-f MS` a power loss loses at most the last MS ms of
acknowledged changes. A record is safe once its segment was synced after it was
written, so after the actor has handled something at time `t` every record
written at or before `t - every` should be followed by a sync of its segment.

Two things keep the actor from that. Every write moves the deadline `syncAt` of
the next sync, also when older records wait for it; and a message that is handled
after the deadline, because it was queued, does not sync unless it writes. `Timely`
excludes both: what remains is the documented bound.
-/

namespace Beanstalkd.Server

open Store

variable (crc : Bytes → UInt32) {p : List (Nanos × Nat)} {ops : List (Nanos × FileOp)}
  {every : Nanos}

namespace EngineActor

/-- The actor with its message or timer handled, before anything is written. -/
def prepared (a : EngineActor) (t : Nanos) (ev : Wake) : EngineActor :=
  let a := match ev with
    | .message msg => a.clearOutbox.applyEngineMsg (a.clock.now t) msg
    | .timer => { a.clearOutbox with binlog := syncTimer a.binlog t }
  a.mapEngine (·.tick (a.clock.now t))

/-- `persist` has something to do. -/
def hasWork (a : EngineActor) : Bool := !a.engine.journal.isEmpty || a.binlog.reserved

/-- Handling `ev` at time `t` does not delay a sync that unsynced records wait for:
the timer is due and fires, or a step that writes finds the last sync at least
`every` ago and one that journals nothing comes before the deadline. -/
def Timely (every : Nanos) (a : EngineActor) (t : Nanos) (ev : Wake) : Prop :=
  a.binlog.log.unsynced = true →
    (ev.isTimer = true ∧ a.binlog.syncAt.any (· ≤ t)) ∨
      (((a.prepared t ev).hasWork → a.binlog.log.lastSync.all (· + every ≤ t)) ∧
        ((a.prepared t ev).engine.journal.isEmpty → a.binlog.syncAt.all (t < ·)))

instance (every : Nanos) (a : EngineActor) (t : Nanos) (ev : Wake) :
    Decidable (a.Timely every t ev) :=
  inferInstanceAs (Decidable (_ → _))

/-- Every step of a run is timely. -/
def TimelyRun (every : Nanos) : EngineActor → List (Nanos × Wake) → Prop
  | _, [] => True
  | a, (t, ev) :: rest => a.Timely every t ev ∧ TimelyRun every (a.wake crc t ev) rest

instance decidableTimelyRun (every : Nanos) :
    (a : EngineActor) → (steps : List (Nanos × Wake)) → Decidable (TimelyRun crc every a steps)
  | _, [] => isTrue trivial
  | a, (t, ev) :: rest =>
    have := decidableTimelyRun every (a.wake crc t ev) rest
    inferInstanceAs (Decidable (_ ∧ _))

/-- No step comes later than the actor waits for a message. -/
def prompt : EngineActor → List (Nanos × Wake) → Bool
  | _, [] => true
  | a, (t, ev) :: rest => a.nextWake.all (t ≤ ·) && prompt (a.wake crc t ev) rest

end EngineActor

/-- A run of the actor, with the time of every file operation. -/
structure Timed where
  actor : EngineActor
  ops : List (Nanos × FileOp) := []

namespace Timed

def step (s : Timed) (x : Nanos × EngineActor.Wake) : Timed :=
  let actor := s.actor.wake crc x.1 x.2
  let new := actor.binlog.log.disk.ops.drop s.actor.binlog.log.disk.ops.length
  { actor, ops := s.ops ++ new.map fun op => (x.1, op) }

def run (s : Timed) (steps : List (Nanos × EngineActor.Wake)) : Timed := steps.foldl (step crc) s

end Timed

/-- Every record written at or before `t - every` is followed by a sync of its
segment. -/
def Covered (every t : Nanos) (ops : List (Nanos × FileOp)) : Prop :=
  ∀ pre r seg off data entries post, ops = pre ++ (r, .write seg off data entries) :: post →
    r + every ≤ t → ∃ u, (u, .sync seg) ∈ post

/-- The exposed writes of a run. -/
def uncovered (ops : List (Nanos × FileOp)) : List (Nanos × Nat) :=
  ops.foldl (fun p x => exposed x.1 p x.2) []

theorem uncovered_append (ops : List (Nanos × FileOp)) (t : Nanos) (new : List FileOp) :
    uncovered (ops ++ new.map fun op => (t, op)) = after t (uncovered ops) new := by
  rw [uncovered, List.foldl_append, List.foldl_map]
  rfl

theorem uncovered_snoc (ops : List (Nanos × FileOp)) (x : Nanos × FileOp) :
    uncovered (ops ++ [x]) = exposed x.1 (uncovered ops) x.2 := List.foldl_concat ..

/-- Only a sync of its segment covers a write. -/
theorem exposed_keeps {x : Nanos × Nat} (hx : x ∈ p) (t : Nanos) {op : FileOp}
    (hop : op ≠ .sync x.2) : x ∈ exposed t p op := by
  cases op with
  | write => exact List.mem_append_left _ hx
  | sync seg => exact List.mem_filter.2 ⟨hx, by simpa using fun h => hop (by rw [h])⟩
  | _ => exact hx

theorem exposed_cases {x : Nanos × Nat} {t : Nanos} {op : FileOp} (hx : x ∈ exposed t p op) :
    (x ∈ p ∧ op ≠ .sync x.2) ∨ ∃ off data entries, x.1 = t ∧ op = .write x.2 off data entries := by
  cases op with
  | write seg off data entries =>
    rcases List.mem_append.1 hx with hx | hx
    · exact .inl ⟨hx, by simp⟩
    · rw [List.mem_singleton.1 hx]
      exact .inr ⟨off, data, entries, rfl, rfl⟩
  | sync seg =>
    obtain ⟨hx, hne⟩ := List.mem_filter.1 hx
    refine .inl ⟨hx, fun h => ?_⟩
    injection h with h
    simp [h] at hne
  | _ => exact .inl ⟨hx, by simp⟩

theorem mem_uncovered {r : Nanos} {seg : Nat} :
    (r, seg) ∈ uncovered ops ↔ ∃ pre off data entries post,
      ops = pre ++ (r, .write seg off data entries) :: post ∧ ∀ u, (u, .sync seg) ∉ post := by
  constructor
  · intro h
    induction ops using List.reverseRecOn with
    | nil => cases h
    | append_singleton ops x ih =>
      obtain ⟨u, op⟩ := x
      rw [uncovered_snoc] at h
      rcases exposed_cases h with ⟨h, hne⟩ | ⟨off, data, entries, rfl, rfl⟩
      · obtain ⟨pre, off, data, entries, post, rfl, hpost⟩ := ih h
        refine ⟨pre, off, data, entries, post ++ [(u, op)], by simp, fun u' hu' => ?_⟩
        rcases List.mem_append.1 hu' with hu' | hu'
        · exact hpost u' hu'
        · exact hne (congrArg Prod.snd (List.mem_singleton.1 hu')).symm
      · exact ⟨ops, off, data, entries, [], rfl, fun _ hu' => nomatch hu'⟩
  · rintro ⟨pre, off, data, entries, post, rfl, hpost⟩
    induction post using List.reverseRecOn with
    | nil =>
      rw [uncovered_snoc]
      exact List.mem_append_right _ (List.mem_singleton.2 rfl)
    | append_singleton post x ih =>
      rw [← List.cons_append, ← List.append_assoc, uncovered_snoc]
      refine exposed_keeps (ih fun u hu => hpost u (List.mem_append_left _ hu)) _ fun h => ?_
      exact hpost x.1 (List.mem_append_right _ (List.mem_singleton.2 (by rw [← h])))

/-- The writes that are still exposed are young. -/
theorem covered_iff {t : Nanos} : Covered every t ops ↔ ∀ x ∈ uncovered ops, t < x.1 + every := by
  constructor
  · intro h x hx
    obtain ⟨pre, off, data, entries, post, hops, hpost⟩ := mem_uncovered.1 hx
    refine Nat.lt_of_not_le fun hle => ?_
    obtain ⟨u, hu⟩ := h _ _ _ _ _ _ _ hops hle
    exact hpost u hu
  · intro h pre r seg off data entries post hops hle
    by_contra hnone
    have hmem := mem_uncovered.2 ⟨pre, off, data, entries, post, hops, not_exists.1 hnone⟩
    exact Nat.not_lt.2 hle (h _ hmem)

/-! ## One step -/

namespace EngineActor

/-- The binlog at time `t`, with the exposed writes `p`. -/
structure Steady (every t : Nanos) (b : Binlog) (p : List (Nanos × Nat)) : Prop where
  policy : b.policy = .interval every
  logPolicy : b.log.policy = .interval every
  buf : b.log.buf = []
  counter : b.recordsWritten = b.log.recordsWritten
  exposes : b.log.Exposes p
  lastSync : ∀ l, b.log.lastSync = some l → l ≤ t ∧ ∀ d, b.syncAt = some d → l + every ≤ d

/-- Between two steps, the last one at `t`: what is exposed is young, and due in time. -/
structure Window (every t : Nanos) (b : Binlog) (p : List (Nanos × Nat)) : Prop
    extends Steady every t b p where
  soon : ∀ x ∈ p, t < x.1 + every ∧ ∃ d, b.syncAt = some d ∧ d ≤ x.1 + every

/-- Before the writing of a step at `t`: what is exposed will be synced by it, or is
due later. -/
structure Prepared (every t : Nanos) (a : EngineActor) (p : List (Nanos × Nat)) : Prop
    extends Steady every t a.binlog p where
  due : p ≠ [] → a.hasWork = true → ∀ l, a.binlog.log.lastSync = some l → l + every ≤ t
  soon : ∀ x ∈ p, ∃ d, a.binlog.syncAt = some d ∧ d ≤ x.1 + every ∧
    (a.engine.journal = [] → t < d)

/-- The engine's call and tick leave the binlog alone, but for a put's reservation. -/
structure Reserves (b b' : Binlog) : Prop where
  policy : b'.policy = b.policy
  counter : b'.recordsWritten = b.recordsWritten
  syncAt : b'.syncAt = b.syncAt
  writes : b.log.Writes b'.log
  recordsWritten : b'.log.recordsWritten = b.log.recordsWritten

theorem Reserves.refl (b : Binlog) : Reserves b b := ⟨rfl, rfl, rfl, .refl _, rfl⟩

theorem command_reserves (a : EngineActor) (now : Nanos) (conn : ConnId) (cmd : Command) :
    Reserves a.binlog (a.command now conn cmd).binlog := by
  cases cmd with
  | put pri delay ttr body =>
    rw [command]
    split
    · exact .refl _
    dsimp only
    split
    · exact ⟨rfl, rfl, rfl, Wal.reservePut_writes _ _ _, Wal.reservePut_recordsWritten _ _ _⟩
    · exact ⟨rfl, rfl, rfl, Wal.reservePut_writes _ _ _, Wal.reservePut_recordsWritten _ _ _⟩
  | _ => exact .refl _

theorem applyEngineMsg_reserves (a : EngineActor) (now : Nanos) (msg : EngineMsg) :
    Reserves a.binlog (a.applyEngineMsg now msg).binlog := by
  cases msg with
  | command conn cmd => exact command_reserves a now conn cmd
  | _ => exact .refl _

variable {every t : Nanos} {a : EngineActor} {p : List (Nanos × Nat)} {ev : Wake} {b : Binlog}
  {journal : List JournalEntry}

theorem never_ne {policy : SyncPolicy} (h : policy = .interval every) : policy ≠ .never := by
  rw [h]
  exact SyncPolicy.noConfusion

/-- The due timer syncs. -/
theorem syncTimer_due {t₀ : Nanos} (h : Window every t₀ a.binlog p)
    (hdue : a.binlog.syncAt.any (· ≤ t)) :
    ∃ log new, syncTimer a.binlog t = { a.binlog with syncAt := none, log } ∧
      log.disk.ops = a.binlog.log.disk.ops ++ new ∧ after t p new = [] ∧
      log.policy = a.binlog.log.policy ∧ log.buf = a.binlog.log.buf ∧
      log.recordsWritten = a.binlog.log.recordsWritten ∧
      (log.lastSync = a.binlog.log.lastSync ∨ log.lastSync = some t) := by
  refine ⟨a.binlog.log.syncIfDue t, ?_⟩
  rw [syncTimer, if_pos hdue]
  obtain ⟨d, hd, hle⟩ := (Option.any_eq_true ..).1 hdue
  rcases Wal.syncIfDue_cases h.logPolicy t with ⟨heq, hwhy⟩ | heq
  · refine ⟨[], rfl, by rw [heq, List.append_nil], ?_, by rw [heq], by rw [heq], by rw [heq],
      .inl (by rw [heq])⟩
    -- the last sync is not recent, since it was before the deadline was set
    show p = []
    rw [List.eq_nil_iff_forall_not_mem]
    intro x hx
    rcases hwhy with hun | ⟨l, hl, hlt⟩
    · exact absurd (hun.symm.trans (h.exposes x hx).2) (by simp)
    · have hdl := (h.lastSync l hl).2 d hd
      exact Nat.not_lt.2 (Nat.le_trans hdl (of_decide_eq_true hle)) hlt
  · refine ⟨[.sync a.binlog.log.current.index], rfl, by rw [heq]; rfl, ?_, by rw [heq]; rfl,
      by rw [heq]; rfl, by rw [heq]; rfl, .inr (by rw [heq]; rfl)⟩
    exact Wal.after_sync h.exposes t

/-- Handling a message or a timer in time. -/
theorem prepared_of_window {t₀ : Nanos} (h : Window every t₀ a.binlog p) (ht : t₀ ≤ t)
    (htime : a.Timely every t ev) :
    ∃ new, (a.prepared t ev).binlog.log.disk.ops = a.binlog.log.disk.ops ++ new ∧
      Prepared every t (a.prepared t ev) (after t p new) := by
  by_cases hdue : ev.isTimer = true ∧ a.binlog.syncAt.any (· ≤ t)
  · obtain ⟨htimer, hdue⟩ := hdue
    obtain rfl : ev = .timer := by
      cases ev with
      | message => cases htimer
      | timer => rfl
    obtain ⟨log, new, heq, hops, hnone, hpol, hbuf, hrec, hlast⟩ := syncTimer_due h hdue
    have hb : (a.prepared t .timer).binlog = { a.binlog with syncAt := none, log } := heq
    refine ⟨new, by rw [hb]; exact hops, ?_⟩
    rw [hnone]
    refine ⟨⟨?_, ?_, ?_, ?_, ?_, ?_⟩, ?_, ?_⟩
    · rw [hb]; exact h.policy
    · rw [hb]; exact hpol.trans h.logPolicy
    · rw [hb]; exact hbuf.trans h.buf
    · rw [hb]; exact h.counter.trans hrec.symm
    · exact fun x hx => nomatch hx
    · intro l hl
      rw [hb] at hl ⊢
      refine ⟨?_, fun d hd => nomatch hd⟩
      rcases hlast with hlast | hlast
      · exact Nat.le_trans (h.lastSync l (hlast ▸ hl)).1 ht
      · exact Nat.le_of_eq (Option.some.inj (hl.symm.trans hlast))
    · exact fun hne => absurd rfl hne
    · exact fun x hx => nomatch hx
  · have hres : Reserves a.binlog (a.prepared t ev).binlog := by
      cases ev with
      | message msg => exact applyEngineMsg_reserves a.clearOutbox _ msg
      | timer =>
        have hb : (a.prepared t .timer).binlog = a.binlog := by
          show syncTimer a.binlog t = a.binlog
          rw [syncTimer, if_neg fun hd => hdue ⟨rfl, hd⟩]
        rw [hb]
        exact .refl _
    obtain ⟨new, hops, hexp⟩ := hres.writes.exposes (never_ne h.logPolicy)
    obtain ⟨hexp', -, hidle⟩ := hexp t p h.exposes
    obtain ⟨hbuf, hsub⟩ := hidle hres.recordsWritten h.buf
    -- an exposed write is one from before, and the step is timely for it
    have htimely : ∀ x ∈ after t p new,
        ((a.prepared t ev).hasWork → a.binlog.log.lastSync.all (· + every ≤ t)) ∧
          ((a.prepared t ev).engine.journal.isEmpty → a.binlog.syncAt.all (t < ·)) := fun x hx =>
      (htime (h.exposes x (hsub x hx)).2).resolve_left hdue
    refine ⟨new, hops, ⟨?_, ?_, hbuf, ?_, hexp', ?_⟩, ?_, ?_⟩
    · exact hres.policy.trans h.policy
    · exact hres.writes.policy.trans h.logPolicy
    · exact hres.counter.trans (h.counter.trans hres.recordsWritten.symm)
    · intro l hl
      rw [hres.writes.lastSync] at hl
      rw [hres.syncAt]
      exact ⟨Nat.le_trans (h.lastSync l hl).1 ht, (h.lastSync l hl).2⟩
    · intro hne hwork l hl
      obtain ⟨x, hx⟩ := List.exists_mem_of_ne_nil _ hne
      rw [hres.writes.lastSync] at hl
      have hall := (htimely x hx).1 hwork
      rw [hl] at hall
      exact of_decide_eq_true hall
    · intro x hx
      obtain ⟨d, hd, hle⟩ := (h.soon x (hsub x hx)).2
      refine ⟨d, hres.syncAt.trans hd, hle, fun hj => ?_⟩
      have hall := (htimely x hx).2 (List.isEmpty_iff.2 hj)
      rw [hd] at hall
      exact of_decide_eq_true hall

/-- The journal is written, and the log maintained. -/
theorem writeJournal_writes (b : Binlog) (journal : List JournalEntry) :
    b.log.Writes (writeJournal crc b journal).log :=
  (Wal.append_writes crc b.log journal).andThen fun _ => Wal.maintain_writes crc _

theorem writeJournal_buf (hok : (writeJournal crc b journal).log.failure = none) :
    (writeJournal crc b journal).log.buf = [] := by
  obtain ⟨happend, hmaintain, heq⟩ := Wal.andThen_ok hok
  show ((b.log.append crc journal).andThen (·.maintain crc)).buf = []
  rw [heq]
  exact Wal.maintain_buf (Wal.append_buf happend) hmaintain

theorem writeJournal_counted (hne : journal ≠ [])
    (hok : (writeJournal crc b journal).log.failure = none) :
    b.log.recordsWritten < (writeJournal crc b journal).log.recordsWritten := by
  obtain ⟨happend, -, heq⟩ := Wal.andThen_ok hok
  show _ < ((b.log.append crc journal).andThen (·.maintain crc)).recordsWritten
  rw [heq]
  exact Nat.lt_of_lt_of_le (Wal.append_counted hne happend) (Wal.maintain_writes crc _).counted

/-- After a write: what is exposed was written just now, or all is synced. -/
theorem noteWrite_window (hpolicy : b.policy = .interval every)
    (hlog : b.log.policy = .interval every) (hbuf : b.log.buf = [])
    (hnew : b.log.recordsWritten ≠ b.recordsWritten) (hexp : b.log.Exposes p)
    (hlast : ∀ l, b.log.lastSync = some l → l ≤ t)
    (hold : (∃ x ∈ p, x.1 ≠ t) → ∀ l, b.log.lastSync = some l → l + every ≤ t) :
    ∃ new, (noteWrite b t).log.disk.ops = b.log.disk.ops ++ new ∧
      Window every t (noteWrite b t) (after t p new) := by
  have heq : noteWrite b t = { b with
      recordsWritten := b.log.recordsWritten
      log := b.log.syncIfDue t
      syncAt := some (t + every) } := by
    rw [noteWrite, if_neg hnew]
    rw [hpolicy]
  rw [heq]
  rcases Wal.syncIfDue_cases hlog t with ⟨hsame, hwhy⟩ | hsync
  · rw [hsame]
    refine ⟨[], (List.append_nil _).symm, ⟨hpolicy, hlog, hbuf, rfl, hexp, fun l hl => ?_⟩,
      fun x hx => ?_⟩
    · refine ⟨hlast l hl, fun d hd => ?_⟩
      rw [← Option.some.inj hd]
      exact Nat.add_le_add_right (hlast l hl) every
    -- the last sync was less than `every` ago, so nothing older is exposed
    rcases hwhy with hun | ⟨l, hl, hlt⟩
    · exact absurd (hun.symm.trans (hexp x hx).2) (by simp)
    have hxt : x.1 = t := by
      by_contra hne
      exact Nat.not_lt.2 (hold ⟨x, hx, hne⟩ l hl) hlt
    rw [hxt]
    exact ⟨Nat.lt_of_lt_of_le hlt (Nat.add_le_add_right (hlast l hl) every),
      t + every, rfl, Nat.le_refl _⟩
  · rw [hsync]
    refine ⟨[.sync b.log.current.index], rfl, ?_⟩
    rw [Wal.after_sync hexp]
    refine ⟨⟨hpolicy, hlog, hbuf, rfl, fun _ hx => (nomatch hx), fun l hl => ?_⟩,
      fun _ hx => nomatch hx⟩
    rw [← Option.some.inj hl]
    refine ⟨Nat.le_refl _, fun d hd => ?_⟩
    rw [← Option.some.inj hd]

/-- The journal of a step is written in time. -/
theorem writeJournal_window (h : Prepared every t a p) (hwork : a.hasWork = true)
    (hok : (writeJournal crc a.binlog a.engine.journal).log.failure = none) :
    ∃ new, (noteWrite (writeJournal crc a.binlog a.engine.journal) t).log.disk.ops =
        a.binlog.log.disk.ops ++ new ∧
      Window every t (noteWrite (writeJournal crc a.binlog a.engine.journal) t)
        (after t p new) := by
  have hw := writeJournal_writes crc a.binlog a.engine.journal
  obtain ⟨new, hops, hexp⟩ := hw.exposes (never_ne h.logPolicy)
  obtain ⟨hexp, hfrom, hidle⟩ := hexp t p h.exposes
  have hcounter : (writeJournal crc a.binlog a.engine.journal).recordsWritten =
      a.binlog.log.recordsWritten := h.counter
  by_cases hsame : (writeJournal crc a.binlog a.engine.journal).log.recordsWritten =
      (writeJournal crc a.binlog a.engine.journal).recordsWritten
  · -- nothing was journaled, so the step is before the deadline
    have hempty : a.engine.journal = [] := by
      by_contra hne
      have hlt := writeJournal_counted crc hne hok
      rw [hsame, hcounter] at hlt
      exact Nat.lt_irrefl _ hlt
    obtain ⟨hbuf, hsub⟩ := hidle (hsame.trans hcounter) h.buf
    rw [noteWrite, if_pos hsame]
    refine ⟨new, hops, ⟨h.policy, hw.policy.trans h.logPolicy, hbuf, hsame.symm, hexp,
      fun l hl => h.lastSync l (hw.lastSync ▸ hl)⟩, fun x hx => ?_⟩
    obtain ⟨d, hd, hle, hlt⟩ := h.soon x (hsub x hx)
    exact ⟨Nat.lt_of_lt_of_le (hlt hempty) hle, d, hd, hle⟩
  · have hold : (∃ x ∈ after t p new, x.1 ≠ t) →
        ∀ l, (writeJournal crc a.binlog a.engine.journal).log.lastSync = some l →
          l + every ≤ t := by
      rintro ⟨x, hx, hne⟩ l hl
      have hp := (hfrom x hx).resolve_right hne
      exact h.due (List.ne_nil_of_mem hp) hwork l (hw.lastSync ▸ hl)
    have hpolicy : (writeJournal crc a.binlog a.engine.journal).policy = .interval every := h.policy
    obtain ⟨new', hops', hwindow⟩ := noteWrite_window hpolicy (hw.policy.trans h.logPolicy)
      (writeJournal_buf crc hok) hsame hexp (fun l hl => (h.lastSync l (hw.lastSync ▸ hl)).1) hold
    refine ⟨new ++ new', by rw [hops', hops, List.append_assoc], ?_⟩
    rwa [after_append]

theorem persist_window (h : Prepared every t a p) (halive : (a.persist crc t).alive = true) :
    ∃ new, (a.persist crc t).binlog.log.disk.ops = a.binlog.log.disk.ops ++ new ∧
      Window every t (a.persist crc t).binlog (after t p new) := by
  rw [persist] at halive ⊢
  dsimp only at halive ⊢
  split at halive
  next hidle =>
    rw [if_pos hidle]
    refine ⟨[], (List.append_nil _).symm, h.toSteady, fun x hx => ?_⟩
    obtain ⟨d, hd, hle, hlt⟩ := h.soon x hx
    exact ⟨Nat.lt_of_lt_of_le (hlt (List.isEmpty_iff.1 hidle.1)) hle, d, hd, hle⟩
  next hwork =>
    rw [if_neg hwork]
    split at halive
    next hfail =>
      exact absurd (Option.isNone_iff_eq_none.1 halive) (Option.isSome_iff_ne_none.1 hfail)
    next hok =>
      rw [if_neg hok]
      refine writeJournal_window crc h ?_ (Option.not_isSome_iff_eq_none.1 hok)
      rw [hasWork, Bool.or_eq_true, Bool.not_eq_true', ← Bool.not_eq_true, ← imp_iff_not_or]
      simpa using hwork

/-- A step that succeeds prepares, and writes what it has prepared. -/
theorem wake_persist (a : EngineActor) (t : Nanos) (ev : Wake)
    (halive : (a.wake crc t ev).alive = true) :
    (((a.prepared t ev).persist crc t).alive = true) ∧
      (a.wake crc t ev).binlog = ((a.prepared t ev).persist crc t).binlog := by
  have hfinish : a.wake crc t ev = a ∧ a.alive = false ∨ (a.wake crc t ev).binlog =
      ((a.prepared t ev).persist crc t).binlog := by
    have hdeliver (a : EngineActor) : (if a.alive then a.deliver else a).binlog = a.binlog := by
      split <;> rfl
    unfold wake
    split
    next hdead => exact .inl ⟨rfl, by simpa using hdead⟩
    · cases ev <;> exact .inr (hdeliver _)
  rcases hfinish with ⟨heq, hdead⟩ | heq
  · rw [heq, hdead] at halive
    cases halive
  · rw [alive, heq] at halive
    exact ⟨halive, heq⟩

/-- A timely step keeps the window. -/
theorem wake_window {t₀ : Nanos} (h : Window every t₀ a.binlog p) (ht : t₀ ≤ t)
    (htime : a.Timely every t ev) (halive : (a.wake crc t ev).alive = true) :
    ∃ new, (a.wake crc t ev).binlog.log.disk.ops = a.binlog.log.disk.ops ++ new ∧
      Window every t (a.wake crc t ev).binlog (after t p new) := by
  obtain ⟨new, hops, hprep⟩ := prepared_of_window h ht htime
  have hstep := wake_persist crc a t ev halive
  obtain ⟨new', hops', hwindow⟩ := persist_window crc hprep hstep.1
  rw [hstep.2]
  refine ⟨new ++ new', by rw [hops', hops, List.append_assoc], ?_⟩
  rwa [after_append]

theorem wake_dead (h : a.alive = false) : a.wake crc t ev = a := by
  unfold wake
  rw [if_pos (by rw [h]; rfl)]

end EngineActor

/-! ## Whole runs -/

theorem openWal_window {opts : WalOptions} {disk : Disk} {log : Wal} {recovery : Recovery}
    (hopen : (openWal crc opts disk).result = .ok (log, recovery))
    (hsync : opts.sync = .interval every) (clock : Clock) (engine : Engine) :
    EngineActor.Window every 0 (EngineActor.new clock engine log opts.sync).binlog [] := by
  obtain ⟨hpolicy, hlast, hbuf⟩ := openWal_fresh hopen
  refine ⟨⟨hsync, hpolicy.trans hsync, hbuf, rfl, fun _ hx => (nomatch hx), fun l hl => ?_⟩,
    fun _ hx => nomatch hx⟩
  cases hlast.symm.trans hl

/-- One timely step of a run. -/
theorem Timed.step_window {t u : Nanos} {ev : EngineActor.Wake} {s : Timed}
    (hs : s.actor.alive = true → EngineActor.Window every t s.actor.binlog (uncovered s.ops))
    (ht : t ≤ u) (htimely : s.actor.Timely every u ev)
    (halive : (s.step crc (u, ev)).actor.alive = true) :
    EngineActor.Window every u (s.step crc (u, ev)).actor.binlog
      (uncovered (s.step crc (u, ev)).ops) := by
  have hbefore : s.actor.alive = true := by
    by_contra hdead
    rw [Bool.not_eq_true] at hdead
    rw [Timed.step, EngineActor.wake_dead crc hdead] at halive
    exact absurd halive (by rw [hdead]; exact Bool.false_ne_true)
  obtain ⟨new, hops, hwindow⟩ := EngineActor.wake_window crc (hs hbefore) ht htimely halive
  have hnew : (s.step crc (u, ev)).ops = s.ops ++ new.map fun op => (u, op) := by
    rw [Timed.step]
    rw [hops, List.drop_left]
  rw [hnew, uncovered_append]
  exact hwindow

theorem Timed.run_window {t : Nanos} (steps : List (Nanos × EngineActor.Wake)) (s : Timed)
    (hs : s.actor.alive = true → EngineActor.Window every t s.actor.binlog (uncovered s.ops))
    (hmono : (t :: steps.map Prod.fst).Pairwise (· ≤ ·))
    (htimely : s.actor.TimelyRun crc every steps) :
    (s.run crc steps).actor.alive = true →
      EngineActor.Window every ((steps.map Prod.fst).getLastD t) (s.run crc steps).actor.binlog
        (uncovered (s.run crc steps).ops) := by
  induction steps generalizing s t with
  | nil => exact hs
  | cons x steps ih =>
    obtain ⟨u, ev⟩ := x
    obtain ⟨hle, hmono⟩ := List.pairwise_cons.1 hmono
    rw [List.map_cons, List.getLastD_cons]
    exact ih (s.step crc (u, ev))
      (Timed.step_window crc hs (hle u List.mem_cons_self) htimely.1) hmono htimely.2

/-- In every run whose steps are all timely, whenever the actor has handled
something at time `t`, every record written at or before `t - every` is covered by
a sync of its segment. -/
theorem loss_window_bounded (opts : WalOptions) (disk : Disk) (every : Nanos) (log : Wal)
    (recovery : Recovery) (hopen : (openWal crc opts disk).result = .ok (log, recovery))
    (hsync : opts.sync = .interval every) (clock : Clock) (engine : Engine)
    (steps : List (Nanos × EngineActor.Wake)) (t : Nanos) (ev : EngineActor.Wake)
    (hmono : ((steps ++ [(t, ev)]).map Prod.fst).Pairwise (· ≤ ·))
    (htimely : (EngineActor.new clock engine log opts.sync).TimelyRun crc every
      (steps ++ [(t, ev)])) :
    let s := Timed.run crc { actor := .new clock engine log opts.sync } (steps ++ [(t, ev)])
    s.actor.alive = true → Covered every t s.ops := by
  intro s halive
  have hstart := openWal_window crc hopen hsync clock engine
  have hwindow := Timed.run_window crc (steps ++ [(t, ev)])
    { actor := .new clock engine log opts.sync } (fun _ => hstart)
    (List.pairwise_cons.2 ⟨fun _ _ => Nat.zero_le _, hmono⟩) htimely halive
  rw [List.map_append, List.map_singleton, List.getLastD_concat] at hwindow
  exact covered_iff.2 fun x hx => (hwindow.soon x hx).1

/-! Runs from an empty directory with segments of one block and an interval of 50. -/

/-- A new server's actor. -/
def freshActor (log : Wal) : EngineActor :=
  .new ⟨0, 0⟩ (Engine.new 0 ⟨65535, 0, true⟩ fun _ => ⟨0, [], (0, 0), (0, 0), [], [], [], []⟩) log
    (.interval 50)

/-- Connection 1 puts an empty job. -/
def emptyPut : EngineActor.Wake := .message (.command 1 (.put 0 0 1 []))

/-- The second put waits for the timer, which fires in time. -/
theorem timer_covers_put :
    ∃ log recovery, (openWal (fun _ => 0) ⟨4096, .interval 50, none⟩ {}).result =
        .ok (log, recovery) ∧
      Covered 50 51 (Timed.run (fun _ => 0) { actor := freshActor log }
        [(0, .message (.connect 1)), (0, emptyPut), (1, emptyPut), (51, .timer)]).ops :=
  ⟨_, _, rfl, loss_window_bounded (fun _ => 0) ⟨4096, .interval 50, none⟩ {} 50 _ _ rfl rfl ⟨0, 0⟩
    _ [(0, .message (.connect 1)), (0, emptyPut), (1, emptyPut)] 51 .timer (by decide) (by decide)
    rfl⟩

/-- The put at 49 moves the deadline from 51 to 99, so the record written at 1 is not
synced at 60, though every message comes before the actor would have woken up. -/
theorem put_exposed_too_long :
    ∃ log recovery, (openWal (fun _ => 0) ⟨4096, .interval 50, none⟩ {}).result =
        .ok (log, recovery) ∧
      let steps := [(0, .message (.connect 1)), (0, emptyPut), (1, emptyPut), (49, emptyPut),
        (60, .message (.setDraining false))]
      let s := Timed.run (fun _ => 0) { actor := freshActor log } steps
      (freshActor log).prompt (fun _ => 0) steps = true ∧ s.actor.alive = true ∧
        ¬ Covered 50 60 s.ops := by
  refine ⟨_, _, rfl, rfl, rfl, fun h => ?_⟩
  exact absurd (covered_iff.1 h (1, 1) (by decide)) (by decide)

end Beanstalkd.Server
