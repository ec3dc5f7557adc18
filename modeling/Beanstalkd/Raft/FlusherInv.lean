import Beanstalkd.Raft.Flusher

/-!
# Group commit keeps its order, and its word

The invariant of `Raft.Flusher` through every step of every interleaving, and what follows:
at most one thread handles jobs, jobs are done in the order of the pushes, a success is
behind a sync that began after the push, and no wake-up is lost.
-/

namespace Beanstalkd.Raft.Flusher

variable {F : Type} {w w' : World F} {t : List (Obs F)} {o : Obs F} {q r : Queued F}
  {f : F} {p : Worker F}

/-! ## One more observation -/

theorem pushes_snoc (t : List (Obs F)) (o : Obs F) : pushes (t ++ [o]) = pushes t ++ pushes [o] :=
  List.filterMap_append ..

theorem settled_snoc (t : List (Obs F)) (o : Obs F) :
    settled (t ++ [o]) = settled t ++ settled [o] :=
  List.filterMap_append ..

theorem mem_pushes : q ∈ pushes t ↔ .pushed q ∈ t := by
  rw [pushes, List.mem_filterMap]
  constructor
  · rintro ⟨o, ho, heq⟩
    cases o with
    | pushed r =>
      cases heq
      exact ho
    | _ => cases heq
  · exact fun h => ⟨_, h, rfl⟩

theorem mem_settled_of_released (h : .released q ∈ t) : q ∈ settled t :=
  List.mem_filterMap.mpr ⟨_, h, rfl⟩

/-- What two observations show of pushes, the list of pushes shows. -/
theorem pushes_sublist (h : [.pushed r, .pushed q].Sublist t) : [r, q].Sublist (pushes t) := by
  show (pushes [.pushed r, .pushed q]).Sublist (pushes t)
  exact h.filterMap _

theorem SyncedSince.snoc (h : SyncedSince t q f) : SyncedSince (t ++ [o]) q f :=
  h.imp fun _ hn => Trace.sublist_snoc hn

/-- The observation of a failed sync. -/
def Obs.Failure : Obs F → Prop
  | .syncEnded _ _ (some _) => True
  | _ => False

theorem not_syncFailed_snoc (h : ¬ SyncFailed t) (ho : ¬ o.Failure) : ¬ SyncFailed (t ++ [o]) := by
  rintro ⟨n, f, why, hmem⟩
  rcases List.mem_append.mp hmem with hold | hnew
  · exact h ⟨n, f, why, hold⟩
  · rw [← List.mem_singleton.mp hnew] at ho
    exact ho trivial

theorem SyncFailed.of_snoc (h : SyncFailed (t ++ [o])) (ho : ¬ o.Failure) : SyncFailed t :=
  Classical.byContradiction fun hno => not_syncFailed_snoc hno ho h

theorem not_failure_completion (err : Option String) : ¬ (completion err q).Failure := by
  unfold completion
  cases q.job <;> exact id

theorem pushes_completion (err : Option String) : pushes [completion err q] = [] := by
  unfold completion
  cases q.job <;> rfl

theorem settled_completion (err : Option String) : settled [completion err q] = [q] := by
  unfold completion
  cases q.job <;> rfl

/-- What a thread knows it knows later, unless a sync fails. -/
theorem Worker.Knows.snoc (h : p.Knows t) (ho : ¬ o.Failure) : p.Knows (t ++ [o]) := by
  cases p with
  | syncing jobs files =>
    exact ⟨not_syncFailed_snoc h.1 ho, fun q hq f hf => (h.2 q hq f hf).imp id SyncedSince.snoc⟩
  | inSync jobs n g files =>
    refine ⟨not_syncFailed_snoc h.1 ho, fun q hq f hf => ?_⟩
    exact (h.2 q hq f hf).imp id (Or.imp SyncedSince.snoc (And.imp id Trace.sublist_snoc))
  | completing jobs err =>
    cases err with
    | none => exact ⟨not_syncFailed_snoc h.1 ho, fun q hq f hf => (h.2 q hq f hf).snoc⟩
    | some m => trivial
  | _ => trivial

/-! ## Callers -/

namespace World

theorem Inv.init : (World.init : World F).Inv where
  alone := rfl
  running := rfl
  idle _ := rfl
  tickets := rfl
  order := rfl
  failed h := by
    obtain ⟨n, f, why, hmem⟩ := h
    cases hmem
  knows p hp := by cases hp
  sound := .nil

theorem Inv.worker_push (h : w.Inv) (job : Job F) :
    (w.push job).worker = some (w.worker.getD .starting) ∧
      (w.push job).workers = (w.push job).worker.toList := by
  have hrun := h.running
  have halone := h.alone
  cases hw : w.worker with
  | none =>
    rw [hw] at hrun halone
    have hpush : (w.push job).workers = [.starting] := by
      rw [push, hrun, halone]
      rfl
    rw [worker, hpush]
    exact ⟨rfl, rfl⟩
  | some p =>
    rw [hw] at hrun halone
    have hpush : (w.push job).workers = [p] := by
      rw [push, hrun, halone]
      rfl
    rw [worker, hpush]
    exact ⟨rfl, rfl⟩

theorem Inv.push (h : w.Inv) (job : Job F) : (w.push job).Inv := by
  obtain ⟨hworker, halone⟩ := h.worker_push job
  have hpushes : pushes (w.push job).trace = pushes w.trace ++ [⟨w.pushed, job⟩] := pushes_snoc ..
  have hno : ¬ (Obs.pushed ⟨w.pushed, job⟩ : Obs F).Failure := id
  refine ⟨halone, ?_, ?_, ?_, ?_, fun hf => ?_, fun p hp => ?_, h.sound.snoc trivial⟩
  · rw [hworker]
    rfl
  · rw [hworker]
    exact nofun
  · rw [hpushes, List.map_append, h.tickets]
    exact List.range_succ.symm
  · have hhand : ((w.push job).worker.map Worker.hand).getD [] =
        (w.worker.map Worker.hand).getD [] := by
      rw [hworker]
      cases w.worker <;> rfl
    have hsettled : settled (w.push job).trace = settled w.trace := by
      rw [World.push, settled_snoc]
      exact List.append_nil _
    rw [hpushes, hsettled, hhand, h.order]
    show _ = _ ++ (_ ++ (w.state.queue ++ [⟨w.pushed, job⟩]))
    simp only [List.append_assoc]
  · refine (h.failed (hf.of_snoc hno)).imp id ?_
    rintro ⟨p, hp, hfail⟩
    exact ⟨p, by rw [hworker, hp]; rfl, hfail⟩
  · rw [hworker] at hp
    cases hp
    cases hw : w.worker with
    | none => trivial
    | some p => exact (h.knows p hw).snoc hno

/-- Tickets are not used twice. -/
theorem Inv.nodup_pushes (h : w.Inv) : (pushes w.trace).Nodup := by
  have hmap : ((pushes w.trace).map Queued.ticket).Nodup := h.tickets ▸ List.nodup_range
  exact (List.pairwise_map.mp hmap).imp fun hne heq => hne (congrArg _ heq)

/-- A barrier returns only after all that was pushed before it. -/
theorem Inv.settled_before (h : w.Inv) (hq : q ∈ settled w.trace)
    (hpair : [.pushed r, .pushed q].Sublist w.trace) : r ∈ settled w.trace := by
  have hnodup := h.nodup_pushes
  have hsub := pushes_sublist hpair
  rw [h.order] at hsub hnodup
  -- otherwise both are among what is left, `q` after `r`
  obtain ⟨l₁, l₂, hl, h₁, h₂⟩ := List.sublist_append_iff.mp hsub
  cases l₁ with
  | nil =>
    have hin : q ∈ l₂ := by
      rw [List.nil_append] at hl
      rw [← hl]
      exact List.mem_cons_of_mem _ List.mem_cons_self
    exact absurd rfl ((List.nodup_append.mp hnodup).2.2 q hq q (h₂.subset hin))
  | cons x l₁ =>
    obtain ⟨rfl, -⟩ := List.cons.inj hl
    exact h₁.subset List.mem_cons_self

section

variable [DecidableEq F]

theorem Inv.wake (h : w.Inv) (q : Queued F) : (w.step (.wake q)).Inv := by
  rw [step]
  split
  next hrel =>
    have hmem : .released q ∈ w.trace := by
      obtain ⟨o, ho, hq⟩ := List.any_eq_true.mp hrel
      cases o with
      | released r =>
        obtain rfl := of_decide_eq_true hq
        exact ho
      | _ => cases hq
    have hno : ¬ (Obs.returned q).Failure := id
    have hpushes : pushes (w.trace ++ [.returned q]) = pushes w.trace := by
      rw [pushes_snoc]
      exact List.append_nil _
    have hsettled : settled (w.trace ++ [.returned q]) = settled w.trace := by
      rw [settled_snoc]
      exact List.append_nil _
    exact {
      alone := h.alone
      running := h.running
      idle := h.idle
      tickets := by rw [hpushes]; exact h.tickets
      order := by rw [hpushes, hsettled]; exact h.order
      failed := fun hf => h.failed (hf.of_snoc hno)
      knows := fun p hp => (h.knows p hp).snoc hno
      sound := h.sound.snoc fun r hr => h.settled_before (mem_settled_of_released hmem) hr }
  · exact h

/-! ## The worker -/

/-- A step of the only thread. -/
def moved (w : World F) (outcome : Option String) (p : Worker F) : World F :=
  { (w.advance outcome p).1 with workers := (w.advance outcome p).2.toList }

theorem workers_advance (w : World F) (outcome : Option String) (p : Worker F) :
    (w.advance outcome p).1.workers = w.workers := by
  cases p with
  | testing | handling =>
    rw [advance]
    split <;> rfl
  | syncing jobs files => cases files <;> rfl
  | completing jobs err => cases jobs <;> rfl
  | _ => rfl

/-- Only the thread at the first place is there to take a step. -/
theorem Inv.step_work (h : w.Inv) (hp : w.worker = some p) (outcome : Option String) :
    w.step (.work 0 outcome) = w.moved outcome p := by
  have halone : w.workers = [p] := by
    rw [h.alone, hp]
    rfl
  have hget : w.workers[0]? = some p := by
    rw [halone]
    rfl
  rw [step, hget, moved]
  simp only
  cases hnext : (w.advance outcome p).2 with
  | none | some =>
    simp only [workers_advance, halone]
    rfl

theorem Inv.step_work_other (h : w.Inv) {i : Nat} (hi : w.worker = none ∨ i ≠ 0)
    (outcome : Option String) : w.step (.work i outcome) = w := by
  have hget : w.workers[i]? = none := by
    rw [h.alone]
    rcases hi with hnone | hi
    · rw [hnone]
      rfl
    refine List.getElem?_eq_none ?_
    have := Option.length_toList_le (o := w.worker)
    omega
  rw [step, hget]

end

/-- The thread goes on: nothing was pushed, and jobs were only passed on. -/
theorem Inv.goes (h : w.Inv) (hworkers : w'.workers = [p]) (hrunning : w'.state.running = true)
    (hpushed : w'.pushed = w.pushed) (hpushes : pushes w'.trace = pushes w.trace)
    (horder : pushes w.trace = settled w'.trace ++ (p.hand ++ w'.state.queue))
    (hfailed : SyncFailed w'.trace → w'.state.failed.isSome ∨ p.Failing)
    (hknows : p.Knows w'.trace) (hsound : Trace.Always Sound w'.trace) : w'.Inv := by
  have hworker : w'.worker = some p := by
    rw [worker, hworkers]
    rfl
  refine ⟨?_, ?_, ?_, ?_, ?_, fun hf => ?_, fun p' hp' => ?_, hsound⟩
  · rw [hworker, hworkers]
    rfl
  · rw [hworker, hrunning]
    rfl
  · rw [hworker]
    exact nofun
  · rw [hpushes, hpushed, h.tickets]
  · rw [hpushes, hworker]
    exact horder
  · exact (hfailed hf).imp id fun hp => ⟨p, hworker, hp⟩
  rw [hworker] at hp'
  cases hp'
  exact hknows

theorem Inv.order_of (h : w.Inv) (hp : w.worker = some p) :
    pushes w.trace = settled w.trace ++ (p.hand ++ w.state.queue) := by
  have := h.order
  rw [hp] at this
  exact this

theorem Inv.running_of (h : w.Inv) (hp : w.worker = some p) : w.state.running = true := by
  rw [h.running, hp]
  rfl

/-- A failure seen by a thread that is not about to store it is stored. -/
theorem Inv.failed_of (h : w.Inv) (hp : w.worker = some p) (hno : ¬ p.Failing)
    (hf : SyncFailed w.trace) : w.state.failed.isSome := by
  refine (h.failed hf).resolve_right ?_
  rintro ⟨p', hp', hfail⟩
  rw [hp] at hp'
  cases hp'
  exact hno hfail

variable [DecidableEq F] {jobs : List (Queued F)}

/-- What one round adds, and no round takes away, is there in the end. -/
theorem mem_foldl {α β : Type} {add : List α → β → List α} {a : α} {b : β} {l : List β}
    {init : List α} (hkeep : ∀ as b, ∀ a ∈ as, a ∈ add as b) (hadd : ∀ as, a ∈ add as b)
    (hb : b ∈ l) : a ∈ l.foldl add init := by
  have hkeeps : ∀ (l : List β) (as : List α), a ∈ as → a ∈ l.foldl add as := by
    intro l
    induction l with
    | nil => exact fun _ ha => ha
    | cons b l ih => exact fun as ha => ih _ (hkeep as b a ha)
  obtain ⟨l₁, l₂, rfl⟩ := List.append_of_mem hb
  rw [List.foldl_append, List.foldl_cons]
  exact hkeeps l₂ _ (hadd _)

/-- Every file of the jobs is among those to sync. -/
theorem mem_filesOf (hq : q ∈ jobs) (hf : q.job = .sync (some f)) : f ∈ filesOf jobs := by
  -- a file once found stays, so the job at hand or an earlier one has put it there
  refine mem_foldl (fun files q g hg => ?_) (fun files => ?_) hq
  · split
    · split
      · exact hg
      · exact List.mem_append_left _ hg
    · exact hg
  · simp only [hf]
    split
    next hin => exact hin
    · exact List.mem_append_right _ List.mem_cons_self

theorem Inv.moved_testing (h : w.Inv) (hp : w.worker = some .testing) (outcome : Option String) :
    (w.moved outcome .testing).Inv := by
  have horder := h.order_of hp
  have hfailed := h.failed_of hp id
  rw [moved, advance]
  split
  next hempty =>
    have hnil : w.state.queue = [] := List.isEmpty_iff.mp hempty
    exact {
      alone := rfl
      running := rfl
      idle := fun _ => hnil
      tickets := h.tickets
      order := horder
      failed := fun hf => .inl (hfailed hf)
      knows := nofun
      sound := h.sound }
  · refine h.goes rfl (h.running_of hp) rfl rfl ?_ (fun hf => .inl (hfailed hf)) trivial h.sound
    exact horder.trans (by simp [Worker.hand])

theorem Inv.moved_handling (h : w.Inv) (hp : w.worker = some (.handling jobs))
    (outcome : Option String) : (w.moved outcome (.handling jobs)).Inv := by
  have horder := h.order_of hp
  have hfailed := h.failed_of hp id
  rw [moved, advance]
  cases hst : w.state.failed with
  | some m =>
    exact h.goes rfl (h.running_of hp) rfl rfl horder (fun hf => .inl (hfailed hf)) trivial
      h.sound
  | none =>
    have hclear : ¬ SyncFailed w.trace := fun hf => by
      have := hfailed hf
      rw [hst] at this
      cases this
    refine h.goes rfl (h.running_of hp) rfl rfl horder (fun hf => .inl (hfailed hf)) ?_
      h.sound
    exact ⟨hclear, fun q hq f hf => .inl (mem_filesOf hq hf)⟩

theorem Inv.moved_syncing {files : List F} (h : w.Inv) (hp : w.worker = some (.syncing jobs files))
    (outcome : Option String) : (w.moved outcome (.syncing jobs files)).Inv := by
  have horder := h.order_of hp
  obtain ⟨hclear, hcover⟩ := h.knows _ hp
  cases files with
  | nil =>
    refine h.goes rfl (h.running_of hp) rfl rfl horder
      (fun hf => .inl (h.failed_of hp id hf)) ⟨hclear, fun q hq f hf => ?_⟩ h.sound
    exact (hcover q hq f hf).resolve_left List.not_mem_nil
  | cons g files =>
    have hno : ¬ (Obs.syncBegan w.syncs g).Failure := id
    have hpushes : pushes (w.trace ++ [.syncBegan w.syncs g]) = pushes w.trace := by
      rw [pushes_snoc]
      exact List.append_nil _
    have hsettled : settled (w.trace ++ [.syncBegan w.syncs g]) = settled w.trace := by
      rw [settled_snoc]
      exact List.append_nil _
    refine h.goes rfl (h.running_of hp) rfl hpushes ?_ (fun hf => absurd (hf.of_snoc hno) hclear)
      ⟨not_syncFailed_snoc hclear hno, fun q hq f hf => ?_⟩ (h.sound.snoc trivial)
    · show _ = settled (w.trace ++ _) ++ _
      rw [hsettled]
      exact horder
    rcases hcover q hq f hf with hin | hsync
    · rcases List.mem_cons.mp hin with rfl | hin
      · -- the push of a job in hand is in the trace before the sync begins
        refine .inr (.inr ⟨rfl, ?_⟩)
        have hpushed : .pushed q ∈ w.trace := by
          rw [← mem_pushes, horder]
          exact List.mem_append_right _ (List.mem_append_left _ hq)
        exact Trace.snoc_sublist_snoc (List.singleton_sublist.mpr hpushed)
      · exact .inl hin
    · exact .inr (.inl hsync.snoc)

theorem Inv.moved_inSync {n : Nat} {g : F} {files : List F} (h : w.Inv)
    (hp : w.worker = some (.inSync jobs n g files)) (outcome : Option String) :
    (w.moved outcome (.inSync jobs n g files)).Inv := by
  obtain ⟨hclear, hcover⟩ := h.knows _ hp
  have hpushes : pushes (w.trace ++ [.syncEnded n g outcome]) = pushes w.trace := by
    rw [pushes_snoc]
    exact List.append_nil _
  have horder : pushes w.trace =
      settled (w.trace ++ [.syncEnded n g outcome]) ++ (jobs ++ w.state.queue) := by
    have hsettled : settled (w.trace ++ [.syncEnded n g outcome]) = settled w.trace := by
      rw [settled_snoc]
      exact List.append_nil _
    rw [hsettled]
    exact h.order_of hp
  cases outcome with
  | some why =>
    exact h.goes rfl (h.running_of hp) rfl hpushes horder (fun _ => .inr trivial) trivial
      (h.sound.snoc trivial)
  | none =>
    have hno : ¬ (Obs.syncEnded n g none).Failure := id
    refine h.goes rfl (h.running_of hp) rfl hpushes horder
      (fun hf => absurd (hf.of_snoc hno) hclear)
      ⟨not_syncFailed_snoc hclear hno, fun q hq f hf => ?_⟩ (h.sound.snoc trivial)
    rcases hcover q hq f hf with hin | hsync | ⟨rfl, hbegan⟩
    · exact .inl hin
    · exact .inr hsync.snoc
    · exact .inr ⟨n, Trace.snoc_sublist_snoc hbegan⟩

theorem Inv.moved_completing {err : Option String} (h : w.Inv)
    (hp : w.worker = some (.completing jobs err)) (outcome : Option String) :
    (w.moved outcome (.completing jobs err)).Inv := by
  have horder := h.order_of hp
  have hfailed := h.failed_of hp id
  cases jobs with
  | nil =>
    exact h.goes rfl (h.running_of hp) rfl rfl horder (fun hf => .inl (hfailed hf)) trivial
      h.sound
  | cons q jobs =>
    have hno : ¬ (completion err q).Failure := not_failure_completion err
    have hpushes : pushes (w.trace ++ [completion err q]) = pushes w.trace := by
      rw [pushes_snoc, pushes_completion, List.append_nil]
    have hknows := h.knows _ hp
    refine h.goes rfl (h.running_of hp) rfl hpushes ?_ (fun hf => .inl (hfailed (hf.of_snoc hno)))
      ?_ (h.sound.snoc ?_)
    · show _ = settled (w.trace ++ _) ++ (jobs ++ w.state.queue)
      rw [settled_snoc, settled_completion, horder, List.append_assoc]
      rfl
    · cases err with
      | some m => trivial
      | none =>
        obtain ⟨hclear, hcover⟩ := hknows
        refine ⟨not_syncFailed_snoc hclear hno, fun r hr f hf => ?_⟩
        exact (hcover r (List.mem_cons_of_mem _ hr) f hf).snoc
    · unfold completion
      cases hjob : q.job with
      | barrier => exact hjob
      | sync file =>
        refine ⟨⟨file, hjob⟩, fun hok => ?_⟩
        cases err with
        | some m => cases hok
        | none => exact ⟨hknows.1, hknows.2 q List.mem_cons_self⟩

theorem Inv.moved (h : w.Inv) (hp : w.worker = some p) (outcome : Option String) :
    (w.moved outcome p).Inv := by
  have horder := h.order_of hp
  cases p with
  | starting =>
    exact h.goes rfl (h.running_of hp) rfl rfl horder
      (fun hf => .inl (h.failed_of hp id hf)) trivial h.sound
  | testing => exact h.moved_testing hp outcome
  | handling jobs => exact h.moved_handling hp outcome
  | syncing jobs files => exact h.moved_syncing hp outcome
  | inSync jobs n g files => exact h.moved_inSync hp outcome
  | failing jobs why =>
    exact h.goes rfl (h.running_of hp) rfl rfl horder (fun _ => .inl rfl) trivial h.sound
  | completing jobs err => exact h.moved_completing hp outcome

theorem Inv.step (h : w.Inv) (e : Event F) : (w.step e).Inv := by
  cases e with
  | submit | barrier => exact h.push _
  | work i outcome =>
    cases hw : w.worker with
    | none =>
      rw [h.step_work_other (.inl hw)]
      exact h
    | some p =>
      cases i with
      | zero =>
        rw [h.step_work hw]
        exact h.moved hw outcome
      | succ i =>
        rw [h.step_work_other (.inr (Nat.succ_ne_zero i))]
        exact h
  | wake q => exact h.wake q

end World

variable [DecidableEq F]

theorem run_inv (es : List (Event F)) : (run es).Inv := by
  have hfold : ∀ (es : List (Event F)) (w : World F), w.Inv → (es.foldl World.step w).Inv := by
    intro es
    induction es with
    | nil => exact fun _ h => h
    | cons e es ih => exact fun w h => ih _ (h.step e)
  exact hfold es _ .init

end Beanstalkd.Raft.Flusher
