import Beanstalkd.Raft.FlusherInv

/-!
# Every job is done

A schedule is an endless interleaving. It is fair if a thread that is started, or
in `work`, takes a step at some time. Then every job pushed is completed: the thread has a
bounded number of steps (`Worker.remaining`) before it takes what is queued, and a
bounded number before it completes what it took, and no push adds to either.
-/

namespace Beanstalkd.Raft.Flusher

variable {F : Type} [DecidableEq F] {w : World F} {q : Queued F} {p : Worker F}

/-! ## The steps of the worker -/

/-- A bound on the steps of a thread up to the test of the queue, this one included. -/
def Worker.remaining : Worker F → Nat
  | .testing => 1
  | .starting => 2
  | .completing jobs _ => jobs.length + 2
  | .failing jobs _ => jobs.length + 3
  | .syncing jobs files => 2 * files.length + jobs.length + 4
  | .inSync jobs _ _ files => 2 * files.length + jobs.length + 5
  | .handling jobs => 2 * (filesOf jobs).length + jobs.length + 5

namespace World

/-- Away from the test of the queue, the thread comes nearer to it with every step, leaves
the queue alone and keeps the jobs in hand or completes them. -/
theorem moved_nearer (w : World F) (outcome : Option String) (hp : p ≠ .testing) :
    ∃ p', (w.moved outcome p).worker = some p' ∧ p'.remaining < p.remaining ∧
      (w.moved outcome p).state.queue = w.state.queue ∧
      ∀ q ∈ p.hand, q ∈ p'.hand ∨ q ∈ settled (w.moved outcome p).trace := by
  cases p with
  | starting => exact ⟨.testing, rfl, Nat.lt_succ_self _, rfl, fun _ => .inl⟩
  | testing => exact absurd rfl hp
  | handling jobs =>
    rw [moved, advance]
    cases w.state.failed with
    | none => exact ⟨.syncing jobs (filesOf jobs), rfl, Nat.lt_succ_self _, rfl, fun _ => .inl⟩
    | some m =>
      refine ⟨.completing jobs (some m), rfl, ?_, rfl, fun _ => .inl⟩
      simp only [Worker.remaining]
      omega
  | syncing jobs files =>
    cases files with
    | nil =>
      refine ⟨.completing jobs none, rfl, ?_, rfl, fun _ => .inl⟩
      simp only [Worker.remaining]
      omega
    | cons f files =>
      refine ⟨.inSync jobs w.syncs f files, rfl, ?_, rfl, fun _ => .inl⟩
      simp only [Worker.remaining, List.length_cons]
      omega
  | inSync jobs n f files =>
    cases outcome with
    | none => exact ⟨.syncing jobs files, rfl, Nat.lt_succ_self _, rfl, fun _ => .inl⟩
    | some why =>
      refine ⟨.failing jobs why, rfl, ?_, rfl, fun _ => .inl⟩
      simp only [Worker.remaining]
      omega
  | failing jobs why =>
    exact ⟨.completing jobs (some why), rfl, Nat.lt_succ_self _, rfl, fun _ => .inl⟩
  | completing jobs err =>
    cases jobs with
    | nil => exact ⟨.testing, rfl, Nat.lt_succ_self _, rfl, fun _ => .inl⟩
    | cons r jobs =>
      refine ⟨.completing jobs err, rfl, Nat.lt_succ_self _, rfl, fun q hq => ?_⟩
      rcases List.mem_cons.mp hq with rfl | hq
      · right
        show q ∈ settled (w.trace ++ [completion err q])
        rw [settled_snoc, settled_completion]
        exact List.mem_append_right _ List.mem_cons_self
      · exact .inl hq

/-- The test takes all that is queued. -/
theorem moved_testing (outcome : Option String) (hq : q ∈ w.state.queue) :
    (w.moved outcome .testing).worker = some (.handling w.state.queue) := by
  have hne : w.state.queue.isEmpty = false := by
    cases hl : w.state.queue with
    | nil =>
      rw [hl] at hq
      cases hq
    | cons r l => rfl
  rw [worker, moved, advance, hne]
  rfl

/-- Whatever else happens, the thread stays where it is and the queue only grows. -/
theorem Inv.waits (h : w.Inv) (hp : w.worker = some p) {e : Event F}
    (he : ∀ outcome, e ≠ .work 0 outcome) :
    (w.step e).worker = some p ∧ w.state.queue ⊆ (w.step e).state.queue := by
  have hpush : ∀ job, (w.push job).worker = some p ∧ w.state.queue ⊆ (w.push job).state.queue := by
    intro job
    rw [(h.worker_push job).1, hp]
    exact ⟨rfl, List.subset_append_left _ _⟩
  cases e with
  | submit | barrier => exact hpush _
  | work i outcome =>
    have hi : i ≠ 0 := by
      rintro rfl
      exact he outcome rfl
    rw [h.step_work_other (.inr hi)]
    exact ⟨hp, List.Subset.refl _⟩
  | wake r =>
    rw [World.step]
    split
    · exact ⟨hp, List.Subset.refl _⟩
    · exact ⟨hp, List.Subset.refl _⟩

end World

/-! ## Schedules -/

/-- The world after the first `t` events. -/
def worldAt (sched : Nat → Event F) : Nat → World F
  | 0 => .init
  | t + 1 => (worldAt sched t).step (sched t)

/-- A thread that is started, or in `work`, takes a step some time. -/
def Fair (sched : Nat → Event F) : Prop :=
  ∀ t, (worldAt sched t).workers ≠ [] →
    ∃ u i outcome, t ≤ u ∧ sched u = .work i outcome ∧ i < (worldAt sched u).workers.length

variable {sched : Nat → Event F} {t : Nat}

theorem worldAt_inv (sched : Nat → Event F) (t : Nat) : (worldAt sched t).Inv := by
  induction t with
  | zero => exact .init
  | succ t ih => exact ih.step (sched t)

/-- The thread takes its next step where it stands. -/
theorem Fair.until_step (hfair : Fair sched) (hp : (worldAt sched t).worker = some p) :
    ∃ u outcome, t ≤ u ∧ (worldAt sched u).worker = some p ∧
      (worldAt sched t).state.queue ⊆ (worldAt sched u).state.queue ∧
      worldAt sched (u + 1) = (worldAt sched u).moved outcome p := by
  have hsome : (worldAt sched t).workers ≠ [] := by
    rw [(worldAt_inv sched t).alone, hp]
    exact List.cons_ne_nil _ _
  obtain ⟨u, i, outcome, htu, hev, hi⟩ := hfair t hsome
  obtain ⟨d, rfl⟩ := Nat.exists_eq_add_of_le htu
  have hzero : i = 0 := by
    have := Option.length_toList_le (o := (worldAt sched (t + d)).worker)
    rw [(worldAt_inv sched (t + d)).alone] at hi
    omega
  rw [hzero] at hev
  clear hsome htu hi hzero
  -- by induction on the time until that step; an earlier one is as good
  induction d generalizing t with
  | zero =>
    refine ⟨t, outcome, Nat.le_refl t, hp, List.Subset.refl _, ?_⟩
    rw [worldAt, show sched t = _ from hev, (worldAt_inv sched t).step_work hp]
  | succ d ih =>
    by_cases hnow : ∃ outcome, sched t = .work 0 outcome
    · obtain ⟨outcome, hnow⟩ := hnow
      refine ⟨t, outcome, Nat.le_refl t, hp, List.Subset.refl _, ?_⟩
      rw [worldAt, hnow, (worldAt_inv sched t).step_work hp]
    obtain ⟨hp', hqueue⟩ := (worldAt_inv sched t).waits hp fun o ho => hnow ⟨o, ho⟩
    have hlater : t + 1 + d = t + (d + 1) := by omega
    obtain ⟨u, outcome, htu, hu, hsub, hmoved⟩ := ih (t := t + 1) hp' (hlater ▸ hev)
    exact ⟨u, outcome, by omega, hu, List.Subset.trans hqueue hsub, hmoved⟩

/-- A job that the thread has taken is completed. -/
theorem Fair.hand_settles (hfair : Fair sched) (n : Nat) :
    ∀ (t : Nat) (p : Worker F), (worldAt sched t).worker = some p → p.remaining = n → q ∈ p.hand →
      ∃ u, t ≤ u ∧ q ∈ settled (worldAt sched u).trace := by
  induction n using Nat.strongRecOn with
  | ind n ih =>
    intro t p hp hn hq
    obtain ⟨u, outcome, htu, hu, -, hmoved⟩ := hfair.until_step hp
    have htest : p ≠ .testing := by
      rintro rfl
      cases hq
    obtain ⟨p', hp', hless, -, hkeep⟩ := (worldAt sched u).moved_nearer outcome htest
    rw [← hmoved] at hp' hkeep
    rcases hkeep q hq with hq' | hdone
    · obtain ⟨v, huv, hv⟩ := ih p'.remaining (hn ▸ hless) (u + 1) p' hp' rfl hq'
      exact ⟨v, by omega, hv⟩
    · exact ⟨u + 1, by omega, hdone⟩

/-- A job that is queued is completed. -/
theorem Fair.queue_settles (hfair : Fair sched) (n : Nat) :
    ∀ (t : Nat) (p : Worker F), (worldAt sched t).worker = some p → p.remaining = n →
      q ∈ (worldAt sched t).state.queue → ∃ u, t ≤ u ∧ q ∈ settled (worldAt sched u).trace := by
  induction n using Nat.strongRecOn with
  | ind n ih =>
    intro t p hp hn hq
    obtain ⟨u, outcome, htu, hu, hsub, hmoved⟩ := hfair.until_step hp
    by_cases htest : p = .testing
    · subst htest
      have hp' := World.moved_testing outcome (hsub hq)
      rw [← hmoved] at hp'
      obtain ⟨v, huv, hv⟩ := hfair.hand_settles _ (u + 1) _ hp' rfl (hsub hq)
      exact ⟨v, by omega, hv⟩
    · obtain ⟨p', hp', hless, hqueue, -⟩ := (worldAt sched u).moved_nearer outcome htest
      rw [← hmoved] at hp' hqueue
      obtain ⟨v, huv, hv⟩ := ih p'.remaining (hn ▸ hless) (u + 1) p' hp' rfl (hqueue ▸ hsub hq)
      exact ⟨v, by omega, hv⟩

theorem Fair.settles (hfair : Fair sched) (hq : .pushed q ∈ (worldAt sched t).trace) :
    ∃ u, t ≤ u ∧ q ∈ settled (worldAt sched u).trace := by
  have hinv := worldAt_inv sched t
  rw [← mem_pushes, hinv.order] at hq
  rcases List.mem_append.mp hq with hdone | hq
  · exact ⟨t, Nat.le_refl t, hdone⟩
  cases hw : (worldAt sched t).worker with
  | none =>
    rw [hw, hinv.idle hw] at hq
    cases hq
  | some p =>
    rw [hw] at hq
    rcases List.mem_append.mp hq with hhand | hqueue
    · exact hfair.hand_settles _ t p hw rfl hhand
    · exact hfair.queue_settles _ t p hw rfl hqueue

/-- The thread is in `handle`. -/
def Worker.inHandle : Worker F → Bool
  | .starting | .testing => false
  | _ => true

/-- In every interleaving of callers and threads, syncs succeeding or failing: at most one
thread handles jobs; jobs are done in the order in which they were pushed, each once; what
is said of a job when it completes and of a barrier when it returns is sound; and if no
thread runs or is about to, the queue is empty. If a thread that is started goes on
running, every job is done. -/
theorem group_commit :
    (∀ es : List (Event F),
      let w := run es
      w.workers.countP Worker.inHandle ≤ 1 ∧
      settled w.trace <+: pushes w.trace ∧ (pushes w.trace).Nodup ∧
      (∀ before o after, w.trace = before ++ o :: after → Sound before o) ∧
      (w.workers = [] → w.state.queue = [])) ∧
    ∀ sched : Nat → Event F, Fair sched → ∀ t q, .pushed q ∈ (worldAt sched t).trace →
      ∃ u, t ≤ u ∧ q ∈ settled (worldAt sched u).trace := by
  refine ⟨fun es => ?_, fun sched hfair t q hq => hfair.settles hq⟩
  have hinv := run_inv es
  refine ⟨?_, ?_, hinv.nodup_pushes, hinv.sound, fun hnone => hinv.idle ?_⟩
  · have hone := Option.length_toList_le (o := (run es).worker)
    rw [← hinv.alone] at hone
    exact Nat.le_trans List.countP_le_length hone
  · rw [hinv.order]
    exact List.prefix_append ..
  · rw [World.worker, hnone]
    rfl

/-- Two appends and a barrier, then a worker that does nothing but run. -/
def threeJobs : Nat → Event Nat
  | 0 => .submit (some 7)
  | 1 => .submit (some 8)
  | 2 => .barrier
  | _ + 3 => .work 0 none

/-- The jobs are one batch, and all are done. -/
theorem group_commit_batch :
    let jobs : List (Queued Nat) := [⟨0, .sync (some 7)⟩, ⟨1, .sync (some 8)⟩, ⟨2, .barrier⟩]
    (worldAt threeJobs 3).state.queue = jobs ∧
      ∀ q ∈ jobs, ∃ u, q ∈ settled (worldAt threeJobs u).trace := by
  intro jobs
  have hfair : Fair threeJobs := by
    intro t hsome
    match t, hsome with
    | 0, _ | 1, _ | 2, _ => exact ⟨3, 0, none, by decide, rfl, by decide⟩
    | t + 3, hsome => exact ⟨t + 3, 0, none, Nat.le_refl _, rfl, List.length_pos_iff.mpr hsome⟩
  refine ⟨rfl, fun q hq => ?_⟩
  obtain ⟨u, -, hu⟩ := group_commit.2 _ hfair 3 q (List.mem_map_of_mem hq)
  exact ⟨u, hu⟩

end Beanstalkd.Raft.Flusher
