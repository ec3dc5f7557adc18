import Beanstalkd.Engine.Sessions

/-!
# Rebuilding an engine from a journal

`Engine::recover`: a new engine is filled with the live jobs of a replayed
journal, each in the state its last record names. There are no connections yet,
so nothing is handed out, and a job that was reserved comes back in the state it
was journaled in last.

The source sets `next_job_id` after the loop, and none of the calls in the loop
reads it; `recover_eq` moves it to the front, where the invariant wants it.
-/

open Std

namespace Beanstalkd

/-- A live job of a replayed journal. -/
structure RecoveredJob where
  record : JobRecord
  tube : TubeName
  body : Bytes
  deriving DecidableEq

structure Recovery where
  /-- Live jobs, in the order of their first surviving record. -/
  jobs : List RecoveredJob
  /-- Above every id in any surviving record, and at least 1. -/
  nextId : JobId
  /-- The tube list after replaying every record, without "default". -/
  tubeOrder : List TubeName
  deriving DecidableEq

namespace Engine

/-- The record of a recovered job before it is queued. -/
def recoveredJob (rj : RecoveredJob) (tube : TubeId) : JobRec where
  id := rj.record.id
  tube := tube
  pri := rj.record.pri
  delay := rj.record.delay
  ttr := max rj.record.ttr 1
  body := rj.body
  createdAt := rj.record.createdAt
  deadlineAt := 0
  state := .ready
  reserver := none
  listSeq := 0
  reserveCt := rj.record.reserveCt
  timeoutCt := rj.record.timeoutCt
  releaseCt := rj.record.releaseCt
  buryCt := rj.record.buryCt
  kickCt := rj.record.kickCt
  -- the file index is the store's business
  file := 0

/-- Queue a recovered job as its record says. -/
def requeue (now : Nanos) (e : Engine) (tube : TubeId) (r : JobRecord) : Engine :=
  match r.state with
  | .buried => e.insertBuried tube r.id
  | .delayed =>
    if now < r.deadlineAt then e.insertDelayed tube r.id r.deadlineAt else e.insertReady tube r.id
  | .ready => e.insertReady tube r.id

/-- One live job. Ids are unique in a well-formed recovery; the first is kept. -/
def recoverOne (now : Nanos) (e : Engine) (rj : RecoveredJob) : Engine :=
  if e.jobs.contains rj.record.id then e
  else
    let (e, tube) := e.findOrMakeTube rj.tube
    let e := { e with jobs := e.jobs.insert rj.record.id (recoveredJob rj tube) }
    let e := e.modTube tube fun t => { t with jobRefCt := t.jobRefCt + 1 }
    requeue now e tube rj.record

/-- The highest id among the jobs that are not skipped. -/
def recoverMax (s : Engine × JobId) (rj : RecoveredJob) : JobId :=
  if s.1.jobs.contains rj.record.id then s.2 else max s.2 rj.record.id

/-- The tubes that will hold a job, in the order of the replayed list. -/
def recoverTubes (e : Engine) (recovery : Recovery) : Engine :=
  recovery.tubeOrder.foldl (fun e name =>
    if (recovery.jobs.map RecoveredJob.tube).contains name then (e.findOrMakeTube name).1 else e) e

def recover (now : Nanos) (cfg : EngineConfig) (sys : Nanos → SysSnapshot) (recovery : Recovery) :
    Engine :=
  let e := (Engine.new now cfg sys).recoverTubes recovery
  let (e, maxId) := recovery.jobs.foldl
    (fun s rj => (recoverOne now s.1 rj, recoverMax s rj)) (e, 0)
  { e with nextJobId := max (max recovery.nextId (maxId + 1)) 1 }

variable {e e' : Engine} {now : Nanos} {n : JobId} {rj : RecoveredJob}
  {done rest : List RecoveredJob} {recovery : Recovery} {cfg : EngineConfig}
  {sys : Nanos → SysSnapshot}

/-! ## The next job id, set first -/

def withNext (n : JobId) (e : Engine) : Engine := { e with nextJobId := n }

theorem insertReady_withNext (e : Engine) (n : JobId) (t : TubeId) (i : JobId) :
    (e.withNext n).insertReady t i = (e.insertReady t i).withNext n := by
  unfold insertReady withNext refreshDispatchable tube
  simp only
  split
  · rfl
  split
  · rfl
  · split <;> rfl

theorem insertDelayed_withNext (e : Engine) (n : JobId) (t : TubeId) (i : JobId) (d : Nanos) :
    (e.withNext n).insertDelayed t i d = (e.insertDelayed t i d).withNext n := by
  unfold insertDelayed withNext refreshDelayHead tube
  simp only
  split
  · rfl
  · split <;> rfl

theorem findOrMakeTube_withNext (e : Engine) (n : JobId) (name : TubeName) :
    (e.withNext n).findOrMakeTube name =
      ((e.findOrMakeTube name).1.withNext n, (e.findOrMakeTube name).2) := by
  unfold findOrMakeTube withNext
  simp only
  split
  · rfl
  · split <;> rfl

theorem requeue_withNext (e : Engine) (n : JobId) (t : TubeId) (r : JobRecord) :
    requeue now (e.withNext n) t r = (requeue now e t r).withNext n := by
  unfold requeue
  cases r.state with
  | buried => rfl
  | ready => exact insertReady_withNext e n t r.id
  | delayed =>
    simp only
    split
    · exact insertDelayed_withNext e n t r.id r.deadlineAt
    · exact insertReady_withNext e n t r.id

theorem recoverOne_withNext (e : Engine) (n : JobId) (rj : RecoveredJob) :
    recoverOne now (e.withNext n) rj = (recoverOne now e rj).withNext n := by
  unfold recoverOne
  show (if e.jobs.contains rj.record.id then e.withNext n else _) = _
  split
  · rfl
  rw [findOrMakeTube_withNext]
  generalize e.findOrMakeTube rj.tube = x
  exact requeue_withNext (({ x.1 with
    jobs := x.1.jobs.insert rj.record.id (recoveredJob rj x.2) } : Engine).modTube x.2 fun t =>
      { t with jobRefCt := t.jobRefCt + 1 }) n x.2 rj.record

theorem foldl_recoverOne_withNext (l : List RecoveredJob) (e : Engine) :
    l.foldl (recoverOne now) (e.withNext n) = (l.foldl (recoverOne now) e).withNext n := by
  induction l generalizing e with
  | nil => rfl
  | cons rj l ih => rw [List.foldl_cons, List.foldl_cons, recoverOne_withNext, ih]

theorem recoverTubes_withNext (recovery : Recovery) :
    (e.withNext n).recoverTubes recovery = (e.recoverTubes recovery).withNext n := by
  unfold recoverTubes
  generalize recovery.tubeOrder = l
  induction l generalizing e with
  | nil => rfl
  | cons name l ih =>
    rw [List.foldl_cons, List.foldl_cons, ← ih]
    congr 1
    split
    · rw [findOrMakeTube_withNext]
    · rfl

/-! ## Which jobs there are -/

theorem requeue_same (now : Nanos) (e : Engine) (t : TubeId) (r : JobRecord) :
    Same e (requeue now e t r) := by
  unfold requeue
  split
  · exact insertBuried_same ..
  · split
    · exact insertDelayed_same ..
    · exact insertReady_same ..
  · exact insertReady_same ..

theorem findOrMakeTube_jobs (e : Engine) (name : TubeName) :
    (e.findOrMakeTube name).1.jobs = e.jobs := by
  unfold findOrMakeTube
  split
  · rfl
  · split <;> rfl

theorem isSome_of_same (h : Same e e') (i : JobId) : e'.jobs[i]?.isSome = e.jobs[i]?.isSome := by
  have := congrArg Option.isSome (h.job i)
  simpa using this

theorem recoverOne_isSome (rj : RecoveredJob) (i : JobId) :
    (recoverOne now e rj).jobs[i]?.isSome = true ↔ e.jobs[i]?.isSome = true ∨ i = rj.record.id := by
  unfold recoverOne
  split
  · next hin =>
    rw [ExtTreeMap.contains_eq_isSome_getElem?] at hin
    constructor
    · exact .inl
    rintro (h | rfl)
    · exact h
    · exact hin
  · rw [isSome_of_same (requeue_same ..)]
    show ((e.findOrMakeTube rj.tube).1.jobs.insert rj.record.id _)[i]?.isSome = true ↔ _
    rw [findOrMakeTube_jobs, ExtTreeMap.getElem?_insert]
    split
    · next he => simp [LawfulEqOrd.eq_of_compare he]
    next hne =>
    have hi : i ≠ rj.record.id := fun he => hne (he ▸ ReflOrd.compare_self)
    simp [hi]

/-- The loop, and the highest id it saw. -/
theorem recover_loop (now : Nanos) (l : List RecoveredJob) (e : Engine) (m : JobId)
    (hm : ∀ i : JobId, e.jobs[i]?.isSome = true → i ≤ m) :
    (l.foldl (fun s rj => (recoverOne now s.1 rj, recoverMax s rj)) (e, m)).1 =
        l.foldl (recoverOne now) e ∧
      m ≤ (l.foldl (fun s rj => (recoverOne now s.1 rj, recoverMax s rj)) (e, m)).2 ∧
      ∀ rj ∈ l, rj.record.id ≤
        (l.foldl (fun s rj => (recoverOne now s.1 rj, recoverMax s rj)) (e, m)).2 := by
  induction l generalizing e m with
  | nil => exact ⟨rfl, Nat.le_refl _, nofun⟩
  | cons rj l ih =>
    have hle : m ≤ recoverMax (e, m) rj ∧ rj.record.id ≤ recoverMax (e, m) rj := by
      unfold recoverMax
      split
      · next hin =>
        rw [ExtTreeMap.contains_eq_isSome_getElem?] at hin
        exact ⟨Nat.le_refl _, hm _ hin⟩
      · exact ⟨Nat.le_max_left .., Nat.le_max_right ..⟩
    have hm' : ∀ i : JobId, (recoverOne now e rj).jobs[i]?.isSome = true →
        i ≤ recoverMax (e, m) rj := by
      intro i hi
      rcases (recoverOne_isSome rj i).mp hi with hi | rfl
      · exact Nat.le_trans (hm i hi) hle.1
      · exact hle.2
    obtain ⟨h₁, h₂, h₃⟩ := ih _ _ hm'
    refine ⟨h₁, Nat.le_trans hle.1 h₂, fun rj' hrj' => ?_⟩
    rcases List.mem_cons.mp hrj' with rfl | hrj'
    · exact Nat.le_trans hle.2 h₂
    · exact h₃ rj' hrj'

theorem new_jobs (now : Nanos) (cfg : EngineConfig) (sys : Nanos → SysSnapshot) :
    (Engine.new now cfg sys).jobs = ∅ := findOrMakeTube_jobs ..

theorem recoverTubes_jobs (e : Engine) (recovery : Recovery) :
    (e.recoverTubes recovery).jobs = e.jobs := by
  refine Loop.foldl_inv (P := fun e' : Engine => e'.jobs = e.jobs) _ (fun e' name _ h => ?_) rfl
  split
  · rw [findOrMakeTube_jobs, h]
  · exact h

/-- `recover` with the next job id in place from the start: above every
recovered id, at least 1 and at least what the journal says. -/
theorem recover_eq (now : Nanos) (cfg : EngineConfig) (sys : Nanos → SysSnapshot)
    (recovery : Recovery) : ∃ n, recover now cfg sys recovery =
      recovery.jobs.foldl (recoverOne now)
        (((Engine.new now cfg sys).withNext n).recoverTubes recovery) ∧
      recovery.nextId ≤ n ∧ 1 ≤ n ∧ ∀ rj ∈ recovery.jobs, rj.record.id < n := by
  obtain ⟨h₁, -, h₃⟩ := recover_loop now recovery.jobs
    ((Engine.new now cfg sys).recoverTubes recovery) 0 (by
      intro i hi
      rw [recoverTubes_jobs, new_jobs] at hi
      simp at hi)
  refine ⟨_, ?_, Nat.le_trans (Nat.le_max_left ..) (Nat.le_max_left ..), Nat.le_max_right ..,
    fun rj hrj => Nat.lt_of_lt_of_le (Nat.lt_succ_of_le (h₃ rj hrj))
      (Nat.le_trans (Nat.le_max_right ..) (Nat.le_max_left ..))⟩
  rw [recoverTubes_withNext, foldl_recoverOne_withNext, ← h₁]
  rfl

/-! ## The invariant -/

/-- Without connections nothing waits, so no dispatch is owed. -/
theorem calm_of_no_conns {o : Bool} (h : Core { owed := o } e) (hc : e.conns = ∅) : Core {} e :=
  { h with
    calm := by
      intro _ t hb
      obtain ⟨ts, ht, hb⟩ := Slab.view_eq_some_iff.mp hb
      have hw : ts.wantsDispatch = true := by
        rw [TubeState.busy, Bool.and_eq_true] at hb
        exact hb.1
      rw [TubeState.wantsDispatch, Bool.and_eq_true, Bool.not_eq_true', List.isEmpty_eq_false_iff]
        at hw
      obtain ⟨c, l, hl⟩ := List.exists_cons_of_ne_nil hw.1
      obtain ⟨-, hmem, -⟩ := h.queued t _ _ (Slab.view_of_get ht)
      obtain ⟨⟨w, hw, -⟩, -⟩ := (hmem c).mp (by rw [hl]; exact List.mem_cons_self)
      rw [effective, waitQueues, hc] at hw
      simp at hw }

/-- A job of the engine is the recovered job `rj`, queued at `now`. -/
structure Requeued (now : Nanos) (e : Engine) (rj : RecoveredJob) (j : JobRec) : Prop where
  fixed : j.fixed = (recoveredJob rj j.tube).fixed
  tube : e.tubeIds[rj.tube]? = some j.tube
  pri : j.pri = rj.record.pri
  delay : j.delay = rj.record.delay
  counts : (j.reserveCt, j.timeoutCt, j.releaseCt, j.kickCt) =
    (rj.record.reserveCt, rj.record.timeoutCt, rj.record.releaseCt, rj.record.kickCt)
  bury : j.buryCt = if rj.record.state = .buried then inc32 rj.record.buryCt else rj.record.buryCt
  state : j.state = match rj.record.state with
    | .buried => .buried
    | .delayed => if now < rj.record.deadlineAt then .delayed else .ready
    | .ready => .ready
  deadline : j.state = .delayed → j.deadlineAt = rj.record.deadlineAt

/-- The engine holds the jobs of `done` and has tubes for them and for the jobs
of `rest`; no tube is without a job, done or to come. -/
structure Rebuilt (now : Nanos) (n : JobId) (done rest : List RecoveredJob) (e : Engine) :
    Prop where
  core : Core {} e
  refs : ∃ o, Refs o e.uses e.watches e ∧
    ∀ i ∈ o, ∃ rj ∈ rest, e.tubeIds[rj.tube]? = some i
  conns : e.conns = ∅
  next : e.nextJobId = n
  jobs {i : JobId} {j : JobRec} : e.jobs[i]? = some j →
    ∃ rj ∈ done, rj.record.id = i ∧ Requeued now e rj j
  all : ∀ rj ∈ done, e.jobs[rj.record.id]?.isSome = true

theorem requeue_core {r : JobRecord} {t : TubeId} {j : JobRec} (h : Core { limbo := some r.id } e)
    (hj : e.jobs[r.id]? = some j) (ht : j.tube = t) (hc : e.conns = ∅) :
    Core {} (requeue now e t r) := by
  have hready : Core {} (e.insertReady t r.id) :=
    calm_of_no_conns (insertReady_core h hj ht) (by rw [insertReady_conns, hc])
  unfold requeue
  split
  · exact insertBuried_core h hj ht
  · split
    · exact insertDelayed_core h hj ht
    · exact hready
  · exact hready

/-- What queueing does to the job records. -/
theorem requeue_jobs (now : Nanos) (e : Engine) (t : TubeId) (r : JobRecord) :
    (requeue now e t r).jobs = e.jobs.modify r.id fun j =>
      match r.state with
      | .buried => { j with
          state := .buried, reserver := none, buryCt := inc32 j.buryCt, listSeq := e.nextListSeq }
      | .delayed =>
        if now < r.deadlineAt then
          { j with state := .delayed, reserver := none, deadlineAt := r.deadlineAt }
        else { j with state := .ready, reserver := none }
      | .ready => { j with state := .ready, reserver := none } := by
  unfold requeue
  cases r.state with
  | buried => rfl
  | ready => exact insertReady_jobs ..
  | delayed =>
    simp only
    split
    · obtain ⟨_, _, hf⟩ := refreshDelayHead_frame
        { e with
          jobs := e.jobs.modify r.id fun j =>
            { j with state := .delayed, reserver := none, deadlineAt := r.deadlineAt }
          tubes := Slab.modify e.tubes t fun t =>
            { t with delayed := t.delayed.insert (r.deadlineAt, r.id) }
          delayedCt := e.delayedCt +
            ((e.tube t).any fun t => !t.delayed.contains (r.deadlineAt, r.id)).toNat } t
      rw [insertDelayed, hf]
    · exact insertReady_jobs ..

theorem requeue_frame (now : Nanos) (e : Engine) (t : TubeId) (r : JobRecord) :
    (requeue now e t r).tubeIds = e.tubeIds ∧ (requeue now e t r).conns = e.conns ∧
      (requeue now e t r).nextJobId = e.nextJobId := by
  have hs := requeue_same now e t r
  refine ⟨congrArg Directory.tubeIds hs.directory, ?_, hs.nextJobId⟩
  unfold requeue
  split
  · rfl
  · split
    · obtain ⟨_, _, hf⟩ := refreshDelayHead_frame _ t
      rw [insertDelayed, hf]
    · exact insertReady_conns ..
  · exact insertReady_conns ..

theorem Requeued.mono {j : JobRec} (h : Requeued now e rj j)
    (hk : ∀ {m : TubeName} {i : TubeId}, e.tubeIds[m]? = some i → e'.tubeIds[m]? = some i) :
    Requeued now e' rj j := { h with tube := hk h.tube }

theorem recoverOne_rebuilt (h : Rebuilt now n done (rj :: rest) e) (hlt : rj.record.id < n)
    (hnew : ∀ r ∈ done, r.record.id ≠ rj.record.id) :
    Rebuilt now n (done ++ [rj]) rest (recoverOne now e rj) := by
  have hno : e.jobs[rj.record.id]? = none := by
    cases hj : e.jobs[rj.record.id]? with
    | none => rfl
    | some j =>
      obtain ⟨r, hr, hid, -⟩ := h.jobs hj
      exact absurd hid (hnew r hr)
  obtain ⟨o, hr, ho⟩ := h.refs
  unfold recoverOne
  rw [if_neg (by rw [ExtTreeMap.contains_eq_isSome_getElem?, hno]; simp)]
  have hop := findOrMakeTube_opened h.core hr rj.tube
  generalize e.findOrMakeTube rj.tube = x at hop ⊢
  obtain ⟨e₂, t⟩ := x
  simp only at hop ⊢
  obtain ⟨ts, hts⟩ := hop.live
  have hno₂ : e₂.jobs[rj.record.id]? = none := by rw [hop.jobs, hno]
  have hc₂ : e₂.conns = ∅ := by rw [hop.conns, h.conns]
  have hfresh : FreshId e₂ rj.record.id :=
    ⟨by rw [hop.next, h.next]; exact hlt, hno₂, fun c hc => by rw [hc₂] at hc; simp at hc⟩
  -- the job is in the table and counted by its tube, but not queued yet
  generalize he₃ : (({ e₂ with jobs := e₂.jobs.insert rj.record.id (recoveredJob rj t) } :
    Engine).modTube t fun t => { t with jobRefCt := t.jobRefCt + 1 }) = e₃
  have h₃ : Core { limbo := some rj.record.id } e₃ := by
    rw [← he₃]
    exact modTube_core (insertJob_core hop.core hfresh rfl (Nat.le_max_right ..) ⟨ts, hts⟩)
      fun _ => rfl
  have hj₃ : e₃.jobs[rj.record.id]? = some (recoveredJob rj t) := by
    rw [← he₃]
    exact ExtTreeMap.getElem?_insert_self
  have hoff {i : JobId} (hi : i ≠ rj.record.id) : e₃.jobs[i]? = e.jobs[i]? := by
    rw [← he₃, ← hop.jobs]
    show (e₂.jobs.insert rj.record.id _)[i]? = _
    rw [ExtTreeMap.getElem?_insert, if_neg fun he => hi (LawfulEqOrd.eq_of_compare he).symm]
  have hr₃ : Refs (o.filter fun i => i != t) e₃.uses e₃.watches e₃ := by
    have hhome : e₂.homes[rj.record.id]? = none := by
      rw [homes, ExtTreeMap.getElem?_map, hno₂]
      rfl
    have hrh : RefsOk (o.filter fun i => i != t) _ _ _ _ :=
      RefsOk.home hop.refs (Slab.view_of_get hts) hhome (by
        intro i hi hne
        rcases List.mem_cons.mp hi with rfl | hi
        · exact absurd rfl hne
        · exact List.mem_filter.mpr ⟨hi, by simpa using hne⟩)
    rw [← he₃]
    exact hrh.congr (Slab.view_modify_at _ _ hts) rfl rfl (homes_insert ..)
  have hids : e₃.tubeIds = e₂.tubeIds := by rw [← he₃]; rfl
  have hc₃ : e₃.conns = ∅ := by rw [← hc₂, ← he₃]; rfl
  have hn₃ : e₃.nextJobId = n := by rw [← h.next, ← hop.next, ← he₃]; rfl
  have hs := requeue_same now e₃ t rj.record
  obtain ⟨hids₄, hc₄, hn₄⟩ := requeue_frame now e₃ t rj.record
  have hjobs₄ := requeue_jobs now e₃ t rj.record
  have hkeep {m : TubeName} {i : TubeId} (hm : e.tubeIds[m]? = some i) :
      (requeue now e₃ t rj.record).tubeIds[m]? = some i := by
    rw [hids₄, hids]
    exact hop.kept hm
  have hnamed : (requeue now e₃ t rj.record).tubeIds[rj.tube]? = some t := by
    rw [hids₄, hids, hop.named]
  refine ⟨requeue_core h₃ hj₃ rfl hc₃, ⟨o.filter fun i => i != t, ?_, ?_⟩, hc₄.trans hc₃,
    hn₄.trans hn₃, ?_, ?_⟩
  · have hr₄ := Refs.same hr₃ hs
    rw [← uses_same hs, ← watches_same hs] at hr₄
    exact hr₄
  · -- an orphan left over waits for a later job
    intro i hi
    obtain ⟨hi, hne⟩ := List.mem_filter.mp hi
    obtain ⟨r, hr, hri⟩ := ho i hi
    rcases List.mem_cons.mp hr with rfl | hr
    · have := hkeep hri
      rw [hnamed, Option.some.injEq] at this
      simp [this] at hne
    · exact ⟨r, hr, hkeep hri⟩
  · intro i j hj
    rw [hjobs₄] at hj
    by_cases hi : i = rj.record.id
    · subst hi
      rw [TreeMap.getElem?_modify_of hj₃, Option.some.injEq] at hj
      refine ⟨rj, by simp, rfl, ?_⟩
      subst hj
      cases hst : rj.record.state with
      | buried => exact ⟨rfl, hnamed, rfl, rfl, rfl, by simp [hst, recoveredJob], by simp [hst],
          by simp⟩
      | ready => exact ⟨rfl, hnamed, rfl, rfl, rfl, by simp [hst, recoveredJob], by simp [hst],
          by simp⟩
      | delayed =>
        simp only
        split
        · next hd => exact ⟨rfl, hnamed, rfl, rfl, rfl, by simp [hst, recoveredJob],
            by simp [hst, hd], fun _ => rfl⟩
        · next hd => exact ⟨rfl, hnamed, rfl, rfl, rfl, by simp [hst, recoveredJob],
            by simp [hst, hd], by simp⟩
    · rw [TreeMap.getElem?_modify_ne hi, hoff hi] at hj
      obtain ⟨r, hr, hid, hq⟩ := h.jobs hj
      exact ⟨r, List.mem_append_left _ hr, hid, hq.mono hkeep⟩
  · intro r hr
    rw [isSome_of_same hs]
    rcases List.mem_append.mp hr with hr | hr
    · rw [hoff (hnew r hr)]
      exact h.all r hr
    · rw [List.mem_singleton.mp hr, hj₃]
      rfl

theorem foldl_recoverOne_rebuilt (h : Rebuilt now n done rest e) (hlt : ∀ r ∈ rest, r.record.id < n)
    (hnd : ((done ++ rest).map fun r => r.record.id).Nodup) :
    Rebuilt now n (done ++ rest) [] (rest.foldl (recoverOne now) e) := by
  induction rest generalizing done e with
  | nil =>
    rw [List.append_nil]
    exact h
  | cons rj rest ih =>
    have hnew : ∀ r ∈ done, r.record.id ≠ rj.record.id := by
      intro r hr heq
      rw [List.map_append, List.map_cons, List.nodup_append] at hnd
      exact hnd.2.2 _ (List.mem_map.mpr ⟨r, hr, rfl⟩) _ List.mem_cons_self heq
    have hsplit : done ++ rj :: rest = (done ++ [rj]) ++ rest := by simp
    rw [hsplit] at hnd ⊢
    exact ih (recoverOne_rebuilt h (hlt rj List.mem_cons_self) hnew)
      (fun r hr => hlt r (List.mem_cons_of_mem _ hr)) hnd

/-- The tubes are made first, each for a job to come. -/
theorem recoverTubes_rebuilt (h : Rebuilt now n [] recovery.jobs e) :
    Rebuilt now n [] recovery.jobs (e.recoverTubes recovery) := by
  refine Loop.foldl_inv _ (fun e name _ h => ?_) h
  split
  · next hname =>
    rw [List.contains_iff_mem] at hname
    obtain ⟨rj, hrj, rfl⟩ := List.mem_map.mp hname
    obtain ⟨o, hr, ho⟩ := h.refs
    have hop := findOrMakeTube_opened h.core hr rj.tube
    generalize e.findOrMakeTube rj.tube = x at hop ⊢
    refine ⟨hop.core, ⟨x.2 :: o, hop.refs, fun i hi => ?_⟩, hop.conns.trans h.conns,
      hop.next.trans h.next, fun hj => ?_, nofun⟩
    · rcases List.mem_cons.mp hi with rfl | hi
      · exact ⟨rj, hrj, hop.named⟩
      · obtain ⟨r, hr, hri⟩ := ho i hi
        exact ⟨r, hr, hop.kept hri⟩
    · rw [hop.jobs] at hj
      obtain ⟨r, hr, -⟩ := h.jobs hj
      cases hr
  · exact h

/-- With all jobs in place no tube is left without a reference. -/
theorem Rebuilt.inv (h : Rebuilt now n done [] e) (hn : 1 ≤ n) : Inv e where
  core := h.core
  refs := by
    obtain ⟨o, hr, ho⟩ := h.refs
    refine RefsOk.mono hr fun i hi => ?_
    obtain ⟨r, hr, -⟩ := ho i hi
    cases hr
  watching := by
    intro c w hw
    rw [watches, h.conns] at hw
    simp at hw
  allocated := by
    rw [h.next]
    exact hn

/-- A new engine with any next job id. -/
theorem new_rebuilt (h : Inv (Engine.new now cfg sys)) :
    Rebuilt now n [] rest ((Engine.new now cfg sys).withNext n) where
  core := { h.core with
    jobs := by
      intro i j hj
      change (Engine.new now cfg sys).jobs[i]? = some j at hj
      rw [new_jobs] at hj
      simp at hj
    pending := by
      have hc : (Engine.new now cfg sys).conns = ∅ := rfl
      refine ⟨fun hp => ?_, h.core.pending.unused, h.core.pending.distinct⟩
      change ((Engine.new now cfg sys).conns.map fun _ k => ConnState.pendingId k)[_]? = _ at hp
      rw [hc] at hp
      simp at hp }
  refs := ⟨[], h.refs, nofun⟩
  conns := rfl
  next := rfl
  jobs := fun {i j} hj => by
    change (Engine.new now cfg sys).jobs[i]? = some j at hj
    rw [new_jobs] at hj
    simp at hj
  all := nofun

/-- The whole of `recover`: what the engine is made of. -/
theorem recover_rebuilt (h : Inv (Engine.new now cfg sys))
    (hnd : (recovery.jobs.map fun r => r.record.id).Nodup) :
    ∃ n, Rebuilt now n recovery.jobs [] (recover now cfg sys recovery) ∧ recovery.nextId ≤ n ∧
      1 ≤ n := by
  obtain ⟨n, heq, hnext, hone, hlt⟩ := recover_eq now cfg sys recovery
  refine ⟨n, ?_, hnext, hone⟩
  rw [heq]
  exact foldl_recoverOne_rebuilt (recoverTubes_rebuilt (new_rebuilt h)) hlt hnd

end Engine

end Beanstalkd
