import Beanstalkd.Lib.Trace

/-!
# Group commit of the Raft log

`crates/raft/src/storage/flusher.rs`. Appends queue a job with the file to sync and a
callback; a worker takes all that is queued, syncs the distinct files once and completes
the jobs in order. `push` and `work` synchronise by the flag `running` under the lock.

Each section under the lock, each sync (its begin and its end apart) and each
completion is one step, and the steps of any number of callers and threads interleave.
What happens is written to a trace. A job is named by its ticket, its number among all
jobs pushed: a callback is used up by being invoked, so it has no other identity.

The test-only pause is left out, and so is a panic of a callback.
-/

namespace Beanstalkd.Raft.Flusher

variable {F : Type} [DecidableEq F]

inductive Job (F : Type) where
  /-- The file the append wrote to, if any. -/
  | sync (file : Option F)
  | barrier
  deriving DecidableEq

structure Queued (F : Type) where
  ticket : Nat
  job : Job F
  deriving DecidableEq

/-- The state under the lock. -/
structure State (F : Type) where
  queue : List (Queued F)
  running : Bool
  failed : Option String

/-- Where a thread that is to run, or runs, `work` stands. -/
inductive Worker (F : Type) where
  /-- `running` is set, the thread is not started. -/
  | starting
  /-- Before the lock at the head of the loop. -/
  | testing
  /-- In `handle`, before the lock. -/
  | handling (jobs : List (Queued F))
  | syncing (jobs : List (Queued F)) (files : List F)
  /-- In the `n`-th call of `sync_data`. -/
  | inSync (jobs : List (Queued F)) (n : Nat) (file : F) (files : List F)
  /-- A sync failed, before the lock. -/
  | failing (jobs : List (Queued F)) (why : String)
  | completing (jobs : List (Queued F)) (err : Option String)

/-- What can be observed. -/
inductive Obs (F : Type) where
  | pushed (q : Queued F)
  | syncBegan (n : Nat) (file : F)
  | syncEnded (n : Nat) (file : F) (err : Option String)
  /-- `log_io_completed` of the job's callback. -/
  | completed (q : Queued F) (result : Except String Unit)
  /-- The barrier's sender is used. -/
  | released (q : Queued F)
  /-- `barrier` returns. -/
  | returned (q : Queued F)

structure World (F : Type) where
  state : State F
  /-- The threads that are to run, or run, `work`. -/
  workers : List (Worker F)
  /-- Calls of `push` and of `sync_data`. -/
  pushed : Nat
  syncs : Nat
  trace : List (Obs F)

def World.init : World F := ⟨⟨[], false, none⟩, [], 0, 0, []⟩

/-- `push`: the thread that finds no worker running starts one, or runs `work` itself if
there is no thread to be had. -/
def World.push (w : World F) (job : Job F) : World F :=
  let q : Queued F := ⟨w.pushed, job⟩
  { w with
    state := { w.state with queue := w.state.queue ++ [q], running := true }
    workers := if w.state.running then w.workers else w.workers ++ [.starting]
    pushed := w.pushed + 1
    trace := w.trace ++ [.pushed q] }

/-- The distinct files of the jobs, each at its first place. -/
def filesOf (jobs : List (Queued F)) : List F :=
  jobs.foldl (fun files q =>
    match q.job with
    | .sync (some f) => if f ∈ files then files else files ++ [f]
    | _ => files) []

/-- What completing a job shows. -/
def completion (err : Option String) (q : Queued F) : Obs F :=
  match q.job with
  | .sync _ =>
    .completed q (match err with
      | none => .ok ()
      | some m => .error s!"log sync failed: {m}")
  | .barrier => .released q

/-- The next step of a thread in `work`, and where it stands then, if it has not
returned. `outcome` is the error of a sync that ends. -/
def World.advance (w : World F) (outcome : Option String) : Worker F → World F × Option (Worker F)
  | .starting => (w, some .testing)
  | .testing =>
    if w.state.queue.isEmpty then ({ w with state := { w.state with running := false } }, none)
    else ({ w with state := { w.state with queue := [] } }, some (.handling w.state.queue))
  | .handling jobs =>
    match w.state.failed with
    | none => (w, some (.syncing jobs (filesOf jobs)))
    | some m => (w, some (.completing jobs (some m)))
  | .syncing jobs [] => (w, some (.completing jobs none))
  | .syncing jobs (f :: files) =>
    ({ w with syncs := w.syncs + 1, trace := w.trace ++ [.syncBegan w.syncs f] },
      some (.inSync jobs w.syncs f files))
  | .inSync jobs n f files =>
    ({ w with trace := w.trace ++ [.syncEnded n f outcome] },
      match outcome with
      | none => some (.syncing jobs files)
      | some why => some (.failing jobs why))
  | .failing jobs why =>
    ({ w with state := { w.state with failed := some why } }, some (.completing jobs (some why)))
  | .completing [] _ => (w, some .testing)
  | .completing (q :: jobs) err =>
    ({ w with trace := w.trace ++ [completion err q] }, some (.completing jobs err))

inductive Event (F : Type) where
  /-- `submit`. -/
  | submit (file : Option F)
  | barrier
  /-- The thread at this place takes a step. -/
  | work (i : Nat) (outcome : Option String)
  /-- The caller of `barrier` with this ticket is woken. -/
  | wake (q : Queued F)

def World.step (w : World F) : Event F → World F
  | .submit file => w.push (.sync file)
  | .barrier => w.push .barrier
  | .work i outcome =>
    match w.workers[i]? with
    | none => w
    | some p =>
      let (w, next) := w.advance outcome p
      match next with
      | none => { w with workers := w.workers.eraseIdx i }
      | some p => { w with workers := w.workers.set i p }
  | .wake q =>
    if (w.trace.any fun | .released r => r = q | _ => false) then
      { w with trace := w.trace ++ [.returned q] }
    else w

/-- Any interleaving. -/
def run (es : List (Event F)) : World F := es.foldl World.step .init

/-! ## What a trace shows -/

def pushes (t : List (Obs F)) : List (Queued F) :=
  t.filterMap fun
    | .pushed q => some q
    | _ => none

/-- The jobs done, in the order in which they were. -/
def settled (t : List (Obs F)) : List (Queued F) :=
  t.filterMap fun
    | .completed q _ => some q
    | .released q => some q
    | _ => none

def SyncFailed (t : List (Obs F)) : Prop := ∃ n f why, .syncEnded n f (some why) ∈ t

/-- A sync of the file began after the job was pushed, and succeeded. -/
def SyncedSince (t : List (Obs F)) (q : Queued F) (f : F) : Prop :=
  ∃ n, [.pushed q, .syncBegan n f, .syncEnded n f none].Sublist t

/-- What is behind an observation, in the trace before it: a callback completes with
success only if its file was synced for it and nothing failed before; a barrier returns
when all that was pushed before it is done. -/
def Sound (t : List (Obs F)) : Obs F → Prop
  | .completed q result =>
    (∃ file, q.job = .sync file) ∧
      (result = .ok () → ¬ SyncFailed t ∧ ∀ f, q.job = .sync (some f) → SyncedSince t q f)
  | .released q => q.job = .barrier
  | .returned q => ∀ r, [.pushed r, .pushed q].Sublist t → r ∈ settled t
  | _ => True

/-! ## The invariant -/

/-- The thread in `work`. -/
def World.worker (w : World F) : Option (Worker F) := w.workers.head?

namespace Worker

/-- The jobs a thread has taken and not completed. -/
def hand : Worker F → List (Queued F)
  | .starting | .testing => []
  | .handling jobs | .syncing jobs _ | .inSync jobs _ _ _ | .failing jobs _ => jobs
  | .completing jobs _ => jobs

/-- What is known of the files of the jobs in hand. -/
def Knows (t : List (Obs F)) : Worker F → Prop
  | .syncing jobs files =>
    ¬ SyncFailed t ∧ ∀ q ∈ jobs, ∀ f, q.job = .sync (some f) → f ∈ files ∨ SyncedSince t q f
  | .inSync jobs n f files =>
    ¬ SyncFailed t ∧ ∀ q ∈ jobs, ∀ g, q.job = .sync (some g) →
      g ∈ files ∨ SyncedSince t q g ∨ g = f ∧ [.pushed q, .syncBegan n f].Sublist t
  | .completing jobs none =>
    ¬ SyncFailed t ∧ ∀ q ∈ jobs, ∀ f, q.job = .sync (some f) → SyncedSince t q f
  | _ => True

/-- A failure is about to be stored. -/
def Failing : Worker F → Prop
  | .failing _ _ => True
  | _ => False

end Worker

structure World.Inv (w : World F) : Prop where
  /-- At most one thread, and one exactly if the flag is set. -/
  alone : w.workers = w.worker.toList
  running : w.state.running = w.worker.isSome
  idle : w.worker = none → w.state.queue = []
  tickets : (pushes w.trace).map Queued.ticket = List.range w.pushed
  order : pushes w.trace = settled w.trace ++ ((w.worker.map Worker.hand).getD [] ++ w.state.queue)
  failed : SyncFailed w.trace → w.state.failed.isSome ∨ ∃ p, w.worker = some p ∧ p.Failing
  knows : ∀ p, w.worker = some p → p.Knows w.trace
  sound : Trace.Always Sound w.trace

end Beanstalkd.Raft.Flusher
