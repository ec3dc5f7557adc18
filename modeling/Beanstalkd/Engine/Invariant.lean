import Beanstalkd.Engine.Placement

/-!
# The engine's invariant

What `Engine::validate` checks, cut along the aspects it reads. Each group is a
predicate over aspects only:

- `Dir`: the tube directory (names, list order, free slots);
- `Placed`: containers, job counters and list keys (`Placement.lean`);
- `JobsOk`, `PendOk`: job records and the ids held by pending puts;
- `Housed`, `Watched`: jobs live in tubes that exist, and so does what is watched;
- `Queued`: the wait lists of the tubes, against the connections that wait;
- `Index.Current`, `Index.Of`, `Index.Marked`: the four ordered indexes;
- `Calm`: no job and waiter are kept apart, except by a pause;
- `ConnsOk`: what the census counts;
- `RefsOk`: reference counts, and that no tube is an orphan.

`Core` bundles all but the references; `Slack` names the one job, connection or
tube at which a method may have it broken half-way. `RefsOk` stands alone
because it is the only group that is broken *across* the destruction of a tube:
`use`, `ignore` and `disconnect` drop a reference, collect the tube if it was
the last one, and only then settle what the connection refers to.
-/

open Std

namespace Beanstalkd

/-! ## The tube directory -/

structure Dir (slots : Nat) (sig : TubeId → Option (TubeName × Nat)) (d : Directory) : Prop where
  default : sig defaultTubeId = some (TubeName.defaultTube, 0)
  bound {i : TubeId} {s : TubeName × Nat} : sig i = some s → i < slots
  named {i : TubeId} {n : TubeName} {p : Nat} : sig i = some (n, p) → d.tubeIds[n]? = some i
  listed {i : TubeId} {n : TubeName} {p : Nat} :
    sig i = some (n, p) → d.tubeOrder.items[p]? = some i
  ids {i : TubeId} {n : TubeName} : d.tubeIds[n]? = some i → ∃ p, sig i = some (n, p)
  order {i : TubeId} {p : Nat} : d.tubeOrder.items[p]? = some i → ∃ n, sig i = some (n, p)
  free : ∀ i, i ∈ d.freeTubeIds ↔ i < slots ∧ sig i = none
  freeNodup : d.freeTubeIds.Nodup

/-! ## Jobs and pending puts -/

structure JobOk (limbo : Option JobId) (nextJobId : JobId) (i : JobId) (j : JobRec) : Prop where
  id : j.id = i
  below : i < nextJobId
  ttr : 1 ≤ j.ttr
  /-- A job has a reserver exactly while it is reserved. -/
  holder : limbo ≠ some i → (j.reserver.isSome ↔ j.state = .reserved)

def JobsOk (limbo : Option JobId) (jobs : ExtTreeMap JobId JobRec) (nextJobId : JobId) : Prop :=
  ∀ (i : JobId) (j : JobRec), jobs[i]? = some j → JobOk limbo nextJobId i j

/-- Ids held by pending puts are allocated, unused and not shared. -/
structure PendOk (pending : ExtTreeMap ConnId (Option JobId)) (jobs : ExtTreeMap JobId JobRec)
    (nextJobId : JobId) : Prop where
  below {c : ConnId} {i : JobId} : pending[c]? = some (some i) → i < nextJobId
  unused {c : ConnId} {i : JobId} : pending[c]? = some (some i) → jobs[i]? = none
  distinct {c c' : ConnId} {i : JobId} :
    pending[c]? = some (some i) → pending[c']? = some (some i) → c = c'

/-- Every job is in a tube that exists. -/
def Housed (sig : TubeId → Option (TubeName × Nat)) (jobs : ExtTreeMap JobId JobRec) : Prop :=
  ∀ (i : JobId) (j : JobRec), jobs[i]? = some j → ∃ s, sig j.tube = some s

/-! ## Watch and wait lists -/

/-- Watch lists name tubes that exist, each once. -/
structure Watched (sig : TubeId → Option (TubeName × Nat))
    (W : ExtTreeMap ConnId (List TubeId)) : Prop where
  live {c : ConnId} {w : List TubeId} : W[c]? = some w → ∀ i ∈ w, ∃ s, sig i = some s
  nodup {c : ConnId} {w : List TubeId} : W[c]? = some w → w.Nodup

/-- What the connections say they wait on; `fix` corrects it for the one
connection that is just joining or leaving its queues. -/
def effective (fix : Option (ConnId × List TubeId)) (K : ExtTreeMap ConnId (List TubeId)) :
    ExtTreeMap ConnId (List TubeId) :=
  match fix with
  | none => K
  | some (c, l) => K.insert c l

/-- Connection `c` waits on tube `t`, by its own account. -/
def WaitsOn (K : ExtTreeMap ConnId (List TubeId)) (c : ConnId) (t : TubeId) : Prop :=
  ∃ l, K[c]? = some l ∧ t ∈ l

/-- The wait lists hold exactly the pairs of `K`, each once, and are counted.
`early` is a pair already off its list but still counted: a waiter just taken. -/
def Queued (early : Option (TubeId × ConnId)) (waits : TubeId → Option (List ConnId × Nat))
    (K : ExtTreeMap ConnId (List TubeId)) : Prop :=
  ∀ t l n, waits t = some (l, n) →
    l.Nodup ∧ (∀ c, c ∈ l ↔ WaitsOn K c t ∧ early ≠ some (t, c)) ∧
      n = l.length + (early.any fun x => x.1 == t).toNat

/-- Unless a dispatch is owed, only a pause keeps a ready job from a waiter. -/
def Calm (owed : Bool) (busy : TubeId → Option Bool) : Prop :=
  owed = false → ∀ t, busy t ≠ some true

/-! ## Indexes -/

/-- `pauses` holds the tubes that are paused, by the end of the pause. -/
def PausesOk (paused : TubeId → Option (Option Nanos)) (s : ExtTreeSet (Nanos × TubeId)) : Prop :=
  Index.Of (fun t => (paused t).join) s

/-- `conn_ticks` holds the connections that need attention, by time. -/
def TicksOk (stale : Option ConnId) (ticks : ExtTreeMap ConnId (Option Nanos × Option Nanos))
    (s : ExtTreeSet (Nanos × ConnId)) : Prop :=
  Index.Current stale (fun c => ticks[c]?) s

/-! ## Connections -/

structure ConnsOk (wait : ExtTreeMap ConnId (Bool × Option Nanos))
    (roles : ExtTreeMap ConnId (Bool × Bool)) (census : Census) (waitingCt : Nat) : Prop where
  cur : census.curConns = roles.size
  producers : census.curProducers = TreeMap.count (fun _ r => r.1) roles
  workers : census.curWorkers = TreeMap.count (fun _ r => r.2) roles
  waiting : waitingCt = TreeMap.count (fun _ w => w.1) wait
  /-- Only a waiting connection has a wait deadline. -/
  idle {c : ConnId} {d : Option Nanos} : wait[c]? = some (false, d) → d = none

/-! ## References -/

/-- The reference counts that uses, watches and jobs call for. -/
def refsOf (U : ExtTreeMap ConnId TubeId) (W : ExtTreeMap ConnId (List TubeId))
    (H : ExtTreeMap JobId TubeId) (i : TubeId) : RefCts where
  usingCt := TreeMap.count (fun _ t => t == i) U
  watchingCt := TreeMap.count (fun _ w => w.contains i) W
  jobRefCt := TreeMap.count (fun _ t => t == i) H

/-- Tubes count their references, used tubes exist, and no tube but "default"
and those in `orphans` is unreferenced. -/
structure RefsOk (orphans : List TubeId) (refs : TubeId → Option RefCts)
    (U : ExtTreeMap ConnId TubeId) (W : ExtTreeMap ConnId (List TubeId))
    (H : ExtTreeMap JobId TubeId) : Prop where
  counts {i : TubeId} {r : RefCts} : refs i = some r → r = refsOf U W H i
  use_live {c : ConnId} {i : TubeId} : U[c]? = some i → ∃ r, refs i = some r
  referenced {i : TubeId} {r : RefCts} : refs i = some r →
    i = defaultTubeId ∨ i ∈ orphans ∨ 0 < r.usingCt + r.watchingCt + r.jobRefCt

/-! ## Rewriting aspects

A method shows that an aspect did not change, and the group that reads it
follows. -/

section Congr

variable {Q Q' : TubeId → Option Queues} {R R' : ExtTreeMap ConnId Resv}
  {P P' : ExtTreeMap JobId Place} {T T' : Tally} {n : Nat}

theorem Dir.congr {n' : Nat} {s s' : TubeId → Option (TubeName × Nat)} {d : Directory}
    (h : Dir n s d) (hn : n' = n) (hs : s' = s) : Dir n' s' d := by
  subst hn hs; exact h

theorem Placed.congr (h : Placed Q R P T n) (hQ : Q' = Q) (hR : R' = R) (hP : P' = P) :
    Placed Q' R' P' T n := by
  subst hQ hR hP; exact h

theorem Queued.congr {early : Option (TubeId × ConnId)}
    {w w' : TubeId → Option (List ConnId × Nat)} {K K' : ExtTreeMap ConnId (List TubeId)}
    (h : Queued early w K) (hw : w' = w) (hK : K' = K) : Queued early w' K' := by
  subst hw hK; exact h

theorem PendOk.congr {p p' : ExtTreeMap ConnId (Option JobId)} {J J' : ExtTreeMap JobId JobRec}
    (h : PendOk p J n) (hp : p' = p) (hJ : ∀ i : JobId, J[i]? = none → J'[i]? = none) :
    PendOk p' J' n := by
  subst hp
  exact ⟨h.below, fun hc => hJ _ (h.unused hc), h.distinct⟩

theorem PausesOk.congr {p p' : TubeId → Option (Option Nanos)} {s : ExtTreeSet (Nanos × TubeId)}
    (h : PausesOk p s) (hp : p' = p) : PausesOk p' s := by
  subst hp; exact h

theorem TicksOk.congr {stale : Option ConnId}
    {t t' : ExtTreeMap ConnId (Option Nanos × Option Nanos)} {s : ExtTreeSet (Nanos × ConnId)}
    (h : TicksOk stale t s) (ht : t' = t) : TicksOk stale t' s := by
  subst ht; exact h

theorem ConnsOk.congr {w w' : ExtTreeMap ConnId (Bool × Option Nanos)}
    {r r' : ExtTreeMap ConnId (Bool × Bool)} {c : Census} (h : ConnsOk w r c n) (hw : w' = w)
    (hr : r' = r) : ConnsOk w' r' c n := by
  subst hw hr; exact h

theorem Housed.congr {S S' : TubeId → Option (TubeName × Nat)} {J J' : ExtTreeMap JobId JobRec}
    (h : Housed S J) (hS : S' = S)
    (hJ : (J'.map fun _ j => JobRec.tube j) = J.map fun _ j => JobRec.tube j) : Housed S' J' := by
  subst hS
  intro i j' hj'
  have hi : (J'.map fun _ j => JobRec.tube j)[i]? = some j'.tube := TreeMap.map_of hj'
  obtain ⟨j, hj, ht⟩ := TreeMap.map_eq_some_iff.mp (hJ ▸ hi)
  exact ht ▸ h i j hj

theorem Watched.congr {S S' : TubeId → Option (TubeName × Nat)}
    {W W' : ExtTreeMap ConnId (List TubeId)} (h : Watched S W) (hS : S' = S) (hW : W' = W) :
    Watched S' W' := by
  subst hS hW; exact h

theorem Calm.congr {o : Bool} {b b' : TubeId → Option Bool} (h : Calm o b) (hb : b' = b) :
    Calm o b' := by
  subst hb; exact h

theorem RefsOk.congr {o : List TubeId} {refs refs' : TubeId → Option RefCts}
    {U U' : ExtTreeMap ConnId TubeId} {W W' : ExtTreeMap ConnId (List TubeId)}
    {H H' : ExtTreeMap JobId TubeId} (h : RefsOk o refs U W H) (hr : refs' = refs) (hU : U' = U)
    (hW : W' = W) (hH : H' = H) : RefsOk o refs' U' W' H' := by
  subst hr hU hW hH; exact h

end Congr

/-! ## The bundle -/

/-- Where a method may have the invariant broken half-way. -/
structure Slack where
  /-- A job in no container. -/
  limbo : Option JobId := none
  /-- A connection whose tick key is stale. -/
  tick : Option ConnId := none
  /-- A tube whose delay head is stale. -/
  head : Option TubeId := none
  /-- A tube whose dispatchable mark is stale. -/
  disp : Option TubeId := none
  /-- A waiter taken off a tube's list but still counted there. -/
  early : Option (TubeId × ConnId) := none
  /-- A connection on the wait lists of just these tubes. -/
  queue : Option (ConnId × List TubeId) := none
  /-- There may be a job to hand out. -/
  owed : Bool := false

namespace Engine

/-- The tubes of the jobs. -/
def homes (e : Engine) : ExtTreeMap JobId TubeId := e.jobs.map fun _ j => j.tube

def uses (e : Engine) : ExtTreeMap ConnId TubeId := e.conns.map fun _ c => c.useTube

def watches (e : Engine) : ExtTreeMap ConnId (List TubeId) := e.conns.map fun _ c => c.watch.items

def waitQueues (e : Engine) : ExtTreeMap ConnId (List TubeId) := e.conns.map fun _ c => c.queue

structure Core (s : Slack) (e : Engine) : Prop where
  dir : Dir e.tubes.length (Slab.view TubeState.sig e.tubes) e.toDirectory
  placed : Placed (Slab.view TubeState.queues e.tubes) (e.conns.map fun _ c => c.resv)
    (places s.limbo e.jobs) e.tally e.nextListSeq
  jobs : JobsOk s.limbo e.jobs e.nextJobId
  pending : PendOk (e.conns.map fun _ c => c.pendingId) e.jobs e.nextJobId
  housed : Housed (Slab.view TubeState.sig e.tubes) e.jobs
  watched : Watched (Slab.view TubeState.sig e.tubes) e.watches
  queued : Queued s.early (Slab.view TubeState.waits e.tubes) (effective s.queue e.waitQueues)
  ticks : TicksOk s.tick (e.conns.map fun _ c => c.ticks) e.connTicks
  heads : Index.Current s.head (Slab.view TubeState.heads e.tubes) e.delayHeads
  pauses : PausesOk (Slab.view TubeState.pauseKey e.tubes) e.pauses
  disp : Index.Marked s.disp (Slab.view TubeState.disp e.tubes) e.dispatchable
  calm : Calm s.owed (Slab.view TubeState.busy e.tubes)
  conns : ConnsOk (e.conns.map fun _ c => c.wait) (e.conns.map fun _ c => c.roles) e.toCensus
    e.waitingCt

/-- The invariant of an engine between two calls. -/
structure Inv (e : Engine) : Prop where
  core : Core {} e
  refs : RefsOk [] (Slab.view TubeState.refCts e.tubes) e.uses e.watches e.homes
  /-- Every connection watches at least one tube. -/
  watching : ∀ (c : ConnId) (w : List TubeId), e.watches[c]? = some w → w ≠ []
  allocated : 1 ≤ e.nextJobId

end Engine

end Beanstalkd
