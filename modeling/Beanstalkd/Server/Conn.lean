import Beanstalkd.Engine.Urgent
import Beanstalkd.Proto.Framing

/-!
# The connections of a standalone server

`crates/server/src/conn.rs` (`handle_plain`, `command_loop`, `await_reply`) and `run_task` of
`engine_actor.rs`, which has no binlog. Each connection has a task that decodes its bytes and sends
messages on the engine's one channel; the engine takes them in order and ticks after each,
and the replies go back on channels of their own. All of it interleaves, a read returns
any bytes and a task may end at any time (`Event`).

What the engine's methods require of their callers (`Engine.Admissible`) is kept by the
tasks, each for its own connection: `Link` is what a connection may say when. The invariant
`Served` is that, for every connection, what is in the channel leads from where the engine
is (`Meets`) to where the task is (`Task.side`).
-/

open Std

namespace Beanstalkd.Server.Conn

open Engine ServerCodec

structure Task where
  codec : ServerCodec
  rbuf : Bytes := []
  /-- The peer will not send any more. -/
  eof : Bool := false
  /-- In `await_reply`. -/
  awaiting : Bool := false
  /-- What was encoded for the client. -/
  sent : List Response := []

structure Node where
  engine : Engine
  /-- The engine's channel, oldest message first. -/
  chan : List EngineInput := []
  /-- The reply channels. -/
  replies : ConnId → List Response := fun _ => []
  tasks : ExtTreeMap ConnId Task := ∅
  nextConn : ConnId
  maxJobSize : UInt32

inductive TaskEvent where
  | read (bytes : Bytes)
  | close
  | turn
  | receive
  | drop

inductive Event where
  | accept
  | task (c : ConnId) (ev : TaskEvent)
  | drain (on : Bool)
  | message (now : Nanos)
  | timer (now : Nanos)
  | deliver

namespace Node

variable (n : Node) (c : ConnId) (t : Task)

def setTask (t : Option Task) : Node := { n with tasks := n.tasks.alter c fun _ => t }

def send (i : EngineInput) : Node := { n with chan := n.chan ++ [i] }

/-- The task returns; its guard sends `Disconnect`. -/
def finish : Node := (n.setTask c none).send (.disconnect c)

/-- A message that is answered; after the end of the stream, `reassert_half_close`. -/
def request (i : EngineInput) : Node :=
  let n := (n.setTask c (some { t with awaiting := true })).send i
  if t.eof then n.send (.halfClose c) else n

def dispatch : Frame → Node
  -- no tokens on a plain connection
  | .command .quit | .auth _ => n.finish c
  | .command cmd => n.request c t (.command c cmd)
  | .putRejected why => n.request c t (.putRejected c why)
  | .putStarted tooBig => (n.setTask c (some t)).send (.putStarted c tooBig)
  | .error r => n.setTask c (some { t with sent := t.sent ++ [r] })

/-- A round of `command_loop`. -/
def turn : Node :=
  match t.codec.decode t.rbuf with
  | (some f, codec, rbuf) => n.dispatch c { t with codec, rbuf } f
  | (none, codec, rbuf) => if t.eof then n.finish c else n.setTask c (some { t with codec, rbuf })

def taskStep : TaskEvent → Node
  | .read bytes => if t.eof then n else n.setTask c (some { t with rbuf := t.rbuf ++ bytes })
  | .close =>
    if t.eof then n
    else
      let n := n.setTask c (some { t with eof := true })
      if t.awaiting then n.send (.halfClose c) else n
  | .turn => if t.awaiting then n else n.turn c t
  | .receive =>
    match n.replies c with
    | r :: rest =>
      if t.awaiting then
        { n with replies := Function.update n.replies c rest }.setTask c
          (some { t with awaiting := false, sent := t.sent ++ [r] })
      else n
    | [] => n
  | .drop => n.finish c

def step : Event → Node
  | .accept =>
    let codec := ServerCodec.announcing n.maxJobSize false
    ({ n with nextConn := n.nextConn + 1 }.setTask n.nextConn (some { codec })).send
      (.connect n.nextConn)
  | .task c ev =>
    match n.tasks[c]? with
    | some t => n.taskStep c t ev
    | none => n
  | .drain on => n.send (.setDraining on)
  | .message now =>
    match n.chan with
    | i :: chan => { n with engine := (n.engine.call now i).tick now, chan }
    | [] => n
  | .timer now => { n with engine := n.engine.tick now }
  | .deliver =>
    { n with
      replies := fun c => n.replies c ++ (n.engine.out.filter (·.1 = c)).map (·.2)
      engine := { n.engine with out := [] } }

def run (evs : List Event) : Node := evs.foldl step n

end Node

/-! ## What a connection may say -/

/-- Where a connection is, from one end of the channel. -/
inductive Side where
  | unborn
  | idle
  | putting (tooBig : Bool)
  | asked
  | gone

def Side.isOpen : Side → Bool
  | .unborn | .gone => false
  | _ => true

def isRequest : EngineInput → Bool
  | .command _ cmd => cmd ≠ .quit
  | .putRejected .. => true
  | _ => false

/-- The request may be made here: between puts any, in a put its end. -/
def Side.mayAsk : Side → EngineInput → Prop
  | .idle, _ => True
  | .putting b, i => ∀ p : PendingPut, p.id.isNone = b → Completes p i
  | _, _ => False

inductive Link (c : ConnId) : Side → EngineInput → Side → Prop where
  | connect : Link c .unborn (.connect c) .idle
  | start (b : Bool) : Link c .idle (.putStarted c b) (.putting b)
  | request {s : Side} {i : EngineInput} (hc : i.conn = some c) (hi : isRequest i)
    (hs : s.mayAsk i) :
      Link c s i .asked
  | halfClose {s : Side} (hs : s.isOpen) : Link c s (.halfClose c) s
  | close {s : Side} (hs : s.isOpen) : Link c s (.disconnect c) .gone

/-- The engine's end, by its link to the connection and the replies due to it. -/
def Meets (link : Option (Option PendingPut)) (due : Nat) : Side → Prop
  | .unborn => link = none ∧ due = 0
  | .idle => link = some none ∧ due = 0
  | .putting b => (∃ p, link = some (some p) ∧ p.id.isNone = b) ∧ due = 0
  | .asked => link = some none ∧ due = 1
  | .gone => link = none

/-- Between puts, or in one. -/
def Side.of : Option Bool → Side
  | none => .idle
  | some b => .putting b

def Task.side (t : Task) : Side := if t.awaiting then .asked else .of t.codec.pending

def Task.Ok (t : Task) : Prop :=
  t.codec.emitPutStarted = true ∧ (t.awaiting = true → t.codec.pending = none)

/-- One connection, from the engine to its task. -/
structure View where
  link : Option (Option PendingPut)
  /-- The replies that are waited for, said or on their way. -/
  due : Nat
  chan : List EngineInput
  task : Option Task
  /-- Whether its number was given out. -/
  old : Bool

def View.side (v : View) : Side :=
  match v.task with
  | some t => t.side
  | none => if v.old then .gone else .unborn

structure View.Ok (v : View) (c : ConnId) : Prop where
  task : ∀ t, v.task = some t → v.old = true ∧ t.Ok
  links : ∃ s, Meets v.link v.due s ∧ Run (Link c) s v.chan v.side

namespace Node

def view (n : Node) (c : ConnId) : View where
  link := n.engine.link c
  due := n.engine.account c + (n.replies c).length
  chan := n.chan.filter (·.conn = some c)
  task := n.tasks[c]?
  old := c < n.nextConn

structure Served (n : Node) : Prop where
  inv : n.engine.Inv
  all : n.engine.localConns = none
  views : ∀ c, (n.view c).Ok c

end Node

section Links

variable {c : ConnId} {s s' : Side} {i : EngineInput} {l : List EngineInput}

theorem links_gone (h : Run (Link c) .gone l s') : s' = .gone := by
  cases h with
  | nil => rfl
  | cons hl =>
    cases hl with
    | request _ _ hs | halfClose hs | close hs => cases hs

theorem announce_link {o o' : Option Bool} {f : Frame} (h : Announce o f o') (c : ConnId) :
    match f with
    | .command cmd => (cmd ≠ .quit → Link c (.of o) (.command c cmd) .asked) ∧ o' = none
    | .putRejected why => Link c (.of o) (.putRejected c why) .asked ∧ o' = none
    | .putStarted b => Link c (.of o) (.putStarted c b) (.of o')
    | .auth _ | .error _ => o' = o := by
  cases h with
  | @plain f hne =>
    cases f with
    | command => exact ⟨fun hq => .request rfl (decide_eq_true hq) trivial, rfl⟩
    | putRejected => exact ⟨.request rfl rfl trivial, rfl⟩
    | putStarted b => exact absurd rfl (hne b)
    | auth | error => rfl
  | start b => exact .start b
  | finish hf =>
    cases hf with
    | put => exact ⟨fun hq => .request rfl (decide_eq_true hq)
        fun p => Option.isNone_eq_false_iff.mp, rfl⟩
    | badCrlf => exact ⟨.request rfl rfl
        fun p => Option.isNone_eq_false_iff.mp, rfl⟩
    | tooBig => exact ⟨.request rfl rfl
        fun p => Option.isNone_iff_eq_none.mp, rfl⟩

theorem links_conn (h : Run (Link c) s l s') : ∀ i ∈ l, i.conn = some c := by
  induction h with
  | nil => exact nofun
  | cons hl _ ih =>
    refine List.forall_mem_cons.mpr ⟨?_, ih⟩
    cases hl with
    | request hc => exact hc
    | _ => rfl

/-- Who asked says no more before the answer, so is the same after it. -/
theorem links_answered (h : Run (Link c) s l s') (hs : s = .asked) (hs' : s' = .asked) :
    Run (Link c) .idle l .idle := by
  induction h with
  | nil => exact .nil _
  | cons hl hrun ih =>
    subst hs
    cases hl with
    | request _ _ hs => cases hs
    | halfClose => exact .cons (.halfClose rfl) (ih rfl hs')
    | close => cases hs'.symm.trans (links_gone hrun)

/-- What `s` is due. -/
def Side.load : Side → Nat
  | .asked => 1
  | _ => 0

theorem links_load (h : Run (Link c) s l s') (hs' : s' ≠ .gone) :
    l.countP isRequest + s.load = s'.load := by
  induction h with
  | nil => exact Nat.zero_add _
  | @cons s _ _ _ _ hl hrun ih =>
    cases hl with
    | request hc hi hs =>
      have hzero : s.load = 0 := by
        cases s with
        | asked => cases hs
        | _ => rfl
      rw [List.countP_cons_of_pos hi, hzero]
      exact ih hs'
    | close => exact absurd (links_gone hrun) hs'
    | _ => exact ih hs'

end Links

theorem Task.side_open (t : Task) : t.side.isOpen = true := by
  unfold Task.side
  split
  · rfl
  · cases t.codec.pending <;> rfl

/-! ## The engine's end -/

section Engine

variable {e : Engine} {c d : ConnId} {k : ConnState} {i : EngineInput} {s s' : Side}
  {r : Nat}

/-- A message is nobody else's business. -/
theorem call_other (now : Nanos) (h : e.Inv) (hadm : e.Admissible i) (hall : e.localConns = none)
    (hne : i.conn ≠ some d) :
    (e.call now i).link d = e.link d ∧ (e.call now i).account d = e.account d := by
  have hbegun : (e.begun i).link d = e.link d := by
    unfold begun
    split
    · next c => exact congrFun (link_same (doRemoveWaitingConn_same e c)) d
    all_goals first
      | rfl
      | exact congrArg (Option.map _) (TreeMap.getElem?_modify_ne fun hdc => hne (hdc ▸ rfl))
  constructor
  · refine ((call_piece now h hadm).links d).elim (fun heq => heq.trans hbegun) fun ho => ?_
    cases i with
    | connect | disconnect | putStarted => exact absurd (congrArg some (Eq.symm ho)) hne
    | _ => exact ho.elim
  · refine (call_account now h hadm hall fun hi => hne (hi ▸ rfl)).trans ?_
    rw [List.count_eq_zero_of_not_mem, Nat.add_zero]
    intro hmem
    cases i with
    | command c cmd | putRejected c why =>
      rw [asks, Option.mem_toList, Option.map_eq_some_iff] at hmem
      exact hne (congrArg some hmem.choose_spec.2)
    | _ => cases hmem

theorem not_waiting (hz : e.account c + r = 0) (hc : e.conns[c]? = some k) : k.waiting = false := by
  have hw : (e.isWaiting c).toNat = 0 := by
    rw [account] at hz
    omega
  rwa [isWaiting, hc, Option.any_some, Bool.toNat_eq_zero] at hw

theorem setPut_link (e : Engine) (c : ConnId) (q : Option PendingPut) :
    (e.modConn c fun k => { k with pendingPut := q }).link c = (e.link c).map fun _ => q := by
  rw [link, link, modConn, ExtTreeMap.getElem?_modify_self, Option.map_map, Option.map_map]
  rfl

/-- A message in its turn is admissible, and takes the engine's end to the next side. -/
theorem call_meets (now : Nanos) (h : e.Inv) (hall : e.localConns = none) (hlink : Link c s i s')
    (hm : Meets (e.link c) (e.account c + r) s) :
    e.Admissible i ∧ Meets ((e.call now i).link c) ((e.call now i).account c + r) s' := by
  cases hlink with
  | connect =>
    have hadm : e.Admissible (.connect c) := Option.map_eq_none_iff.mp hm.1
    refine ⟨hadm, congrArg (Option.map ConnState.pendingPut) ExtTreeMap.getElem?_insert_self, ?_⟩
    rw [call_account now h hadm hall (by simp)]
    exact hm.2
  | start b =>
    obtain ⟨k, hc, hp⟩ := Option.map_eq_some_iff.mp hm.1
    have hadm : e.Admissible (.putStarted c b) := fun k' hk' =>
      ⟨not_waiting hm.2 hk', fun p hp' => by cases hk'.symm.trans hc; cases hp'.symm.trans hp⟩
    refine ⟨hadm, ?_, by rw [call_account now h hadm hall (by simp)]; exact hm.2⟩
    have hin : e.conns.contains c = true := TreeMap.contains_of hc
    have hset {a : Engine} (p : PendingPut) (ha : a.around = e.around) :
        (a.modConn c fun k => { k with pendingPut := some p }).link c = some (some p) := by
      have hl : a.link c = e.link c := congrFun (congrArg (fun x => x.2.2.2.1) ha) c
      rw [setPut_link, hl, hm.1]
      rfl
    show ∃ p, (e.putStarted now c b).link c = _ ∧ _
    rw [putStarted, if_pos hin]
    cases b with
    | true => exact ⟨_, hset _ rfl, rfl⟩
    | false => exact ⟨_, hset _ (connsetproducer_around (e.countOp _) c), rfl⟩
  | request hconn hi hs =>
    -- nothing is due, so the connection does not wait
    obtain ⟨q, hl, hz, hq⟩ : ∃ q, e.link c = some q ∧ e.account c + r = 0 ∧
        ∀ p, q = some p → Completes p i := by
      cases s with
      | idle => exact ⟨none, hm.1, hm.2, by simp⟩
      | putting b =>
        obtain ⟨⟨p, hl, hb⟩, hz⟩ := hm
        exact ⟨some p, hl, hz, fun p' heq => hs p' (by cases heq; exact hb)⟩
      | _ => cases hs
    obtain ⟨k, hc, hk⟩ := Option.map_eq_some_iff.mp hl
    have hmay (k' : ConnState) (hk' : e.conns[c]? = some k') : ClientMay k' i := by
      cases hk'.symm.trans hc
      exact ⟨not_waiting hz hc, fun p hp => hq p (hk.symm.trans hp)⟩
    obtain ⟨hadm, hbegun, hasks, hown⟩ : e.Admissible i ∧ e.begun i = e.clearPut c ∧
        e.asks i = [c] ∧ ¬(e.terms now i).own c := by
      have hasks : (e.conns[c]?.map fun _ => c).toList = [c] := by rw [hc]; rfl
      cases i with
      | command c' cmd =>
        cases hconn
        exact ⟨⟨of_decide_eq_true hi, hmay⟩, rfl, hasks, id⟩
      | putRejected c' why =>
        cases hconn
        exact ⟨hmay, rfl, hasks, id⟩
      | _ => cases hi
    refine ⟨hadm, ?_, ?_⟩
    · rw [((call_piece now h hadm).links c).resolve_right hown, hbegun, clearPut, setPut_link, hl]
      rfl
    · rw [call_account now h hadm hall (by rintro rfl; cases hi), hasks, List.count_singleton_self]
      omega
  | halfClose =>
    have hadm : e.Admissible (.halfClose c) := trivial
    refine ⟨hadm, ?_⟩
    rw [((call_piece now h hadm).links c).resolve_right id, call_account now h hadm hall (by simp)]
    exact hm
  | close =>
    have hout : (e.disconnect now c).conns[c]? = none :=
      ExtTreeMap.getElem?_eq_none_of_contains_eq_false
        ((disconnect_conns e now c c).trans (by simp))
    exact ⟨trivial, congrArg (Option.map ConnState.pendingPut) hout⟩

end Engine

namespace Node.Served

variable {n n' : Node} {c : ConnId} {t t' : Task} {i : EngineInput} {l : List EngineInput}

theorem ticked (h : Served n) (now : Nanos) : Served { n with engine := n.engine.tick now } := by
  have hadm : n.engine.Admissible .tick := trivial
  refine ⟨tick_inv h.inv, (call_piece now h.inv hadm).owners.trans h.all, fun d => ?_⟩
  have htick : (n.engine.tick now).link d = n.engine.link d ∧
      (n.engine.tick now).account d = n.engine.account d := call_other now h.inv hadm h.all nofun
  rw [view, htick.1, htick.2]
  exact h.views d

/-- The engine takes the next message, which is admissible. -/
theorem message (h : Served n) (now : Nanos) (hchan : n.chan = i :: l) :
    n.engine.Admissible i ∧ Served { n with engine := n.engine.call now i, chan := l } := by
  have hturn (c : ConnId) (hc : i.conn = some c) : n.engine.Admissible i ∧
      ({ n with engine := n.engine.call now i, chan := l }.view c).Ok c := by
    obtain ⟨s, hm, hrun⟩ := (h.views c).links
    rw [view, hchan, List.filter_cons_of_pos (by simpa using hc)] at hrun
    cases hrun with
    | cons hl hrun =>
      have hmeets := call_meets now h.inv h.all hl hm
      exact ⟨hmeets.1, (h.views c).task, _, hmeets.2, hrun⟩
  have hadm : n.engine.Admissible i := by
    cases i with
    | tick | setDraining => trivial
    | _ => exact (hturn _ rfl).1
  refine ⟨hadm, call_inv h.inv hadm,
    (call_piece now h.inv hadm).owners.trans ((begun_frame n.engine i).1.trans h.all), fun d => ?_⟩
  by_cases hd : i.conn = some d
  · exact (hturn d hd).2
  obtain ⟨hlink, haccount⟩ := call_other now h.inv hadm h.all hd
  have hview := h.views d
  rw [view, hchan, List.filter_cons_of_neg (by simpa using hd), ← hlink, ← haccount] at hview
  exact hview

/-- Something happens at one connection's task. -/
theorem atTask (h : Served n) (heng : n'.engine = n.engine)
    (hother : ∀ d, d ≠ c → n'.view d = n.view d) (hself : (n'.view c).Ok c) : Served n' := by
  refine ⟨heng ▸ h.inv, heng ▸ h.all, fun d => ?_⟩
  by_cases hd : d = c
  · exact hd ▸ hself
  · exact hother d hd ▸ h.views d

theorem setTask_tasks (n : Node) (c d : ConnId) (o : Option Task) :
    (n.setTask c o).tasks[d]? = if d = c then o else n.tasks[d]? := by
  rw [setTask, ExtTreeMap.getElem?_alter]
  simp only [Std.compare_eq_iff_eq, eq_comm (a := c)]

/-- The task says `l` and goes on, or ends. -/
theorem speak (h : Served n) (o : Option Task) {next : ConnId} (hc : c < next)
    (hnext : ∀ d, d ≠ c → (d < next ↔ d < n.nextConn)) (hok : ∀ t, o = some t → t.Ok)
    (hrun : Run (Link c) (n.view c).side l (o.elim .gone Task.side)) :
    Served { n.setTask c o with chan := n.chan ++ l, nextConn := next } := by
  refine h.atTask (c := c) rfl (fun d hd => ?_) ⟨fun t ht => ?_, ?_⟩
  · have hnil : l.filter (·.conn = some d) = [] :=
      List.filter_eq_nil_iff.mpr fun i hi => by simp [links_conn hrun i hi, Ne.symm hd]
    simp only [view, setTask_tasks, if_neg hd, List.filter_append, hnil, List.append_nil,
      hnext d hd]
    rfl
  · rw [view, setTask_tasks, if_pos rfl] at ht
    exact ⟨decide_eq_true hc, hok t ht⟩
  · obtain ⟨s, hm, hold⟩ := (h.views c).links
    have hall : l.filter (·.conn = some c) = l :=
      List.filter_eq_self.mpr fun i hi => decide_eq_true (links_conn hrun i hi)
    refine ⟨s, hm, ?_⟩
    simp only [view, View.side, setTask_tasks, List.filter_append, hall, decide_eq_true hc]
    refine hold.append ?_
    cases o <;> exact hrun

theorem side_task (ht : n.tasks[c]? = some t) : (n.view c).side = t.side := by
  rw [View.side, view, ht]

theorem task (h : Served n) (ht : n.tasks[c]? = some t) (hrun : Run (Link c) t.side l t'.side)
    (hok : t'.Ok) : Served { n.setTask c (some t') with chan := n.chan ++ l } := by
  refine h.speak (some t') (of_decide_eq_true ((h.views c).task t ht).1) (fun _ _ => Iff.rfl)
    (fun t₁ ht₁ => Option.some.inj ht₁ ▸ hok) ?_
  rw [side_task ht]
  exact hrun

theorem keep (h : Served n) (ht : n.tasks[c]? = some t) (hside : t'.side = t.side) (hok : t'.Ok) :
    Served (n.setTask c (some t')) := by
  have hs := h.task ht (by rw [hside]; exact .nil _) hok
  rwa [List.append_nil] at hs

theorem finish (h : Served n) (ht : n.tasks[c]? = some t) : Served (n.finish c) := by
  refine h.speak none (of_decide_eq_true ((h.views c).task t ht).1) (fun _ _ => Iff.rfl) nofun ?_
  rw [side_task ht]
  exact .single (.close t.side_open)

theorem accept (h : Served n) : Served (n.step .accept) := by
  refine h.speak (some _) (Nat.lt_succ_self _)
    (fun d hd => Nat.lt_succ_iff_lt_or_eq.trans (or_iff_left hd)) ?_ ?_
  · intro t ht
    cases ht
    exact ⟨rfl, nofun⟩
  have hnone : n.tasks[n.nextConn]? = none := Option.eq_none_iff_forall_ne_some.mpr fun t ht =>
    Nat.lt_irrefl _ (of_decide_eq_true ((h.views _).task t ht).1)
  rw [View.side, view, hnone, decide_eq_false (Nat.lt_irrefl _)]
  exact .single .connect

theorem request (h : Served n) (ht : n.tasks[c]? = some t) (hl : Link c t.side i .asked)
    (hok : t'.codec.emitPutStarted = true) (hput : t'.codec.pending = none) :
    Served (n.request c t' i) := by
  unfold Node.request
  split
  · have hlinks : Run (Link c) t.side ([i] ++ [.halfClose c])
        (Task.side { t' with awaiting := true }) :=
      .snoc (.single hl) (.halfClose rfl)
    have hs := h.task ht hlinks ⟨hok, fun _ => hput⟩
    rwa [← List.append_assoc] at hs
  · exact h.task ht (.single hl) ⟨hok, fun _ => hput⟩

theorem dispatch {f : Frame} (h : Served n) (ht : n.tasks[c]? = some t) (hidle : t.awaiting = false)
    (hidle' : t'.awaiting = false) (hok : t'.Ok)
    (hf : Announce t.codec.pending f t'.codec.pending) : Served (n.dispatch c t' f) := by
  have hside {t : Task} (h : t.awaiting = false) : t.side = .of t.codec.pending :=
    if_neg (by simp [h])
  have hl := announce_link hf c
  rw [← hside hidle] at hl
  unfold Node.dispatch
  split
  · exact h.finish ht
  · exact h.finish ht
  · next hq => exact h.request ht (hl.1 fun heq => hq (heq ▸ rfl)) hok.1 hl.2
  · exact h.request ht hl.1 hok.1 hl.2
  · rw [← hside hidle'] at hl
    exact h.task ht (.single hl) hok
  · exact h.keep ht ((hside hidle').trans (hl ▸ (hside hidle).symm)) hok

theorem turn (h : Served n) (ht : n.tasks[c]? = some t) (hidle : t.awaiting = false) :
    Served (n.turn c t) := by
  have hd : (t.codec.decode t.rbuf).2.1.emitPutStarted = true ∧ Run Announce t.codec.pending
      (t.codec.decode t.rbuf).1.toList (t.codec.decode t.rbuf).2.1.pending :=
    call_announce _ ((h.views c).task t ht).2.1 t.rbuf
  unfold Node.turn
  generalize t.codec.decode t.rbuf = r at hd ⊢
  obtain ⟨f, codec, rbuf⟩ := r
  have hok : Task.Ok { t with codec, rbuf } := ⟨hd.1, by simp [hidle]⟩
  cases f with
  | some f =>
    cases hd.2 with
    | cons hf hnil =>
      cases hnil
      exact h.dispatch ht hidle hidle hok hf
  | none =>
    simp only
    split
    · exact h.finish ht
    · refine h.keep ht ?_ hok
      rw [Task.side, Task.side, hd.2.nil_eq]

/-- A reply reaches the task that asked. -/
theorem receive {r : Response} {rest : List Response} (h : Served n) (ht : n.tasks[c]? = some t)
    (hw : t.awaiting = true) (hr : n.replies c = r :: rest) (sent : List Response) :
    Served ({ n with replies := Function.update n.replies c rest }.setTask c
      (some { t with awaiting := false, sent })) := by
  obtain ⟨hold, hemit, hput⟩ := (h.views c).task t ht
  have hself := (setTask_tasks { n with replies := Function.update n.replies c rest } c c
    (some { t with awaiting := false, sent })).trans (if_pos rfl)
  refine h.atTask (c := c) rfl (fun d hd => ?_) ⟨fun t₁ ht₁ => ?_, ?_⟩
  · simp only [view, setTask_tasks, if_neg hd]
    simp only [setTask, Function.update_of_ne hd]
    rfl
  · cases hself.symm.trans ht₁
    exact ⟨hold, hemit, nofun⟩
  obtain ⟨s, hm, hrun⟩ := (h.views c).links
  rw [side_task ht, Task.side, if_pos hw] at hrun
  have hdue : (n.view c).due = n.engine.account c + rest.length + 1 := by
    rw [view, hr, List.length_cons, Nat.add_assoc]
  -- a reply is there, so the engine's end was asked too
  have hs : s = .asked := by
    cases s with
    | asked => rfl
    | gone => cases links_gone hrun
    | _ => cases hdue.symm.trans hm.2
  subst hs
  refine ⟨.idle, ⟨hm.1, ?_⟩, ?_⟩
  · show n.engine.account c + (Function.update n.replies c rest c).length = 0
    rw [Function.update_self]
    exact Nat.succ.inj (hdue.symm.trans hm.2)
  · rw [side_task hself, Task.side, hput hw]
    exact links_answered hrun rfl rfl

theorem taskStep (h : Served n) (ht : n.tasks[c]? = some t) (ev : TaskEvent) :
    Served (n.taskStep c t ev) := by
  have hok := ((h.views c).task t ht).2
  unfold Node.taskStep
  split
  · split
    · exact h
    · exact h.keep ht rfl hok
  · split
    · exact h
    split
    · exact h.task ht (.single (.halfClose t.side_open)) hok
    · exact h.keep ht rfl hok
  · split
    · exact h
    · next hidle => exact h.turn ht (Bool.eq_false_iff.mpr hidle)
  · split
    · next r rest hr =>
      split
      · next hw => exact h.receive ht hw hr _
      · exact h
    · exact h
  · exact h.finish ht

theorem deliver (h : Served n) : Served (n.step .deliver) := by
  refine ⟨⟨{ h.inv.core with }, h.inv.refs, h.inv.watching, h.inv.allocated⟩, h.all, fun d => ?_⟩
  have hdue : ((n.step .deliver).view d).due = (n.view d).due := by
    simp only [view, account, Node.step, List.countP_eq_length_filter, List.length_append,
      List.length_map]
    show 0 + (n.engine.isWaiting d).toNat + _ = _
    omega
  obtain ⟨s, hm, hrun⟩ := (h.views d).links
  exact ⟨(h.views d).task, s, by rw [hdue]; exact hm, hrun⟩

theorem step (h : Served n) (ev : Event) : Served (n.step ev) := by
  unfold Node.step
  split
  · exact h.accept
  · split
    · next t ht => exact h.taskStep ht _
    · exact h
  · refine ⟨h.inv, h.all, fun d => ?_⟩
    rw [view, send, List.filter_append, List.filter_singleton]
    exact (List.append_nil _).symm ▸ h.views d
  · split
    · next i l hchan => exact (h.message _ hchan).2.ticked _
    · exact h
  · exact h.ticked _
  · exact h.deliver

end Node.Served

/-- The server before its first connection. -/
def Node.new (now : Nanos) (cfg : EngineConfig) (sys : Nanos → SysSnapshot) (nextConn : ConnId)
    (maxJobSize : UInt32) : Node :=
  { engine := .new now cfg sys, nextConn, maxJobSize }

section Main

variable (now : Nanos) (cfg : EngineConfig) (sys : Nanos → SysSnapshot) (first : ConnId)
  (maxJobSize : UInt32) (evs : List Event)

theorem run_served : ((Node.new now cfg sys first maxJobSize).run evs).Served := by
  have hlink (c : ConnId) : (Engine.new now cfg sys).link c = none := rfl
  have hdue (c : ConnId) : (Engine.new now cfg sys).account c = 0 := rfl
  refine List.foldlRecOn evs Node.step ⟨new_inv now cfg sys, rfl, fun c => ⟨nofun, _, ?_, .nil _⟩⟩
    fun n h ev _ => h.step ev
  unfold View.side
  split
  · contradiction
  split
  · exact hlink c
  · exact ⟨hlink c, hdue c⟩

/-- Whatever the clients send and however it all interleaves: the engine keeps its
invariant, and the next message is one its methods may be called with. -/
theorem messages_admissible (evs : List Event) :
    let n := (Node.new now cfg sys first maxJobSize).run evs
    n.engine.Inv ∧ ∀ i l, n.chan = i :: l → n.engine.Admissible i := by
  have h := run_served now cfg sys first maxJobSize evs
  exact ⟨h.inv, fun i l hchan => (h.message 0 hchan).1⟩

/-- A task that waits has one request in the channel, or one the engine lets wait, or one
reply on its way; no other task has any. -/
theorem one_request_each (c : ConnId) : let n := (Node.new now cfg sys first maxJobSize).run evs
    (n.tasks[c]?.map fun _ => (n.view c).chan.countP isRequest + (n.view c).due) =
      n.tasks[c]?.map fun t => t.awaiting.toNat := by
  intro n
  obtain ⟨s, hm, hrun⟩ := ((run_served now cfg sys first maxJobSize evs).views c).links
  refine Option.map_congr fun t ht => ?_
  rw [Node.Served.side_task ht] at hrun
  have hopen : t.side ≠ .gone := fun hs => by cases hs ▸ t.side_open
  have hdue : (n.view c).due = s.load := by
    cases s with
    | gone => exact absurd (links_gone hrun) hopen
    | _ => exact hm.2
  rw [hdue, links_load hrun hopen, Task.side]
  cases t.awaiting with
  | true => rfl
  | false => cases t.codec.pending <;> rfl

/-- No job is lost, made up or turned into another, whatever order things happen in: a put
adds at most one, under a new number, a delete takes away at most the one it names, for a
client that has it if anybody has, and no other message and no timer touches any. -/
theorem jobs_conserved (time : Nanos) :
    let n := (Node.new now cfg sys first maxJobSize).run evs
    (∀ i l, n.chan = i :: l → n.engine.Conserves (n.step (.message time)).engine.jobCore i) ∧
    (n.step (.timer time)).engine.jobCore = n.engine.jobCore := by
  have h := run_served now cfg sys first maxJobSize evs
  have htick {e : Engine} (he : e.Inv) : (e.tick time).jobCore = e.jobCore :=
    call_conserves time he (show e.Admissible .tick from trivial)
  refine ⟨fun i l hchan => ?_, htick h.inv⟩
  have hadm := (h.message time hchan).1
  rw [Node.step, hchan]
  show Engine.Conserves _ (Engine.tick _ time).jobCore i
  rw [htick (call_inv h.inv hadm)]
  exact call_conserves time h.inv hadm

end Main

end Beanstalkd.Server.Conn
