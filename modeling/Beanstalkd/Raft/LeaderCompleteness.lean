import Beanstalkd.Raft.ProtocolLead

/-!
# Committed entries survive the loss of data

`docs/DESIGN.md` section 8 argues that a voter may lose its data and rejoin: it
adopts a vote that meets every earlier election, and it votes again only once it has
applied a `DropNode` proposed since. That covers the votes it gives after the loss.
A grant it sent before is still counted when it arrives late; the leader it then
helps to elect may lack what was committed since with the node's help. With five
voters one loss is enough (`late_grant_elects`).

If no candidate becomes leader by such a grant, every leader has what was committed
by the leaders before it (`committed_survives`).
-/

namespace Beanstalkd.Raft.Protocol

variable {c : Voters} {s : State}

/-- A candidate becomes leader only by grants of voters that still have their data. -/
def Act.Fresh (s : State) : Act → Prop
  | .lead n => s.Fresh n
  | _ => True

instance (s : State) (a : Act) : Decidable (a.Fresh s) := by
  cases a <;> unfold Act.Fresh <;> infer_instance

/-- Every step of the run is fresh. -/
def State.FreshRun (c : Voters) : State → List Act → Prop
  | _, [] => True
  | s, a :: acts => a.Fresh s ∧ (s.step c a).FreshRun c acts

instance State.decidableFreshRun (c : Voters) : ∀ (s : State) (acts : List Act),
    Decidable (s.FreshRun c acts)
  | _, [] => .isTrue trivial
  | s, a :: acts =>
    have := decidableFreshRun c (s.step c a) acts
    inferInstanceAs (Decidable (_ ∧ _))

theorem Inv.deliver (h : Inv c s) (n : NodeId) {m : Msg} (hm : m ∈ s.net) :
    Inv c (s.deliver c n m) := by
  cases m with
  | voteReq w proc log => exact h.vote n hm
  | grant w proc voter losses asked mine => exact h.count hm
  | append v prev log commit => exact h.accept n hm
  | ack v q g matched => exact h.acknowledge hm
  | status dst proc src st => exact h.answer hm
  | dropped dst proc leader index => exact h.rejoined hm

theorem Inv.step (h : Inv c s) (a : Act) (hfresh : a.Fresh s) : Inv c (s.step c a) := by
  cases a with
  | campaign n => exact h.campaign n
  | lead n => exact h.lead n hfresh
  | propose n x => exact h.propose n _
  | replicate n prev last => exact h.replicate n prev last
  | commit n k => exact h.commits n k
  | lose n => exact h.lose n
  | restart n => exact h.restart n
  | probe n src => exact h.probe n src
  | decide n => exact h.decide n
  | recheck n => exact h.recheck n
  | proposeDrop n r => exact h.proposeDrop n r
  | confirmDrop n j => exact h.confirmDrop n j
  | deliver i n =>
    unfold State.step
    dsimp only
    split
    next m hm => exact h.deliver n (List.mem_of_getElem? hm)
    · exact h

theorem Inv.run {acts : List Act} (h : Inv c s) (hfresh : s.FreshRun c acts) :
    Inv c (s.run c acts) := by
  induction acts generalizing s with
  | nil => exact h
  | cons a acts ih => exact ih (h.step a hfresh.1) hfresh.2

/-- In every state of a run whose steps are all fresh, a leader with a vote above that of
the leader that committed an entry was elected with that entry in its log, and no two
leaders committed different entries at one index. -/
theorem committed_survives (c : Voters) (acts : List Act)
    (hfresh : ({} : State).FreshRun c acts) :
    let s := ({} : State).run c acts
    (∀ r ∈ s.committed, ∀ E ∈ s.elected, r.1 < E.id → r.2 <+: E.log) ∧
      ∀ r ∈ s.committed, ∀ r' ∈ s.committed, r.2 <+: r'.2 ∨ r'.2 <+: r.2 := by
  have h := (inv_init c).run hfresh
  exact ⟨fun r hr E hE hlt => h.committed_complete hr hE hlt,
    fun r hr r' hr' => h.committed_agree hr hr'⟩

/-! ## Five voters -/

def five : Voters where
  ids := {1, 2, 3, 4, 5}
  nodes := (((((∅ : Std.ExtTreeMap NodeId String).insert 1 "a:1").insert 2 "b:1").insert 3
    "c:1").insert 4 "d:1").insert 5 "e:1"
  listed := by decide
  three := by decide

/-- Node 4 is elected by 2 and 5, and commits its blank entry everywhere. -/
def firstLeader : List Act :=
  [.campaign 4, .deliver 0 5, .deliver 0 2, .deliver 2 0, .deliver 3 0, .lead 4,
    .replicate 4 1 2, .deliver 5 1, .deliver 5 2, .deliver 5 3, .deliver 5 5,
    .deliver 4 0, .deliver 6 0, .deliver 7 0, .deliver 8 0, .deliver 9 0, .commit 4 2]

/-- Node 1 stands for election and node 3 grants; the grant is under way while node 3
loses its data, adopts the vote of node 4 and acknowledges what that leader commits
with the help of 3 and 5. -/
def lossAndRejoin : List Act :=
  [.campaign 1, .deliver 10 3, .lose 3, .probe 3 2, .probe 3 4, .probe 3 5,
    .deliver 13 0, .deliver 14 0, .deliver 15 0, .decide 3, .probe 3 2, .probe 3 4, .probe 3 5,
    .deliver 16 0, .deliver 17 0, .deliver 18 0, .recheck 3, .proposeDrop 4 3, .replicate 4 0 3,
    .deliver 20 3, .deliver 20 5, .deliver 19 0, .deliver 21 0, .deliver 22 0, .commit 4 3]

/-- Node 3 is told that its `DropNode` is applied, and votes for node 5. -/
def rejoinedVotes : List Act :=
  [.confirmDrop 4 0, .replicate 4 3 3, .deliver 24 3, .deliver 23 0, .campaign 5, .deliver 26 3,
    .deliver 26 1, .deliver 28 0, .deliver 29 0, .lead 5]

/-- Node 5 is elected with a grant of node 3 after its rejoin, and has what node 4
committed. -/
theorem rejoined_node_elects :
    let acts := firstLeader ++ lossAndRejoin ++ rejoinedVotes
    let s := ({} : State).run five acts
    ({} : State).FreshRun five acts ∧ s.committed.map (·.2.length) = [2, 3] ∧
      s.elected.map Election.id = [toLex (1, 4), toLex (2, 5)] ∧
      (∀ r ∈ s.committed, ∀ E ∈ s.elected, r.1 < E.id → r.2 <+: E.log) ∧
      ∀ r ∈ s.committed, ∀ r' ∈ s.committed, r.2 <+: r'.2 ∨ r'.2 <+: r.2 :=
  ⟨by decide +kernel, by decide +kernel, by decide +kernel,
    committed_survives five (firstLeader ++ lossAndRejoin ++ rejoinedVotes) (by decide +kernel)⟩

/-- The grant that node 3 sent before its loss arrives: with it and that of node 2, node 1
is elected with a vote above that of node 4, and lacks the entry it committed. -/
theorem late_grant_elects :
    let s := ({} : State).run five
      (firstLeader ++ lossAndRejoin ++ [.deliver 10 2, .deliver 12 0, .deliver 23 0, .lead 1])
    ∃ r ∈ s.committed, ∃ E ∈ s.elected, r.1 < E.id ∧ ¬ r.2 <+: E.log := by
  decide +kernel

end Beanstalkd.Raft.Protocol
