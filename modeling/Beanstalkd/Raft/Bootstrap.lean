import Mathlib.Data.Finset.Card
import Beanstalkd.Raft.Status

/-!
# `--cluster-init` does not start a second cluster

`bootstrap_decision` (`crates/raft/src/status.rs`) for a node without data, from the
answers of the other initial voters. It initializes by one of two rules: a majority
of the voters answered without any state, or all other voters answered and none of
them is established.

An entry beyond the bootstrap membership that a majority accepted makes each of
its holders established. Without this node there are at least `n / 2` of them, which
is one more than can hide from `n / 2 + 1` answers out of the `n - 1` others.
-/

open Std

namespace Beanstalkd.Raft

/-- The answer to a `Status` probe. -/
structure NodeStatus where
  vote : Option Vote
  /-- The last entry, or the purge point if the log is empty above it. -/
  lastLogId : Option LogId
  /-- The commit hint. -/
  committed : Option LogId
  /-- A vote, log entries or a purge point. -/
  hasState : Bool

namespace NodeStatus

/-- The node belongs to a cluster that has had a leader: a committed vote, an entry
beyond the bootstrap membership, or a commit hint. -/
def established (s : NodeStatus) : Bool :=
  (s.vote.any fun v => v.committed) || (s.lastLogId.any fun l => l.index ≥ 1) || s.committed.isSome

end NodeStatus

/-- What `LogStore` keeps of a node's Raft state and answers probes from. -/
structure RaftState where
  vote : Option Vote
  lastEntry : Option LogId
  purged : Option LogId
  committed : Option LogId
  /-- The entries are above the purge point. -/
  above : ∀ l p, lastEntry = some l → purged = some p → p.index < l.index

namespace RaftState

/-- `StatusSource::status`. -/
def status (d : RaftState) : NodeStatus where
  vote := d.vote
  lastLogId := d.lastEntry.or d.purged
  committed := d.committed
  hasState := d.vote.isSome || d.lastEntry.isSome || d.purged.isSome

/-- A node that never took part. -/
def blank : RaftState := ⟨none, none, none, none, nofun⟩

/-- The log goes up to an index, or was purged beyond it. -/
def Holds (d : RaftState) (index : Nat) : Prop :=
  (∃ l, d.lastEntry = some l ∧ index ≤ l.index) ∨ ∃ p, d.purged = some p ∧ index ≤ p.index

/-- A node with an entry beyond the bootstrap membership says so. -/
theorem Holds.established {d : RaftState} {index : Nat} (h : d.Holds index) (hi : 1 ≤ index) :
    d.status.established = true := by
  have hlast : ∃ l, d.lastEntry.or d.purged = some l ∧ 1 ≤ l.index := by
    rcases h with ⟨l, hl, hle⟩ | ⟨p, hp, hle⟩
    · exact ⟨l, by rw [hl]; rfl, hi.trans hle⟩
    cases hl : d.lastEntry with
    | none => exact ⟨p, by rw [hp]; rfl, hi.trans hle⟩
    | some l => exact ⟨l, rfl, (hi.trans hle).trans (d.above l p hl hp).le⟩
  obtain ⟨l, hl, hle⟩ := hlast
  simp only [NodeStatus.established, status, hl, Option.any_some, decide_eq_true hle, Bool.or_true,
    Bool.true_or]

end RaftState

inductive Bootstrap where
  | initializeCluster
  /-- The node that answered belongs to a cluster that has had a leader. -/
  | rejoin (node : NodeId)
  | wait
  deriving DecidableEq

def bootstrapDecision (n : Nat) (answers : ExtTreeMap NodeId NodeStatus) : Bootstrap :=
  match answers.toList.find? fun a => a.2.established with
  | some (p, _) => .rejoin p
  | none =>
    if n ≤ 1 then .initializeCluster
    else
      let allEmpty := answers.toList.all fun a => !a.2.hasState
      if (allEmpty && answers.size ≥ quorum n) || answers.size + 1 ≥ n then .initializeCluster
      else .wait

variable {n : Nat} {answers : ExtTreeMap NodeId NodeStatus}

/-- An initialization rests on enough answers, and none of them is established. -/
theorem enough_of_bootstrapDecision (hn : 2 ≤ n)
    (h : bootstrapDecision n answers = .initializeCluster) :
    (quorum n ≤ answers.size ∨ n ≤ answers.size + 1) ∧
      ∀ (p : NodeId) (s : NodeStatus), answers[p]? = some s → s.established = false := by
  unfold bootstrapDecision at h
  split at h
  · cases h
  next hfind =>
    rw [if_neg (by omega)] at h
    dsimp only at h
    split at h
    next hcond =>
      refine ⟨?_, fun p s hs => ?_⟩
      · rw [Bool.or_eq_true, Bool.and_eq_true, decide_eq_true_eq, decide_eq_true_eq] at hcond
        exact hcond.imp And.right id
      · have hmem := ExtTreeMap.mem_toList_iff_getElem?_eq_some.mpr hs
        exact Bool.eq_false_iff.mpr (List.find?_eq_none.mp hfind _ hmem)
    · cases h

/-- The nodes that answered. -/
def answered (answers : ExtTreeMap NodeId NodeStatus) : Finset NodeId :=
  (answers.toList.map Prod.fst).toFinset

theorem mem_answered {p : NodeId} : p ∈ answered answers ↔ ∃ s, answers[p]? = some s := by
  rw [answered, List.mem_toFinset, List.mem_map]
  constructor
  · rintro ⟨⟨q, s⟩, hq, rfl⟩
    exact ⟨s, ExtTreeMap.mem_toList_iff_getElem?_eq_some.mp hq⟩
  · rintro ⟨s, hs⟩
    exact ⟨(p, s), ExtTreeMap.mem_toList_iff_getElem?_eq_some.mpr hs, rfl⟩

theorem card_answered : (answered answers).card = answers.size := by
  have hnodup : (answers.toList.map Prod.fst).Nodup := by
    rw [List.Nodup, List.pairwise_map]
    exact (ExtTreeMap.distinct_keys_toList).imp fun h heq => h (by
      rw [heq]
      exact ReflOrd.compare_self)
  rw [answered, List.toFinset_card_of_nodup hnodup, List.length_map, ExtTreeMap.length_toList]

/-- Answers as the nodes `voters` other than `self` give them, each from its state. -/
def AnswersOf (voters : Finset NodeId) (self : NodeId) (state : NodeId → RaftState)
    (answers : ExtTreeMap NodeId NodeStatus) : Prop :=
  ∀ (p : NodeId) (s : NodeStatus), answers[p]? = some s →
    p ∈ voters ∧ p ≠ self ∧ s = (state p).status

/-- A majority that accepted an entry has a member among the answers that are enough
to initialize. -/
theorem holder_answers {voters holders : Finset NodeId} {self : NodeId} (hself : self ∈ voters)
    (hn : 2 ≤ voters.card) (hsub : holders ⊆ voters) (hq : quorum voters.card ≤ holders.card)
    (hanswers : ∀ p ∈ answered answers, p ∈ voters ∧ p ≠ self)
    (henough : quorum voters.card ≤ answers.size ∨ voters.card ≤ answers.size + 1) :
    ∃ p ∈ holders, p ≠ self ∧ p ∈ answered answers := by
  have hothers : (voters.erase self).card = voters.card - 1 := Finset.card_erase_of_mem hself
  have hheld : holders.card - 1 ≤ (holders.erase self).card := Finset.pred_card_le_card_erase
  have hleft : answered answers ⊆ voters.erase self := fun p hp =>
    Finset.mem_erase.mpr ⟨(hanswers p hp).2, (hanswers p hp).1⟩
  have hright : holders.erase self ⊆ voters.erase self := Finset.erase_subset_erase _ hsub
  have hlt : (voters.erase self).card < (answered answers).card + (holders.erase self).card := by
    rw [card_answered, hothers]
    unfold quorum at hq henough
    omega
  obtain ⟨p, hp⟩ := Finset.inter_nonempty_of_card_lt_card_add_card hleft hright hlt
  obtain ⟨hin, hheld⟩ := Finset.mem_inter.mp hp
  obtain ⟨hne, hmem⟩ := Finset.mem_erase.mp hheld
  exact ⟨p, hmem, hne, hin⟩

/-- A node never initializes over a cluster in which a majority of the voters, itself
perhaps among them, accepted an entry beyond the bootstrap membership; and where no node
has any state, answers of a majority make it initialize. -/
theorem bootstrap_never_reinitializes {voters : Finset NodeId} {self : NodeId}
    {state : NodeId → RaftState} (hself : self ∈ voters) (hn : 2 ≤ voters.card)
    (htruth : AnswersOf voters self state answers) :
    (∀ (holders : Finset NodeId) (index : Nat), holders ⊆ voters →
        quorum voters.card ≤ holders.card → 1 ≤ index →
        (∀ p ∈ holders, p ≠ self → (state p).Holds index) →
        bootstrapDecision voters.card answers ≠ .initializeCluster) ∧
      ((∀ p ∈ voters, state p = .blank) → quorum voters.card ≤ answers.size →
        bootstrapDecision voters.card answers = .initializeCluster) := by
  constructor
  · intro holders index hsub hq hi hkept hinit
    obtain ⟨henough, hnone⟩ := enough_of_bootstrapDecision hn hinit
    have hanswers : ∀ p ∈ answered answers, p ∈ voters ∧ p ≠ self := by
      intro p hp
      obtain ⟨s, hs⟩ := mem_answered.mp hp
      obtain ⟨hp, hne, -⟩ := htruth p s hs
      exact ⟨hp, hne⟩
    obtain ⟨p, hp, hne, hin⟩ := holder_answers hself hn hsub hq hanswers henough
    obtain ⟨s, hs⟩ := mem_answered.mp hin
    obtain ⟨-, -, rfl⟩ := htruth p s hs
    have hest := (hkept p hp hne).established hi
    rw [hnone p _ hs] at hest
    cases hest
  · intro hblank hsize
    have hstatus : ∀ a ∈ answers.toList, a.2 = RaftState.blank.status := by
      intro a ha
      obtain ⟨hp, -, hs⟩ := htruth a.1 a.2 (ExtTreeMap.mem_toList_iff_getElem?_eq_some.mp ha)
      rw [hs, hblank a.1 hp]
    have hfind : (answers.toList.find? fun a => a.2.established) = none := by
      refine List.find?_eq_none.mpr fun a ha => ?_
      rw [hstatus a ha]
      exact Bool.false_ne_true
    have hempty : (answers.toList.all fun a => !a.2.hasState) = true := by
      refine List.all_eq_true.mpr fun a ha => ?_
      rw [hstatus a ha]
      rfl
    have hrule : ((answers.toList.all fun a => !a.2.hasState) &&
        decide (answers.size ≥ quorum voters.card)) = true := by
      rw [hempty, decide_eq_true hsize]
      rfl
    simp only [bootstrapDecision, hfind]
    rw [if_neg (by omega), if_pos (by rw [hrule]; rfl)]

/-- Node 1 of three, of which node 2 holds an entry and node 3 is silent; and of three
new nodes that all answer. -/
theorem bootstrap_of_three :
    bootstrapDecision 3 (ExtTreeMap.ofList
        [(2, (⟨none, some ⟨1, 2, 1⟩, none, none, nofun⟩ : RaftState).status)]) ≠
          .initializeCluster ∧
      bootstrapDecision 3 (ExtTreeMap.ofList
        [(2, RaftState.blank.status), (3, RaftState.blank.status)]) = .initializeCluster := by
  constructor
  · let state (p : NodeId) : RaftState :=
      if p = 2 then ⟨none, some ⟨1, 2, 1⟩, none, none, nofun⟩ else .blank
    have htruth : AnswersOf {1, 2, 3} 1 state (ExtTreeMap.ofList [(2, (state 2).status)]) := by
      intro p s hs
      obtain ⟨rfl, rfl⟩ := Prod.mk.inj (List.mem_singleton.mp
        (ExtTreeMap.mem_toList_iff_getElem?_eq_some.mpr hs))
      exact ⟨by decide, by decide, rfl⟩
    refine (bootstrap_never_reinitializes (by decide) (by decide) htruth).1 {1, 2} 1 (by decide)
      (by decide) (by decide) fun p hp hne => ?_
    obtain rfl : p = 2 := by simpa [hne] using hp
    exact .inl ⟨_, rfl, Nat.le_refl _⟩
  · have htruth : AnswersOf {1, 2, 3} 1 (fun _ => .blank) (ExtTreeMap.ofList
        [(2, RaftState.blank.status), (3, RaftState.blank.status)]) := by
      intro p s hs
      have hmem : (p, s) ∈ [(2, RaftState.blank.status), (3, RaftState.blank.status)] :=
        ExtTreeMap.mem_toList_iff_getElem?_eq_some.mpr hs
      rcases List.mem_pair.mp hmem with h | h
      · obtain ⟨rfl, rfl⟩ := Prod.mk.inj h
        exact ⟨by decide, by decide, rfl⟩
      · obtain ⟨rfl, rfl⟩ := Prod.mk.inj h
        exact ⟨by decide, by decide, rfl⟩
    exact (bootstrap_never_reinitializes (by decide) (by decide) htruth).2 (fun _ _ => rfl)
      (by decide)

end Beanstalkd.Raft
