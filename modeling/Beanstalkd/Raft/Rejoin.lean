import Mathlib.Data.Finset.Card
import Beanstalkd.Raft.Decision

/-!
# A rejoining node adopts a vote that dominates every election before its loss

`Startup::Rejoin` carries the vote a node that lost its data persists before it
starts Raft again. The answers that vouch for it come from other voters, and
there are enough of them to meet every majority of the voters, also one that
counted the node itself: `rejoinAnswers n + quorum n > n`. So whatever vote a
majority held when it elected a leader, one of them has answered since, and the
adopted vote is at least that.
-/

open Std

namespace Beanstalkd.Raft

variable {id : NodeId} {answers : Answers} {localVote vote : Option Vote} {m : MembershipView}

/-- Each node answers once. -/
theorem nodup_vouchers : ((vouchers id answers m).map Prod.fst).Nodup := by
  have h : (answers.toList.map Prod.fst).Nodup := by
    rw [List.Nodup, List.pairwise_map]
    exact (ExtTreeMap.distinct_keys_toList).imp fun h heq => h (by
      rw [heq]
      exact ReflOrd.compare_self)
  exact h.sublist (List.Sublist.map _ List.filter_sublist)

/-- Enough answers meet every majority. -/
theorem vouchers_meet {Q : Finset NodeId}
    (henough : rejoinAnswers m.voters.card ≤ (vouchers id answers m).length) (hQ : Q ⊆ m.voters)
    (hcard : quorum m.voters.card ≤ Q.card) :
    ∃ q ∈ Q, ∃ a, (q, a) ∈ vouchers id answers m := by
  have hsub : ((vouchers id answers m).map Prod.fst).toFinset ⊆ m.voters := by
    intro n hn
    obtain ⟨⟨n', a⟩, ha, rfl⟩ := List.mem_map.mp (List.mem_toFinset.mp hn)
    exact (mem_vouchers_iff.mp ha).2.1.1
  have hlt : m.voters.card < ((vouchers id answers m).map Prod.fst).toFinset.card + Q.card := by
    rw [List.toFinset_card_of_nodup nodup_vouchers, List.length_map]
    unfold rejoinAnswers at henough
    omega
  obtain ⟨q, hq⟩ := Finset.inter_nonempty_of_card_lt_card_add_card hsub hQ hlt
  obtain ⟨hp, hq⟩ := Finset.mem_inter.mp hq
  obtain ⟨⟨q', a⟩, ha, rfl⟩ := List.mem_map.mp (List.mem_toFinset.mp hp)
  exact ⟨q', hq, a, ha⟩

/-- What a decision to rejoin guarantees. -/
structure RejoinSafe (id : NodeId) (answers : Answers) (localVote vote : Option Vote)
    (m : MembershipView) (l : LogId) : Prop where
  logId : m.logId = some l
  reported : ∃ (n : NodeId) (a : NodeStatusEx), answers[n]? = some a ∧ a.membership = m
  committed : m.committed = true
  uniform : ∃ voters, m.configs = [voters]
  /-- No membership that lists a node is reported as committed at a higher index. -/
  highest : ∀ (n : NodeId) (a : NodeStatusEx) (l' : LogId), answers[n]? = some a →
    a.membership.committed = true → a.membership.logId = some l' →
    a.membership.nodes.isEmpty = false → l'.index ≤ l.index
  member : m.isMember id = true
  /-- No voter but `id` reports a newer membership, committed or not. -/
  current : ∀ (n : NodeId) (a : NodeStatusEx) (l' : LogId), answers[n]? = some a →
    n ∈ m.voters → n ≠ id → a.membership.logId = some l' → l'.index ≤ l.index
  floor : ∀ v, localVote = some v → Covers vote v
  notOwn : ∀ v, vote = some v → ¬ (v.committed = true ∧ v.node = id)
  /-- The vouching answers meet every majority of the voters. -/
  meets : ∀ Q ⊆ m.voters, quorum m.voters.card ≤ Q.card →
    ∃ q ∈ Q, ∃ a, (q, a) ∈ vouchers id answers m
  /-- What a whole majority would report, the adopted vote is at least. -/
  dominates : ∀ Q ⊆ m.voters, quorum m.voters.card ≤ Q.card → ∀ w,
    (∀ q ∈ Q, q ≠ id → ∀ a, (q, a) ∈ vouchers id answers m → Covers a.vote w) →
    Covers vote w
  /-- `votes t n` is the vote node `n` has persisted at time `t`. If votes never
  decrease on the nodes that vouch, and they answered after the data was lost,
  then the adopted vote is at least that of every leader a majority elected
  before. -/
  elected : ∀ (votes : Nat → NodeId → Option Vote) (lost : Nat) (w : Vote),
    (∀ (q : NodeId) (a : NodeStatusEx), (q, a) ∈ vouchers id answers m →
      (∀ s t v, s ≤ t → Covers (votes s q) v → Covers (votes t q) v) ∧
        ∃ t, lost ≤ t ∧ a.vote = votes t q) →
    (∃ Q ⊆ m.voters, quorum m.voters.card ≤ Q.card ∧
      ∀ q ∈ Q, ∃ t ≤ lost, Covers (votes t q) w) →
    Covers vote w

theorem MembershipView.known_iff :
    m.known = true ↔ m.committed = true ∧ m.logId.isSome = true ∧ m.nodes.isEmpty = false := by
  simp only [MembershipView.known, Bool.and_eq_true, Bool.not_eq_true', and_assoc]

/-- A uniform membership with a voter has exactly one voter set. -/
theorem uniform_config (hj : m.isJoint = false) (hv : m.voters ≠ ∅) :
    ∃ voters, m.configs = [voters] := by
  unfold MembershipView.isJoint at hj
  unfold MembershipView.voters at hv
  cases hc : m.configs with
  | nil => rw [hc] at hv; exact absurd rfl hv
  | cons c cs =>
    cases cs with
    | nil => exact ⟨c, rfl⟩
    | cons c' cs => rw [hc] at hj; simp at hj

theorem startupDecision_rejoin (h : startupDecision id answers localVote = .rejoin vote m) :
    ∃ l, Settled id answers m l ∧ m.isMember id = true ∧
      decideMember id m.voters.card (vouchers id answers m) localVote m = .rejoin vote m := by
  obtain ⟨_, _, hw⟩ | ⟨m', l, hs, hd⟩ := startupDecision_cases id answers localVote
  · rw [hw] at h
    cases h
  rw [hd] at h
  split at h
  · next hmember =>
    obtain ⟨rfl, -⟩ := decideMember_rejoin h
    exact ⟨l, hs, hmember, h⟩
  unfold decideStranger at h
  split at h
  · cases h
  simp only at h
  split at h
  · cases h
  split at h <;> cases h

/-- **The vote a rejoining node adopts dominates every election quorum.** -/
theorem rejoin_dominates_quorums (id : NodeId) (answers : Answers) (localVote vote : Option Vote)
    (m : MembershipView) (h : startupDecision id answers localVote = .rejoin vote m) :
    ∃ l, RejoinSafe id answers localVote vote m l := by
  obtain ⟨l, hs, hmember, hd⟩ := startupDecision_rejoin h
  obtain ⟨-, hvotes, hfloor, hown⟩ := decideMember_rejoin hd
  obtain ⟨hreported, hknown, hmax⟩ := learnedMembership_spec hs.learned
  have hmeets : ∀ Q ⊆ m.voters, quorum m.voters.card ≤ Q.card →
      ∃ q ∈ Q, ∃ a, (q, a) ∈ vouchers id answers m :=
    fun Q hQ hcard => vouchers_meet hs.enough hQ hcard
  have hdominates : ∀ Q ⊆ m.voters, quorum m.voters.card ≤ Q.card → ∀ w,
      (∀ q ∈ Q, q ≠ id → ∀ a, (q, a) ∈ vouchers id answers m → Covers a.vote w) →
      Covers vote w := by
    intro Q hQ hcard w hw
    obtain ⟨q, hq, a, ha⟩ := hmeets Q hQ hcard
    have hne : q ≠ id := (mem_vouchers_iff.mp ha).2.1.2
    obtain ⟨v, hv, hle⟩ := hw q hq hne a ha
    exact (hvotes q a v ha hv).trans hle
  refine ⟨l, hs.logId, hreported, (MembershipView.known_iff.mp hknown).1,
    uniform_config hs.uniform hs.voted, ?_, hmember,
    fun n a l' ha hn hne hl' => hs.current n a ha hn hne l' hl', hfloor, hown, hmeets, hdominates,
      ?_⟩
  · intro n a l' ha hc hl' hnodes
    have hle := hmax n a ha (MembershipView.known_iff.mpr ⟨hc, by rw [hl']; rfl, hnodes⟩)
    simpa only [MembershipView.index, hl', hs.logId, Option.map_some, Option.getD_some] using hle
  intro votes lost w hanswers helected
  obtain ⟨Q, hQ, hcard, hQw⟩ := helected
  refine hdominates Q hQ hcard w fun q hq _ a ha => ?_
  -- It had the vote when it elected, has kept it since, and answered after.
  obtain ⟨hmono, t, ht, hvote⟩ := hanswers q a ha
  obtain ⟨s, hs, hcov⟩ := hQw q hq
  rw [hvote]
  exact hmono s t w (hs.trans ht) hcov

/-! ## Three voters, one of them wiped -/

/-- Voters 1 to 3, committed at index 5. -/
def threeVoters : MembershipView :=
  { logId := some ⟨1, 2, 5⟩, committed := true, configs := [{1, 2, 3}],
    nodes := ((∅ : ExtTreeMap NodeId String).insert 1 "a:1").insert 2 "b:1" |>.insert 3 "c:1" }

def holder (v : Option Vote) : NodeStatusEx :=
  { vote := v, rejoining := false, lastApplied := some ⟨1, 2, 5⟩, highestMember := 3,
    membership := threeVoters }

def survivors : Answers :=
  ((∅ : Answers).insert 2 (holder (some ⟨4, 2, true⟩))).insert 3 (holder (some ⟨3, 3, false⟩))

theorem rejoin_of_survivors :
    startupDecision 1 survivors none = .rejoin (some ⟨4, 2, true⟩) threeVoters := by
  rfl

theorem survivors_dominate : startupDecision 1 survivors none =
      .rejoin (some ⟨4, 2, true⟩) threeVoters ∧
    ∃ l, RejoinSafe 1 survivors none (some ⟨4, 2, true⟩) threeVoters l :=
  ⟨rejoin_of_survivors, rejoin_dominates_quorums _ _ _ _ _ rejoin_of_survivors⟩

/-- A node that is no voter reports a committed membership at index 7 that lists
nobody. -/
def nobody : NodeStatusEx :=
  { vote := none, rejoining := false, lastApplied := none, highestMember := 0,
    membership := { logId := some ⟨2, 2, 7⟩, committed := true, configs := [], nodes := ∅ } }

/-- `learned_membership` passes over such a report, so the decision stands on a
lower index than the highest reported as committed. -/
theorem rejoin_below_reported : ∃ vote m l,
    startupDecision 1 (survivors.insert 9 nobody) none = .rejoin vote m ∧ m.logId = some l ∧
      ∃ (n : NodeId) (a : NodeStatusEx) (l' : LogId), (survivors.insert 9 nobody)[n]? = some a ∧
        a.membership.committed = true ∧ a.membership.logId = some l' ∧ l.index < l'.index := by
  refine ⟨some ⟨4, 2, true⟩, threeVoters, ⟨1, 2, 5⟩, rfl, rfl, 9, nobody, ⟨2, 2, 7⟩, ?_, rfl, rfl,
    by decide⟩
  exact ExtTreeMap.getElem?_insert_self

end Beanstalkd.Raft
