import Mathlib.Data.List.Infix
import Beanstalkd.Raft.Rejoin

/-!
# A member is never told it was removed

`History` is what a cluster's committed log says about its members: membership
entries at increasing indexes, where an id that is added lies above every id
there was before. `Truthful` is an answer that a node can give: it reports the
latest membership entry in its log, which agrees with the history as far as
they share entries, and the highest id of all the entries it had.

The answers may be of different times and contradict each other. That does not
matter for safety: a refusal rests on one committed membership `M` that does
not list the id, and on one node that held `M` and knew of an id as high. From
`M` on, an id that is not there can only come in above every id before it, so
the refused one never does (`absent_after`).
-/

open Std

namespace Beanstalkd.Raft

/-- A membership entry of the log. -/
structure Entry where
  logId : LogId
  configs : List (Finset NodeId)
  nodes : ExtTreeMap NodeId String

def Entry.lists (e : Entry) (id : NodeId) : Prop := e.nodes.contains id = true

/-- The committed membership entries, in log order. -/
structure History (h : List Entry) : Prop where
  increasing : h.Pairwise fun a b => a.logId.index < b.logId.index
  /-- An id comes in above every id that was in an earlier entry. -/
  fresh : ∀ pre a b post, h = pre ++ a :: b :: post → ∀ x, b.lists x → ¬ a.lists x →
    ∀ e ∈ pre ++ [a], ∀ y, e.lists y → y < x

/-- The highest id that any of the entries lists. -/
def highestOf (log : List Entry) : NodeId := (log.flatMap fun e => e.nodes.keys).foldr max 0

/-- How a node that knows `committed` reports an entry. -/
def Entry.view (e : Entry) (committed : Bool) : MembershipView :=
  { logId := some e.logId, committed, configs := e.configs, nodes := e.nodes }

/-- An answer of a node whose log has the membership entries `log`. -/
structure Truthful (h : List Entry) (a : NodeStatusEx) (log : List Entry) : Prop where
  /-- Up to an entry it shares with the history, the log is the history. -/
  matching : ∀ pre e post pre' e' post', log = pre ++ e :: post → h = pre' ++ e' :: post' →
    e.logId = e'.logId → pre ++ [e] = pre' ++ [e']
  /-- The latest entry is reported, as committed only if it is in the history. -/
  latest : ∀ pre e, log = pre ++ [e] →
    ∃ committed, a.membership = e.view committed ∧ (committed = true → e ∈ h)
  blank : log = [] → a.membership.logId = none
  highest : a.highestMember = highestOf log

variable {h h₀ log : List Entry} {a : NodeStatusEx} {id : NodeId} {l : LogId} {e : Entry}
  {answers : Answers} {m : MembershipView} {reason : String} {localVote : Option Vote}

/-! ## Ids only grow -/

/-- Once an id is gone and an id as high was there, it stays away. -/
theorem absent_after (hist : History h) : ∀ (rest pre : List Entry) (a : Entry),
    h = pre ++ a :: rest → ¬ a.lists id → (∃ e ∈ pre ++ [a], ∃ y, e.lists y ∧ id ≤ y) →
    ∀ e ∈ a :: rest, ¬ e.lists id := by
  intro rest
  induction rest with
  | nil =>
    intro pre a _ hid _ e he
    rw [List.mem_singleton.mp he]
    exact hid
  | cons b rest ih =>
    intro pre a hh hid hy e he
    rcases List.mem_cons.mp he with rfl | he
    · exact hid
    -- `b` does not bring the id back: it would lie above one at least as high.
    have hb : ¬ b.lists id := by
      intro hb
      obtain ⟨e', he', y, hy, hle⟩ := hy
      exact Nat.not_le.mpr (hist.fresh pre a b rest hh id hb hid e' he' y hy) hle
    refine ih (pre ++ [a]) b (by rw [hh, List.append_assoc]; rfl) hb ?_ e he
    obtain ⟨e', he', hy⟩ := hy
    exact ⟨e', List.mem_append_left _ he', hy⟩

/-- Some entry lists an id as high as any below the highest. -/
theorem exists_high (hne : ∃ e ∈ log, e.nodes.isEmpty = false) (hid : id ≤ highestOf log) :
    ∃ e ∈ log, ∃ y, e.lists y ∧ id ≤ y := by
  have hkeys : (log.flatMap fun e => e.nodes.keys) ≠ [] := by
    obtain ⟨e, he, hnodes⟩ := hne
    intro hnil
    rw [← ExtTreeMap.isEmpty_keys, List.flatMap_eq_nil_iff.mp hnil e he] at hnodes
    cases hnodes
  obtain ⟨y, hy, hle⟩ := le_foldr_max hkeys hid
  obtain ⟨e, he, hy⟩ := List.mem_flatMap.mp hy
  exact ⟨e, he, y, ExtTreeMap.contains_iff_mem.mpr (ExtTreeMap.mem_keys.mp hy), hle⟩

/-! ## Answers about one entry -/

/-- An answer that reports a membership reports the last entry of the node's log. -/
theorem Truthful.reports (ht : Truthful h a log) (hl : a.membership.logId = some l) :
    ∃ pre e committed, log = pre ++ [e] ∧ e.logId = l ∧ a.membership = e.view committed ∧
      (committed = true → e ∈ h) := by
  rcases List.eq_nil_or_concat log with hnil | ⟨pre, e, hlog⟩
  · rw [ht.blank hnil] at hl
    cases hl
  rw [List.concat_eq_append] at hlog
  obtain ⟨c, hview, hc⟩ := ht.latest pre e hlog
  refine ⟨pre, e, c, hlog, ?_, hview, hc⟩
  rw [hview] at hl
  exact Option.some.inj hl

/-- What a refusal rests on: a committed entry that does not list the id, while
an id as high is listed there or before. -/
theorem refused_entry (htruth : ∀ (n : NodeId) (a : NodeStatusEx), answers[n]? = some a →
      ∃ log, Truthful h a log)
    (hrefuse : startupDecision id answers localVote = .refuse reason) :
    ∃ m l pre e post, learnedMembership answers = some m ∧ m.logId = some l ∧ e.logId = l ∧
      h = pre ++ e :: post ∧ ¬ e.lists id ∧ ∃ e' ∈ pre ++ [e], ∃ y, e'.lists y ∧ id ≤ y := by
  obtain ⟨_, _, hw⟩ | ⟨m, l, hs, hd⟩ := startupDecision_cases id answers localVote
  · rw [hw] at hrefuse
    cases hrefuse
  rw [hd] at hrefuse
  split at hrefuse
  · unfold decideMember at hrefuse
    split at hrefuse
    · split at hrefuse <;> cases hrefuse
    all_goals cases hrefuse
  next hmember =>
  -- The node that reported `M` as committed: `M` is an entry of the history.
  obtain ⟨⟨n, a, ha, rfl⟩, hknown, -⟩ := learnedMembership_spec hs.learned
  obtain ⟨hcommitted, -, hnodes⟩ := MembershipView.known_iff.mp hknown
  obtain ⟨log, ht⟩ := htruth n a ha
  obtain ⟨_, e, c, -, hel, hview, hc⟩ := ht.reports hs.logId
  rw [hview] at hcommitted hnodes hmember
  obtain ⟨pre, post, hh⟩ := List.append_of_mem (hc hcommitted)
  -- The node that knew an id as high held `M` too, so it had the history up to `M`.
  obtain ⟨n', a', ha', hlog', hhigh⟩ := decideStranger_refuse ⟨n, a, ha, rfl⟩ hrefuse
  obtain ⟨log', ht'⟩ := htruth n' a' ha'
  obtain ⟨pre', e', _, hlog, hel', -, -⟩ := ht'.reports (hlog'.trans hs.logId)
  have hsame : pre' ++ [e'] = pre ++ [e] :=
    ht'.matching pre' e' [] pre e post hlog hh (hel'.trans hel.symm)
  refine ⟨_, l, pre, e, post, hs.learned, hs.logId, hel, hh, hmember, ?_⟩
  rw [ht'.highest, hlog, hsame] at hhigh
  exact exists_high ⟨e, by simp, hnodes⟩ hhigh

/-- `h₀` is what is committed when the answers are given, and `h` any extension
of it. Whoever is refused, or confirmed removed, is in no committed membership
from the learned one on. -/
theorem removed_for_good (hist : History h) (hext : h₀ <+: h)
    (htruth : ∀ (n : NodeId) (a : NodeStatusEx), answers[n]? = some a → ∃ log, Truthful h₀ a log)
    (hrefuse : startupDecision id answers localVote = .refuse reason) :
    ∃ m l, learnedMembership answers = some m ∧ m.logId = some l ∧ (∃ e ∈ h₀, e.logId = l) ∧
      ∀ e ∈ h, l.index ≤ e.logId.index → ¬ e.lists id := by
  obtain ⟨m, l, pre, e, post, hm, hl, rfl, hh, hid, hy⟩ := refused_entry htruth hrefuse
  obtain ⟨ext, rfl⟩ := hext
  rw [hh, List.append_assoc, List.cons_append] at hist ⊢
  refine ⟨m, e.logId, hm, hl, ⟨e, by simp, rfl⟩, fun e' he' hle => ?_⟩
  rcases List.mem_append.mp he' with hpre | hpost
  · -- entries before the learned one have lower indexes
    have hlt := (List.pairwise_append.mp hist.increasing).2.2 e' hpre e List.mem_cons_self
    omega
  · exact absent_after hist _ pre e rfl hid hy e' hpost

/-- A confirmed removal is a refusal that a majority of the voters stands behind. -/
theorem removalConfirmed_spec (h : removalConfirmed id answers = some reason) :
    startupDecision id answers none = .refuse reason ∧
      ∃ m, learnedMembership answers = some m ∧ quorum m.voters.card ≤
        (answers.toList.filter fun a =>
          a.1 ∈ m.voters && !a.2.rejoining && a.2.membership.logId = m.logId).length := by
  unfold removalConfirmed at h
  split at h
  · next r hr =>
    simp only [Option.bind_eq_bind, Option.bind_eq_some_iff] at h
    obtain ⟨m, hm, h⟩ := h
    split at h
    · next hq =>
      cases h
      exact ⟨hr, m, hm, hq⟩
    · cases h
  · cases h

/-- On a joint membership the decision is to wait. -/
theorem refuse_uniform (hm : learnedMembership answers = some m)
    (h : startupDecision id answers localVote = .refuse reason) : m.isJoint = false := by
  obtain ⟨_, _, hw⟩ | ⟨m', l, hs, -⟩ := startupDecision_cases id answers localVote
  · rw [hw] at h
    cases h
  have heq : m' = m := Option.some.inj (hs.learned.symm.trans hm)
  rw [← heq]
  exact hs.uniform

/-- **A node that is still a member is never told it was removed.** `h₀` is what
is committed when the answers are given, and `h` any history that extends it. -/
theorem member_never_removed (id : NodeId) (answers : Answers) (h₀ h : List Entry)
    (hist : History h) (hext : h₀ <+: h)
    (htruth : ∀ (n : NodeId) (a : NodeStatusEx), answers[n]? = some a →
      ∃ log, Truthful h₀ a log) :
    (∀ localVote reason, removalConfirmed id answers = some reason ∨
        startupDecision id answers localVote = .refuse reason →
      ∃ m l, learnedMembership answers = some m ∧ m.logId = some l ∧ (∃ e ∈ h₀, e.logId = l) ∧
        ∀ e ∈ h, l.index ≤ e.logId.index → ¬ e.lists id) ∧
      (∀ pre e, h = pre ++ [e] → e.lists id → removalConfirmed id answers = none) ∧
      (∀ m, learnedMembership answers = some m → m.isJoint = true →
        removalConfirmed id answers = none) ∧
      ∀ m, learnedMembership answers = some m →
        (answers.toList.filter fun a =>
          a.1 ∈ m.voters && !a.2.rejoining && a.2.membership.logId = m.logId).length <
            quorum m.voters.card →
        removalConfirmed id answers = none := by
  have hgood : ∀ localVote reason, removalConfirmed id answers = some reason ∨
        startupDecision id answers localVote = .refuse reason →
      ∃ m l, learnedMembership answers = some m ∧ m.logId = some l ∧ (∃ e ∈ h₀, e.logId = l) ∧
        ∀ e ∈ h, l.index ≤ e.logId.index → ¬ e.lists id := by
    intro localVote reason hr
    rcases hr with hr | hr
    · exact removed_for_good hist hext htruth (removalConfirmed_spec hr).1
    · exact removed_for_good hist hext htruth hr
  refine ⟨hgood, fun pre e hh hid => ?_, fun m hm hjoint => ?_, fun m hm hfew => ?_⟩
  · -- the latest entry is at or after the learned one
    refine Option.eq_none_iff_forall_ne_some.mpr fun reason hr => ?_
    obtain ⟨m, l, -, -, ⟨e', he', rfl⟩, habsent⟩ := hgood none reason (.inl hr)
    refine habsent e (by rw [hh]; simp) ?_ hid
    have he' : e' ∈ pre ++ [e] := hh ▸ hext.subset he'
    rcases List.mem_append.mp he' with hpre | hlast
    · have hinc := hist.increasing
      rw [hh] at hinc
      exact ((List.pairwise_append.mp hinc).2.2 e' hpre e (List.mem_singleton_self e)).le
    · rw [List.mem_singleton.mp hlast]
  · refine Option.eq_none_iff_forall_ne_some.mpr fun reason hr => ?_
    rw [refuse_uniform hm (removalConfirmed_spec hr).1] at hjoint
    cases hjoint
  · refine Option.eq_none_iff_forall_ne_some.mpr fun reason hr => ?_
    obtain ⟨-, m', hm', hq⟩ := removalConfirmed_spec hr
    rw [hm] at hm'
    cases hm'
    omega

/-! ## Node 4 was removed from four nodes -/

def fourNodes : Entry :=
  { logId := ⟨1, 1, 1⟩, configs := [{1, 2, 3}],
    nodes := (threeVoters.nodes).insert 4 "d:1" }

def threeNodes : Entry :=
  { logId := ⟨1, 2, 5⟩, configs := [{1, 2, 3}], nodes := threeVoters.nodes }

def removalHistory : List Entry := [fourNodes, threeNodes]

theorem removalHistory_history : History removalHistory where
  increasing := by simp [removalHistory, fourNodes, threeNodes]
  fresh := by
    intro pre a b post hh x hb ha
    obtain ⟨rfl, rfl, rfl, rfl⟩ : pre = [] ∧ a = fourNodes ∧ b = threeNodes ∧ post = [] := by
      cases pre with
      | nil => cases hh; exact ⟨rfl, rfl, rfl, rfl⟩
      | cons _ pre =>
        cases pre with
        | nil => cases hh
        | cons _ pre => cases pre <;> cases hh
    -- nobody was added
    refine absurd ?_ ha
    unfold Entry.lists at hb ⊢
    rw [fourNodes, ExtTreeMap.contains_insert]
    exact Bool.or_eq_true_iff.mpr (.inr hb)

/-- Positions are told apart by their indexes. -/
theorem matching_self (hinc : h.Pairwise fun a b => a.logId.index < b.logId.index) :
    ∀ pre e post pre' e' post', h = pre ++ e :: post → h = pre' ++ e' :: post' →
      e.logId = e'.logId → pre ++ [e] = pre' ++ [e'] := by
  intro pre e post pre' e' post' hh hh' hlog
  have hlen : ∀ {k k' : Nat}, (h[k]?).map Entry.logId = some e.logId →
      (h[k']?).map Entry.logId = some e.logId → ¬ k < k' := by
    intro k k' hk hk' hlt
    obtain ⟨x, hx, hxl⟩ := Option.map_eq_some_iff.mp hk
    obtain ⟨y, hy, hyl⟩ := Option.map_eq_some_iff.mp hk'
    obtain ⟨hxk, rfl⟩ := List.getElem?_eq_some_iff.mp hx
    obtain ⟨hyk, rfl⟩ := List.getElem?_eq_some_iff.mp hy
    have := List.pairwise_iff_getElem.mp hinc k k' hxk hyk hlt
    rw [hxl, hyl] at this
    omega
  have h₁ : (h[pre.length]?).map Entry.logId = some e.logId := by rw [hh]; simp
  have h₂ : (h[pre'.length]?).map Entry.logId = some e.logId := by rw [hh']; simp [hlog]
  have heq : pre.length = pre'.length := by
    have := hlen h₁ h₂
    have := hlen h₂ h₁
    omega
  have htake : h.take (pre.length + 1) = pre ++ [e] := by
    rw [hh, ← List.singleton_append, ← List.append_assoc, List.take_left' (by simp)]
  have htake' : h.take (pre'.length + 1) = pre' ++ [e'] := by
    rw [hh', ← List.singleton_append, ← List.append_assoc, List.take_left' (by simp)]
  rw [← htake, ← htake', heq]

/-- What a voter that saw both entries answers. -/
def sawRemoval : NodeStatusEx := { holder none with highestMember := 4 }

theorem sawRemoval_truthful : Truthful removalHistory sawRemoval removalHistory where
  matching := matching_self removalHistory_history.increasing
  latest := by
    intro pre e hh
    obtain rfl : e = threeNodes := by
      have := congrArg List.getLast? hh
      rw [List.getLast?_concat] at this
      exact (Option.some.inj this).symm
    exact ⟨true, rfl, fun _ => by simp [removalHistory]⟩
  blank := nofun
  highest := rfl

def removalAnswers : Answers := ((∅ : Answers).insert 2 sawRemoval).insert 3 sawRemoval

/-- Nodes 2 and 3 confirm that node 4 was removed. -/
theorem node_four_removed : (removalConfirmed 4 removalAnswers).isSome = true ∧
    ∃ m l, learnedMembership removalAnswers = some m ∧ m.logId = some l ∧
      (∃ e ∈ removalHistory, e.logId = l) ∧
      ∀ e ∈ removalHistory, l.index ≤ e.logId.index → ¬ e.lists 4 := by
  have hsome : (removalConfirmed 4 removalAnswers).isSome = true := by rfl
  obtain ⟨reason, hr⟩ := Option.isSome_iff_exists.mp hsome
  have htruth : ∀ (n : NodeId) (a : NodeStatusEx), removalAnswers[n]? = some a →
      ∃ log, Truthful removalHistory a log := by
    intro n a ha
    refine ⟨removalHistory, ?_⟩
    rw [removalAnswers, ExtTreeMap.getElem?_insert, ExtTreeMap.getElem?_insert] at ha
    split at ha
    · cases ha
      exact sawRemoval_truthful
    split at ha
    · cases ha
      exact sawRemoval_truthful
    · cases ha
  exact ⟨hsome, (member_never_removed 4 removalAnswers removalHistory removalHistory
    removalHistory_history (List.prefix_refl _) htruth).1 none reason (.inl hr)⟩

end Beanstalkd.Raft
