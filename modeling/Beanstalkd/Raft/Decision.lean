import Beanstalkd.Raft.Status

/-!
# What a startup decision rests on

A decision other than "wait" was made against one membership: `Settled` collects
what the early returns of `startup_decision` have established by then, and
`startupDecision_cases` is the only place that walks through them. The rest
follows from there: the votes a rejoining node adopts (`decideMember_rejoin`),
and what makes a stranger refused (`decideStranger_refuse`).
-/

open Std

namespace Beanstalkd.Raft

variable {id : NodeId} {answers : Answers} {localVote vote : Option Vote} {m m' : MembershipView}
  {l : LogId} {n : NodeId} {a : NodeStatusEx} {reason : String}

/-- The answers that vouch for `id`: of voters of `m` other than `id` that hold
`m` itself and are not rejoining. -/
def vouchers (id : NodeId) (answers : Answers) (m : MembershipView) :
    List (NodeId × NodeStatusEx) :=
  answers.toList.filter fun a =>
    (a.1 ∈ m.voters ∧ a.1 ≠ id) ∧ a.2.rejoining = false ∧ a.2.membership.logId = m.logId

/-- What holds once the decision is not "wait". -/
structure Settled (id : NodeId) (answers : Answers) (m : MembershipView) (l : LogId) : Prop where
  learned : learnedMembership answers = some m
  logId : m.logId = some l
  uniform : m.isJoint = false
  voted : m.voters ≠ ∅
  /-- No voter but `id` reports a newer membership. -/
  current : ∀ (n : NodeId) (a : NodeStatusEx), answers[n]? = some a → n ∈ m.voters → n ≠ id →
    ∀ l', a.membership.logId = some l' → l'.index ≤ l.index
  enough : rejoinAnswers m.voters.card ≤ (vouchers id answers m).length

theorem mem_answers_iff : (n, a) ∈ answers.toList ↔ answers[n]? = some a :=
  ExtTreeMap.mem_toList_iff_getElem?_eq_some

theorem mem_vouchers_iff : (n, a) ∈ vouchers id answers m ↔ answers[n]? = some a ∧
    (n ∈ m.voters ∧ n ≠ id) ∧ a.rejoining = false ∧ a.membership.logId = m.logId := by
  rw [vouchers, List.mem_filter, mem_answers_iff, decide_eq_true_iff]

theorem not_newerThan {index : Nat} (h : m.newerThan index = false) (hl : m.logId = some l) :
    l.index ≤ index := by
  rw [MembershipView.newerThan, hl, Option.any_some, decide_eq_false_iff_not] at h
  omega

/-- The answers of voters that the code filters twice. -/
theorem filter_others (id : NodeId) (answers : Answers) (m : MembershipView) :
    ((answers.toList.filter fun a => a.1 ∈ m.voters.filter (· ≠ id)).filter fun a =>
      !a.2.rejoining && a.2.membership.logId = m.logId) = vouchers id answers m := by
  rw [List.filter_filter, vouchers]
  refine List.filter_congr fun a _ => ?_
  rw [Bool.eq_iff_iff]
  simp only [Finset.mem_filter, Bool.and_eq_true, Bool.not_eq_true', decide_eq_true_eq]
  exact And.comm

/-- Every early return of `startup_decision` waits. -/
theorem startupDecision_cases (id : NodeId) (answers : Answers) (localVote : Option Vote) :
    (∃ reason fresh, startupDecision id answers localVote = .wait reason fresh) ∨
    ∃ m l, Settled id answers m l ∧ startupDecision id answers localVote =
      if m.isMember id then decideMember id m.voters.card (vouchers id answers m) localVote m
      else decideStranger id answers m l.index := by
  unfold startupDecision
  cases hm : learnedMembership answers with
  | none => exact .inl ⟨_, _, rfl⟩
  | some m =>
    simp only
    cases hl : m.logId with
    | none => exact .inl ⟨_, _, rfl⟩
    | some l =>
      simp only
      split
      · exact .inl ⟨_, _, rfl⟩
      next hjoint =>
      split
      · exact .inl ⟨_, _, rfl⟩
      next hvoted =>
      split
      · exact .inl ⟨_, _, rfl⟩
      split
      · exact .inl ⟨_, _, rfl⟩
      next hnewer =>
      rw [← hl, filter_others]
      split
      · exact .inl ⟨_, _, rfl⟩
      next hsize =>
      refine .inr ⟨m, l, ⟨hm, hl, by simpa using hjoint, hvoted, ?_, by omega⟩, rfl⟩
      intro n a ha hn hne l' hl'
      have hfrom : (n, a) ∈ answers.toList.filter fun a => a.1 ∈ m.voters.filter (· ≠ id) :=
        List.mem_filter.mpr ⟨mem_answers_iff.mpr ha, by simp [hn, hne]⟩
      exact not_newerThan (by simpa using List.find?_eq_none.mp hnewer (n, a) hfrom) hl'

/-! ## The learned membership -/

/-- The best of what was seen, or what was best before. -/
theorem foldl_best {α : Type} {key : α → Nat} {f : Option α → α → Option α}
    (hnone : ∀ x, f none x = some x)
    (hsome : ∀ b x, f (some b) x = if key b ≤ key x then some x else some b) {xs : List α}
    {best : Option α} {x : α} (h : xs.foldl f best = some x) :
    (x ∈ xs ∨ best = some x) ∧ (∀ y ∈ xs, key y ≤ key x) ∧ ∀ b, best = some b → key b ≤ key x := by
  induction xs generalizing best with
  | nil =>
    subst h
    refine ⟨.inr rfl, by simp, fun b hb => ?_⟩
    cases hb
    exact Nat.le_refl _
  | cons z xs ih =>
    obtain ⟨hx, hmax, hbest⟩ := ih h
    have hz : (x ∈ z :: xs ∨ best = some x) ∧ key z ≤ key x ∧
        ∀ b, best = some b → key b ≤ key x := by
      cases best with
      | none =>
        rw [hnone] at hx hbest
        refine ⟨.inl (hx.elim (List.mem_cons_of_mem _) fun hz => ?_), hbest z rfl, by simp⟩
        cases hz
        exact List.mem_cons_self
      | some b =>
        rw [hsome] at hx hbest
        split at hbest
        next hle =>
          rw [if_pos hle] at hx
          have hzx := hbest z rfl
          refine ⟨.inl (hx.elim (List.mem_cons_of_mem _) fun hz => ?_), hzx, fun b' hb' => ?_⟩
          · cases hz
            exact List.mem_cons_self
          · cases hb'
            omega
        next hlt =>
          rw [if_neg hlt] at hx
          have hbx := hbest b rfl
          refine ⟨hx.imp_left (List.mem_cons_of_mem _), by omega, fun b' hb' => ?_⟩
          cases hb'
          exact hbx
    refine ⟨hz.1, fun y hy => ?_, hz.2.2⟩
    rcases List.mem_cons.mp hy with rfl | hy
    · exact hz.2.1
    · exact hmax y hy

theorem lastMaxBy_spec {α : Type} {key : α → Nat} {xs : List α} {x : α}
    (h : lastMaxBy key xs = some x) : x ∈ xs ∧ ∀ y ∈ xs, key y ≤ key x := by
  obtain ⟨hx, hmax, -⟩ := foldl_best (fun _ => rfl) (fun _ _ => rfl) h
  exact ⟨hx.resolve_right (by simp), hmax⟩

/-- The learned membership was reported, as committed; none reported as committed
and with nodes has a higher index. -/
theorem learnedMembership_spec (h : learnedMembership answers = some m) :
    (∃ (n : NodeId) (a : NodeStatusEx), answers[n]? = some a ∧ a.membership = m) ∧ m.known = true ∧
      ∀ (n : NodeId) (a : NodeStatusEx), answers[n]? = some a → a.membership.known = true →
        a.membership.index ≤ m.index := by
  obtain ⟨hmem, hmax⟩ := lastMaxBy_spec h
  obtain ⟨hmem, hknown⟩ := List.mem_filter.mp hmem
  obtain ⟨a, ha, rfl⟩ := List.mem_map.mp hmem
  obtain ⟨n, hn⟩ := TreeMap.mem_values.mp ha
  refine ⟨⟨n, a, hn, rfl⟩, hknown, fun n' a' ha' hk' => hmax _ ?_⟩
  exact List.mem_filter.mpr ⟨List.mem_map_of_mem (TreeMap.mem_values.mpr ⟨n', ha'⟩), hk'⟩

/-! ## Adopted votes -/

/-- The (possibly missing) vote is at least `v`. -/
def Covers (best : Option Vote) (v : Vote) : Prop := ∃ b, best = some b ∧ v ≤ b

theorem Covers.trans {best : Option Vote} {v w : Vote} (h : Covers best v) (hw : w ≤ v) :
    Covers best w := by
  obtain ⟨b, hb, hv⟩ := h
  exact ⟨b, hb, hw.trans hv⟩

/-- The loop ends with a vote that is at least every vote it saw. -/
theorem highestVote_covers {vs : List Vote} {best r : Option Vote}
    (h : highestVote best vs = some r) :
    (∀ v ∈ vs, Covers r v) ∧ ∀ b, best = some b → Covers r b := by
  induction vs generalizing best with
  | nil =>
    cases h
    exact ⟨nofun, fun b hb => ⟨b, hb, le_rfl⟩⟩
  | cons v vs ih =>
    unfold highestVote at h
    cases best with
    | none =>
      obtain ⟨hvs, hv⟩ := ih h
      refine ⟨fun w hw => ?_, nofun⟩
      rcases List.mem_cons.mp hw with rfl | hw
      · exact hv w rfl
      · exact hvs w hw
    | some b =>
      dsimp only [Vote.partialCmp] at h
      -- Whichever of the two is kept is at least the other.
      have hkeep : ∃ k, highestVote (some k) vs = some r ∧ v ≤ k ∧ b ≤ k := by
        cases hc : cmp v b with
        | lt =>
          rw [hc] at h
          exact ⟨b, h, ((cmp_eq_lt_iff v b).mp hc).le, le_rfl⟩
        | eq =>
          rw [hc] at h
          exact ⟨b, h, ((cmp_eq_eq_iff v b).mp hc).le, le_rfl⟩
        | gt =>
          rw [hc] at h
          exact ⟨v, h, le_rfl, ((cmp_eq_gt_iff v b).mp hc).le⟩
      obtain ⟨k, hk, hvk, hbk⟩ := hkeep
      obtain ⟨hvs, hcov⟩ := ih hk
      refine ⟨fun w hw => ?_, fun b' hb' => ?_⟩
      · rcases List.mem_cons.mp hw with rfl | hw
        · exact (hcov k rfl).trans hvk
        · exact hvs w hw
      · cases hb'
        exact (hcov k rfl).trans hbk

theorem adoptVote_covers {k : Nat} {votes : List (NodeId × Option Vote)}
    (h : adoptVote k votes localVote = .vote vote) :
    (∀ n v, (n, some v) ∈ votes → Covers vote v) ∧ ∀ v, localVote = some v → Covers vote v := by
  have hr : highestVote localVote (votes.filterMap Prod.snd) = some vote := by
    unfold adoptVote at h
    simp only at h
    split at h
    · cases h
    split at h
    · cases h
    · next hhigh => cases h; exact hhigh
    next hhigh =>
    split at h
    · cases h
    · cases h; exact hhigh
  obtain ⟨hvs, hloc⟩ := highestVote_covers hr
  refine ⟨fun n v hn => hvs v ?_, hloc⟩
  exact List.mem_filterMap.mpr ⟨(n, some v), hn, rfl⟩

/-- A rejoin: the membership is the learned one, the vote covers every vouching
answer and the local vote, and it is not this node's own leadership. -/
theorem decideMember_rejoin {k : Nat} {p : List (NodeId × NodeStatusEx)}
    (h : decideMember id k p localVote m = .rejoin vote m') :
    m' = m ∧ (∀ n a v, (n, a) ∈ p → a.vote = some v → Covers vote v) ∧
      (∀ v, localVote = some v → Covers vote v) ∧
      ∀ v, vote = some v → ¬ (v.committed = true ∧ v.node = id) := by
  unfold decideMember at h
  have hcov {r : Option Vote}
    (hr : adoptVote k (p.map fun a => (a.1, a.2.vote)) localVote = .vote r) :
      (∀ n a v, (n, a) ∈ p → a.vote = some v → Covers r v) ∧
        ∀ v, localVote = some v → Covers r v := by
    obtain ⟨hvotes, hloc⟩ := adoptVote_covers hr
    refine ⟨fun n a v ha hv => hvotes n v ?_, hloc⟩
    exact List.mem_map.mpr ⟨(n, a), ha, by rw [hv]⟩
  split at h
  · next v hr =>
    split at h
    · cases h
    next hown =>
    cases h
    exact ⟨rfl, (hcov hr).1, (hcov hr).2, fun v' hv' => by cases hv'; exact hown⟩
  · next hr =>
    cases h
    exact ⟨rfl, (hcov hr).1, (hcov hr).2, nofun⟩
  · cases h
  · cases h

/-! ## Refusals -/

theorem le_foldr_max {xs : List Nat} {k : Nat} (hne : xs ≠ []) (h : k ≤ xs.foldr max 0) :
    ∃ x ∈ xs, k ≤ x := by
  induction xs with
  | nil => exact absurd rfl hne
  | cons x xs ih =>
    rw [List.foldr_cons, le_max_iff] at h
    rcases h with h | h
    · exact ⟨x, List.mem_cons_self, h⟩
    cases xs with
    | nil => exact ⟨x, List.mem_cons_self, h.trans (Nat.zero_le x)⟩
    | cons y ys =>
      obtain ⟨z, hz, hle⟩ := ih (List.cons_ne_nil y ys) h
      exact ⟨z, List.mem_cons_of_mem _ hz, hle⟩

/-- A refusal: some node that holds the membership knows an id as high. -/
theorem decideStranger_refuse {mIndex : Nat}
    (hheld : ∃ (n : NodeId) (a : NodeStatusEx),
      answers[n]? = some a ∧ a.membership.logId = m.logId)
    (h : decideStranger id answers m mIndex = .refuse reason) :
    ∃ (n : NodeId) (a : NodeStatusEx),
      answers[n]? = some a ∧ a.membership.logId = m.logId ∧ id ≤ a.highestMember := by
  unfold decideStranger at h
  split at h
  · cases h
  simp only at h
  split at h
  · next hhigh =>
    obtain ⟨n₀, a₀, ha₀, hlog₀⟩ := hheld
    have hne : ((TreeMap.values answers).filter fun a => a.membership.logId = m.logId).map
        NodeStatusEx.highestMember ≠ [] :=
      List.ne_nil_of_mem (List.mem_map_of_mem (List.mem_filter.mpr
        ⟨TreeMap.mem_values.mpr ⟨n₀, ha₀⟩, by simpa using hlog₀⟩))
    obtain ⟨x, hx, hle⟩ := le_foldr_max hne hhigh
    obtain ⟨a, ha, rfl⟩ := List.mem_map.mp hx
    obtain ⟨ha, hlog⟩ := List.mem_filter.mp ha
    obtain ⟨n, hn⟩ := TreeMap.mem_values.mp ha
    exact ⟨n, a, hn, by simpa using hlog, hle⟩
  · split at h <;> cases h

end Beanstalkd.Raft
