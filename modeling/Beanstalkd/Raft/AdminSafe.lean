import Mathlib.Data.Finset.Card
import Mathlib.Data.List.MinMax
import Beanstalkd.Raft.Admin

/-!
# Successive memberships are compatible

What one committed membership entry can change is said once, in `Next`: nobody
new unless its id is above every id there was, no new voter that was not a
listed node, and voters that change by one node at a time and through a joint
configuration. `commits_next` shows it of every event, whatever its `force`;
the rest is about the trace of such steps.
-/

open Std

namespace Beanstalkd.Raft

variable {m : Membership} {c c' : Cluster} {V W Q Q' : Finset NodeId} {id : NodeId}
  {loopbackIp : String → Option Bool} {change : Change} {ev : AdminEvent} {evs : List AdminEvent}

/-! ## Voter sets one node apart -/

/-- The two sets differ by at most one node. -/
def Near (V W : Finset NodeId) : Prop := ∃ x, W = insert x V ∨ W = V.erase x

theorem Near.refl (hV : V.Nonempty) : Near V V := by
  obtain ⟨x, hx⟩ := hV
  exact ⟨x, .inl (Finset.insert_eq_of_mem hx).symm⟩

/-- A majority of one meets a majority of the other. -/
theorem Near.meets (h : Near V W) (hQ : Q ⊆ V) (hQ' : Q' ⊆ W) (hc : quorum V.card ≤ Q.card)
    (hc' : quorum W.card ≤ Q'.card) : (Q ∩ Q').Nonempty := by
  unfold quorum at hc hc'
  obtain ⟨x, rfl | rfl⟩ := h
  · have hcard := Finset.card_insert_le x V
    exact Finset.inter_nonempty_of_card_lt_card_add_card
      (hQ.trans (Finset.subset_insert x V)) hQ' (by omega)
  · have hcard := Finset.pred_card_le_card_erase (s := V) (a := x)
    exact Finset.inter_nonempty_of_card_lt_card_add_card hQ
      (hQ'.trans (Finset.erase_subset x V)) (by omega)

/-! ## The invariant -/

/-- The voter sets a membership goes through: one, or two that are near. -/
inductive Shape : List (Finset NodeId) → Prop where
  | uniform (V : Finset NodeId) : Shape [V]
  | joint {V W : Finset NodeId} : Near V W → Shape [V, W]

theorem Shape.one_or_two {configs : List (Finset NodeId)} (h : Shape configs) :
    (∃ V, configs = [V]) ∨ ∃ V W, configs = [V, W] ∧ Near V W := by
  cases h with
  | uniform V => exact .inl ⟨V, rfl⟩
  | @joint V W hnear => exact .inr ⟨V, W, rfl, hnear⟩

structure Ok (c : Cluster) : Prop where
  shape : Shape c.membership.configs
  /-- openraft's `ensure_non_empty_config`. -/
  nonempty : ∀ V ∈ c.membership.configs, V.Nonempty
  /-- openraft's `ensure_voter_nodes`. -/
  listed : ∀ V ∈ c.membership.configs, ∀ id ∈ V, c.membership.isNode id = true
  /-- The record covers every member. -/
  bounded : ∀ id, c.membership.isNode id = true → id ≤ c.highestMember

/-- What one committed entry changes. -/
structure Next (c c' : Cluster) : Prop where
  ok : Ok c'
  record : c.highestMember ≤ c'.highestMember
  /-- A new member's id is above every id there was. -/
  added : ∀ id, c'.membership.isNode id = true → c.membership.isNode id = false →
    c.highestMember < id
  /-- A new voter was a node before, so a learner. -/
  promoted : ∀ id ∈ c'.membership.voterIds, id ∉ c.membership.voterIds →
    c.membership.isNode id = true
  voters : (∃ V, c.membership.configs = [V] ∧ c'.membership.configs = [V]) ∨
    (∃ V W, c.membership.configs = [V] ∧ c'.membership.configs = [V, W]) ∨
    ∃ V W, c.membership.configs = [V, W] ∧ c'.membership.configs = [W]

theorem voterIds_one (h : m.configs = [V]) : m.voterIds = V := by
  rw [Membership.voterIds, h]
  exact Finset.union_empty V

theorem voterIds_two (h : m.configs = [V, W]) : m.voterIds = V ∪ W := by
  rw [Membership.voterIds, h]
  simp

theorem isNode_le_highest (h : m.isNode id = true) : id ≤ m.highestNode := by
  have hmem : id ∈ m.nodes.keys := ExtTreeMap.mem_keys.mpr (ExtTreeMap.contains_iff_mem.mp h)
  exact List.le_max_of_le hmem le_rfl

theorem Ok.voters_nonempty (h : Ok c) (hc : c.membership.configs = [V]) : V.Nonempty :=
  h.nonempty V (by rw [hc]; exact List.mem_singleton_self V)

/-! ## Steps -/

/-- Who is listed after a step towards `goal`. -/
theorem isNode_nextCoherent (goal : Finset NodeId) :
    (m.nextCoherent goal).isNode id = true ↔
      m.isNode id = true ∧ (id ∈ m.voterIds → id ∈ (m.nextCoherent goal).voterIds) := by
  simp only [Membership.isNode, Membership.nextCoherent, ExtTreeMap.contains_iff_mem,
    ExtTreeMap.mem_filter, ExtTreeMap.getKey_eq, exists_prop, decide_eq_true_eq,
    Finset.mem_sdiff, not_and, not_not]
  rfl

theorem isNode_insert (addr : String) {k : NodeId} :
    ({ m with nodes := m.nodes.insert k addr } : Membership).isNode id = true ↔
      k = id ∨ m.isNode id = true := by
  simp [Membership.isNode, ExtTreeMap.contains_insert]

theorem isNode_erase {k : NodeId} :
    ({ m with nodes := m.nodes.erase k } : Membership).isNode id = true ↔
      k ≠ id ∧ m.isNode id = true := by
  simp [Membership.isNode, ExtTreeMap.contains_erase]

/-- What `plan` guarantees of the change that answers a request, the same for every `force`. -/
inductive Planned (highest : NodeId) (m : Membership) : AdminRequest → Change → Prop where
  | addLearner {id : NodeId} {addr : String} {expect : Option LogId} : m.isNode id = false →
    highest < id → Planned highest m (.addLearner id addr expect) (.addLearner id addr)
  | promote {ids : Finset NodeId} {expect : Option LogId} {force : Bool} {id : NodeId} :
    m.isNode id = true → id ∉ m.voterIds →
    Planned highest m (.promote ids expect force) (.promote id)
  | removeLearner {id : NodeId} {expect : Option LogId} {force : Bool} : id ∉ m.voterIds →
    Planned highest m (.remove id expect force) (.removeLearner id)
  | removeVoter {id : NodeId} {expect : Option LogId} {force : Bool} : id ∈ m.voterIds →
    1 < m.voterIds.card → Planned highest m (.remove id expect force) (.removeVoter id)
  | setAddr {id : NodeId} {addr : String} {expect : Option LogId} {force : Bool} :
    m.isNode id = true → Planned highest m (.setAddr id addr expect force) (.setAddr id addr)

theorem plan_planned {req : AdminRequest} {ctx : Context} (h : plan req m ctx = .ok (some change)) :
    Planned ctx.highestMember m req change := by
  cases req with
  | membership => cases h
  | addLearner id addr expect =>
    simp only [plan, planAddLearner] at h
    split at h
    · split at h <;> cases h
    next hnone =>
    split at h
    · cases h
    split at h
    · cases h
    next hle =>
    split at h
    · cases h
    cases h
    refine .addLearner ?_ (Nat.not_le.mp hle)
    rw [Membership.isNode, ExtTreeMap.contains_eq_isSome_getElem?, hnone]
    rfl
  | promote ids expect force =>
    simp only [plan, planPromote] at h
    split at h
    · split at h
      · cases h
      next hv =>
      split at h
      · cases h
      next hn =>
      cases h
      exact .promote (by simpa using hn) hv
    · cases h
  | remove id expect force =>
    simp only [plan, planRemove] at h
    split at h
    · cases h
    split at h
    · next hv => cases h; exact .removeLearner hv
    next hv =>
    split at h
    · cases h
    next hleft =>
    split at h
    · cases h
    · cases h
      exact .removeVoter (not_not.mp hv) (by omega)
  | setAddr id addr expect force =>
    simp only [plan, planSetAddr] at h
    split at h
    · cases h
    next known hsome =>
    split at h
    · cases h
    split at h
    · cases h
    cases h
    refine .setAddr ?_
    rw [Membership.isNode, ExtTreeMap.contains_eq_isSome_getElem?, hsome]
    rfl

/-- The record covers a membership once its entry is applied. -/
theorem commit_bounded (h : m.isNode id = true) : id ≤ (c.commit m).highestMember :=
  (isNode_le_highest h).trans (le_max_right ..)

/-- An entry that lists the same voters, all of them still nodes. -/
theorem Ok.same_voters (h : Ok c) (hu : c.membership.configs = [V])
    (hm : m.configs = c.membership.configs) (hV : ∀ id ∈ V, m.isNode id = true)
    (hadd : ∀ id, m.isNode id = true → c.membership.isNode id = false → c.highestMember < id) :
    Next c (c.commit m) where
  ok :=
    { shape := hm ▸ h.shape
      nonempty := fun U hU => h.nonempty U (hm ▸ hU)
      listed := fun U hU => by
        obtain rfl : U = V := List.mem_singleton.mp (hu ▸ hm ▸ hU)
        exact hV
      bounded := fun id hid => commit_bounded hid }
  record := le_max_left ..
  added := hadd
  promoted := fun id hid hnot => by
    refine absurd ?_ hnot
    rwa [show (c.commit m).membership.voterIds = c.membership.voterIds by
      rw [Membership.voterIds, Membership.voterIds]; exact congrArg _ hm] at hid
  voters := .inl ⟨V, hu, hm.trans hu⟩

/-- The joint entry towards voters `W` one node away. -/
theorem Ok.joint (h : Ok c) (hu : c.membership.configs = [V]) (hnear : Near V W) (hne : V ≠ W)
    (hW : W.Nonempty) (hlisted : ∀ id ∈ W, c.membership.isNode id = true) :
    Next c (c.commit (c.membership.nextCoherent W)) := by
  have hconfigs : (c.membership.nextCoherent W).configs = [V, W] := by
    simp [Membership.nextCoherent, hu, hne.symm]
  -- every voter of before is in the joint configuration, so nobody leaves
  have hnode : ∀ id, (c.membership.nextCoherent W).isNode id = true ↔
      c.membership.isNode id = true := fun id => by
    rw [isNode_nextCoherent, voterIds_one hu, voterIds_two hconfigs]
    exact and_iff_left fun hid => Finset.mem_union_left W hid
  have hold : ∀ id ∈ V, c.membership.isNode id = true :=
    h.listed V (hu ▸ List.mem_singleton_self V)
  exact
    { ok :=
        { shape := by
            show Shape (c.membership.nextCoherent W).configs
            rw [hconfigs]
            exact .joint hnear
          nonempty := fun U hU => by
            replace hU : U ∈ [V, W] := hconfigs ▸ hU
            rcases List.mem_pair.mp hU with rfl | rfl
            · exact h.voters_nonempty hu
            · exact hW
          listed := fun U hU id hid => by
            replace hU : U ∈ [V, W] := hconfigs ▸ hU
            rcases List.mem_pair.mp hU with rfl | rfl
            · exact (hnode id).mpr (hold id hid)
            · exact (hnode id).mpr (hlisted id hid)
          bounded := fun id hid => commit_bounded hid }
      record := le_max_left ..
      added := fun id hid hnot => by
        rw [(hnode id).mp hid] at hnot
        cases hnot
      promoted := fun id hid hnot => by
        rw [Cluster.commit, voterIds_two hconfigs, Finset.mem_union] at hid
        rcases hid with hid | hid
        · exact hold id hid
        · exact hlisted id hid
      voters := .inr (.inl ⟨V, W, hu, hconfigs⟩) }

/-- The joint configuration is finished: only its new half stays. -/
theorem Ok.finish (h : Ok c) (hj : c.membership.configs = [V, W]) :
    Next c (c.commit (c.membership.nextCoherent W)) := by
  have hconfigs : (c.membership.nextCoherent W).configs = [W] := by
    simp [Membership.nextCoherent, hj]
  have hW : W ∈ c.membership.configs := by simp [hj]
  have hnode : ∀ id, (c.membership.nextCoherent W).isNode id = true →
      c.membership.isNode id = true := fun id hid => ((isNode_nextCoherent W).mp hid).1
  have hlisted : ∀ id ∈ W, (c.membership.nextCoherent W).isNode id = true := fun id hid => by
    rw [isNode_nextCoherent, voterIds_one hconfigs]
    exact ⟨h.listed W hW id hid, fun _ => hid⟩
  exact
    { ok :=
        { shape := by
            show Shape (c.membership.nextCoherent W).configs
            rw [hconfigs]
            exact .uniform W
          nonempty := fun U hU => by
            obtain rfl : U = W := List.mem_singleton.mp (hconfigs ▸ hU)
            exact h.nonempty U hW
          listed := fun U hU => by
            obtain rfl : U = W := List.mem_singleton.mp (hconfigs ▸ hU)
            exact hlisted
          bounded := fun id hid => commit_bounded hid }
      record := le_max_left ..
      added := fun id hid hnot => by
        rw [hnode id hid] at hnot
        cases hnot
      promoted := fun id hid _ => by
        rw [Cluster.commit, voterIds_one hconfigs] at hid
        exact h.listed W hW id hid
      voters := .inr (.inr ⟨V, W, hj, hconfigs⟩) }

/-- A change that passed `plan` leads to a membership compatible with the last. -/
theorem Ok.execute (h : Ok c) (hu : c.membership.configs = [V]) {req : AdminRequest}
    (hp : Planned c.highestMember c.membership req change) :
    Next c (c.commit (execute change c.membership)) := by
  have hids : c.membership.voterIds = V := voterIds_one hu
  have hold : ∀ id ∈ V, c.membership.isNode id = true :=
    h.listed V (hu ▸ List.mem_singleton_self V)
  cases hp with
  | @addLearner k addr _ hnew hlt =>
    refine h.same_voters hu rfl (fun id hid => ?_) fun id hid hnot => ?_
    · exact (isNode_insert addr).mpr (.inr (hold id hid))
    rcases (isNode_insert addr).mp hid with rfl | hid
    · exact hlt
    · rw [hid] at hnot
      cases hnot
  | @promote _ _ _ k hnode hk =>
    rw [hids] at hk
    have hne : V ≠ insert k V := fun heq => hk (heq ▸ Finset.mem_insert_self k V)
    show Next c (c.commit (c.membership.nextCoherent (insert k c.membership.voterIds)))
    rw [hids]
    refine h.joint hu ⟨k, .inl rfl⟩ hne (Finset.insert_nonempty k V) fun id hid => ?_
    rcases Finset.mem_insert.mp hid with rfl | hid
    · exact hnode
    · exact hold id hid
  | @removeLearner k _ _ hk =>
    rw [hids] at hk
    refine h.same_voters hu rfl (fun id hid => ?_) fun id hid hnot => ?_
    · exact isNode_erase.mpr ⟨fun heq => hk (heq ▸ hid), hold id hid⟩
    · rw [(isNode_erase.mp hid).2] at hnot
      cases hnot
  | @removeVoter k _ _ hk hcard =>
    rw [hids] at hk hcard
    have hne : V ≠ V.erase k := fun heq => Finset.notMem_erase k V (heq ▸ hk)
    have hleft : (V.erase k).Nonempty := by
      rw [← Finset.card_pos, Finset.card_erase_of_mem hk]
      omega
    show Next c (c.commit (c.membership.nextCoherent (c.membership.voterIds.erase k)))
    rw [hids]
    exact h.joint hu ⟨k, .inr rfl⟩ hne hleft fun id hid => hold id (Finset.mem_of_mem_erase hid)
  | @setAddr k addr _ _ hnode =>
    refine h.same_voters hu rfl (fun id hid => ?_) fun id hid hnot => ?_
    · exact (isNode_insert addr).mpr (.inr (hold id hid))
    rcases (isNode_insert addr).mp hid with rfl | hid
    · rw [hnode] at hnot
      cases hnot
    · rw [hid] at hnot
      cases hnot

theorem commits_next (h : Ok c) (hc : commits loopbackIp c ev = some c') : Next c c' := by
  cases ev with
  | request req tls plaintextAllowRemote =>
    simp only [commits] at hc
    split at hc
    · next hu =>
      split at hc
      · next change hplan =>
        cases hc
        obtain ⟨V, hV⟩ | ⟨V, W, hVW, _⟩ := h.shape.one_or_two
        · exact h.execute hV (plan_planned hplan)
        · simp [Cluster.isUniform, hVW] at hu
      · cases hc
    · cases hc
  | finish =>
    obtain ⟨goal, hgoal, rfl⟩ := Option.map_eq_some_iff.mp hc
    obtain ⟨V, hV⟩ | ⟨V, W, hVW, _⟩ := h.shape.one_or_two
    · rw [hV] at hgoal
      cases hgoal
    rw [hVW] at hgoal
    cases hgoal
    exact h.finish hVW

/-! ## Runs -/

theorem trace_of_none (h : commits loopbackIp c ev = none) :
    trace loopbackIp c (ev :: evs) = trace loopbackIp c evs := by
  rw [trace, h]

theorem trace_of_some (h : commits loopbackIp c ev = some c') :
    trace loopbackIp c (ev :: evs) = c :: trace loopbackIp c' evs := by
  rw [trace, h]

theorem trace_head (evs : List AdminEvent) : (trace loopbackIp c evs).head? = some c := by
  induction evs with
  | nil => rfl
  | cons ev evs ih =>
    cases hc : commits loopbackIp c ev with
    | none => rw [trace_of_none hc, ih]
    | some c' => rw [trace_of_some hc, List.head?_cons]

/-- The invariant rule: every committed entry of the trace is a `Next`. -/
theorem trace_next (h : Ok c) : (trace loopbackIp c evs).IsChain Next := by
  induction evs generalizing c with
  | nil => exact .singleton c
  | cons ev evs ih =>
    cases hc : commits loopbackIp c ev with
    | none =>
      rw [trace_of_none hc]
      exact ih h
    | some c' =>
      have hnext := commits_next h hc
      rw [trace_of_some hc, List.isChain_cons, trace_head]
      exact ⟨fun b hb => Option.mem_some.mp hb ▸ hnext, ih hnext.ok⟩

theorem trace_ok (h : Ok c) : ∀ b ∈ trace loopbackIp c evs, Ok b := by
  induction evs generalizing c with
  | nil => exact fun b hb => List.mem_singleton.mp hb ▸ h
  | cons ev evs ih =>
    cases hc : commits loopbackIp c ev with
    | none =>
      rw [trace_of_none hc]
      exact ih h
    | some c' =>
      rw [trace_of_some hc]
      exact List.forall_mem_cons.mpr ⟨h, ih (commits_next h hc).ok⟩

/-- From the uniform `p` on: `c` is uniform one node away, or the joint
configuration that starts from `p`'s voters. -/
def Leads (p c : Cluster) : Prop :=
  ∃ P, p.membership.configs = [P] ∧
    ((∃ U, c.membership.configs = [U] ∧ Near P U) ∨ ∃ W, c.membership.configs = [P, W])

theorem Next.leads (h : Next c c') (hok : Ok c) (hc : c.membership.configs = [V]) :
    Leads c c' := by
  refine ⟨V, hc, ?_⟩
  obtain ⟨U, hU, hU'⟩ | ⟨U, W, hU, hW⟩ | ⟨U, W, hU, hW⟩ := h.voters <;> rw [hc] at hU <;>
    cases hU
  · exact .inl ⟨V, hU', .refl (hok.voters_nonempty hc)⟩
  · exact .inr ⟨W, hW⟩

/-- A joint configuration is finished towards its new half, which is near the old. -/
theorem Next.leads_joint {p : Cluster} (h : Next c c') (hok : Ok c)
    (hp : p.membership.configs = [V]) (hc : c.membership.configs = [V, W]) : Leads p c' := by
  refine ⟨V, hp, .inl ⟨W, ?_, ?_⟩⟩
  · obtain ⟨U, hU, _⟩ | ⟨U, U', hU, _⟩ | ⟨U, U', hU, hU'⟩ := h.voters <;> rw [hc] at hU <;>
      cases hU
    exact hU'
  · obtain ⟨U, hU⟩ | ⟨U, U', hU, hnear⟩ := hok.shape.one_or_two <;> rw [hc] at hU <;> cases hU
    exact hnear

/-- The uniform memberships of a trace are one node apart. -/
theorem trace_uniform {p : Cluster} (h : Ok c) (hl : Leads p c) :
    (p :: (trace loopbackIp c evs).filter Cluster.isUniform).IsChain
      fun b b' => Near b.membership.voterIds b'.membership.voterIds := by
  induction evs generalizing c p with
  | nil =>
    obtain ⟨P, hP, ⟨U, hU, hnear⟩ | ⟨W, hW⟩⟩ := hl
    · simp [trace, Cluster.isUniform, hU, voterIds_one hU, voterIds_one hP, hnear]
    · simp [trace, Cluster.isUniform, hW]
  | cons ev evs ih =>
    cases hc : commits loopbackIp c ev with
    | none =>
      rw [trace_of_none hc]
      exact ih h hl
    | some c' =>
      have hnext := commits_next h hc
      rw [trace_of_some hc]
      obtain ⟨P, hP, ⟨U, hU, hnear⟩ | ⟨W, hW⟩⟩ := hl
      · -- `c` is the next uniform membership after `p`
        have hu : c.isUniform = true := by simp [Cluster.isUniform, hU]
        rw [List.filter_cons_of_pos hu]
        refine .cons_cons ?_ (ih hnext.ok (hnext.leads h hU))
        rwa [voterIds_one hP, voterIds_one hU]
      · have hu : ¬ c.isUniform = true := by simp [Cluster.isUniform, hW]
        rw [List.filter_cons_of_neg hu]
        exact ih hnext.ok (hnext.leads_joint h hP hW)

/-- Along a chain of entries the record only grows, and whom it covers and who is
not a member stays out. -/
theorem stays_out {rest : List Cluster} (h : (c :: rest).IsChain Next)
    (hle : id ≤ c.highestMember) (hout : c.membership.isNode id = false) :
    ∀ b ∈ rest, b.membership.isNode id = false := by
  induction rest generalizing c with
  | nil => exact fun b hb => nomatch hb
  | cons b rest ih =>
    obtain ⟨hnext, hrest⟩ := List.isChain_cons_cons.mp h
    have hb : b.membership.isNode id = false := by
      rw [← Bool.not_eq_true]
      exact fun hin => absurd hle (Nat.not_le.mpr (hnext.added id hin hout))
    exact List.forall_mem_cons.mpr ⟨hb, ih hrest (hle.trans hnext.record) hb⟩

theorem record_mono {pre post : List Cluster} (h : (pre ++ c :: post).IsChain Next) :
    ∀ b ∈ pre, b.highestMember ≤ c.highestMember := by
  induction pre with
  | nil => exact fun b hb => nomatch hb
  | cons a pre ih =>
    have htail := ih h.tail
    refine List.forall_mem_cons.mpr ⟨?_, htail⟩
    cases pre with
    | nil => exact (List.isChain_cons_cons.mp h).1.record
    | cons b pre =>
      exact (List.isChain_cons_cons.mp h).1.record.trans (htail b List.mem_cons_self)

/-! ## Memberships stay compatible -/

/-- What openraft requires of a membership, here a uniform one. -/
structure Membership.Initial (m : Membership) : Prop where
  uniform : ∃ V, m.configs = [V] ∧ V.Nonempty
  listed : ∀ id ∈ m.voterIds, m.isNode id = true

theorem Membership.Initial.ok (h : m.Initial) : Ok (.start m) := by
  obtain ⟨V, hV, hne⟩ := h.uniform
  have hmem : ∀ U ∈ m.configs, U = V := fun U hU => List.mem_singleton.mp (hV ▸ hU)
  exact
    { shape := by
        show Shape m.configs
        exact hV ▸ .uniform V
      nonempty := fun U hU => (hmem U hU).symm ▸ hne
      listed := fun U hU id hid => h.listed id (by rwa [voterIds_one hV, ← hmem U hU])
      bounded := fun id hid => isNode_le_highest hid }

/-- **Successive memberships are compatible.** Whatever operators ask for, with
whatever `force`: a majority of one uniform membership meets every majority of
the next, no configuration is empty, a new voter was a learner of the membership
just before, and an id that is no member stays out for good once an id as high
was one. -/
theorem memberships_compatible (loopbackIp : String → Option Bool) (m : Membership)
    (hm : m.Initial) (evs : List AdminEvent) :
    ((trace loopbackIp (.start m) evs).filter Cluster.isUniform).IsChain (fun c c' =>
      Near c.membership.voterIds c'.membership.voterIds ∧
        ∀ Q ⊆ c.membership.voterIds, ∀ Q' ⊆ c'.membership.voterIds,
          quorum c.membership.voterIds.card ≤ Q.card →
          quorum c'.membership.voterIds.card ≤ Q'.card → (Q ∩ Q').Nonempty) ∧
    (∀ c ∈ trace loopbackIp (.start m) evs,
      c.membership.configs ≠ [] ∧ ∀ V ∈ c.membership.configs, V.Nonempty) ∧
    (trace loopbackIp (.start m) evs).IsChain (fun c c' =>
      ∀ id ∈ c'.membership.voterIds, id ∉ c.membership.voterIds →
        c.membership.isNode id = true) ∧
    ∀ pre c post, trace loopbackIp (.start m) evs = pre ++ c :: post →
      ∀ id, c.membership.isNode id = false →
        (∃ b ∈ pre ++ [c], ∃ k, b.membership.isNode k = true ∧ id ≤ k) →
        ∀ c' ∈ post, c'.membership.isNode id = false := by
  have hok : Ok (.start m) := hm.ok
  obtain ⟨V, hV, hne⟩ := hm.uniform
  have hchain : (trace loopbackIp (.start m) evs).IsChain Next := trace_next hok
  refine ⟨?_, fun c hc => ?_, ?_, ?_⟩
  · have hstart : Leads (.start m) (.start m) := ⟨V, hV, .inl ⟨V, hV, .refl hne⟩⟩
    refine (trace_uniform hok hstart).tail.imp fun c c' hnear => ⟨hnear, ?_⟩
    exact fun Q hQ Q' hQ' hc hc' => hnear.meets hQ hQ' hc hc'
  · have hcok := trace_ok hok c hc
    refine ⟨fun hnil => ?_, hcok.nonempty⟩
    obtain ⟨U, hU⟩ | ⟨U, W, hU, _⟩ := hcok.shape.one_or_two <;> rw [hnil] at hU <;> cases hU
  · exact hchain.imp fun c c' hnext => hnext.promoted
  intro pre c post heq id hout ⟨b, hb, k, hk, hle⟩ c' hc'
  have hb' : b ∈ trace loopbackIp (.start m) evs := by
    rw [heq, List.append_cons]
    exact List.mem_append_left post hb
  have hbok : Ok b := trace_ok hok b hb'
  rw [heq] at hchain
  -- whoever was a member up to here is covered by the record at `c`
  have hrecord : b.highestMember ≤ c.highestMember := by
    rcases List.mem_append.mp hb with hb | hb
    · exact record_mono hchain b hb
    · exact (List.mem_singleton.mp hb) ▸ le_rfl
  have hcover : id ≤ c.highestMember := hle.trans ((hbok.bounded k hk).trans hrecord)
  exact stays_out hchain.right_of_append hcover hout c' hc'

/-- Three voters and a learner. -/
def trioAndLearner : Membership :=
  { configs := [{1, 2, 3}]
    nodes := .ofList [(1, "a:1"), (2, "b:1"), (3, "c:1"), (4, "d:1")] }

theorem third_removed :
    (trace (fun _ => none) (.start trioAndLearner)
      [.request (.remove 3 none true) true false, .finish]).map (·.membership.configs) =
        [[{1, 2, 3}], [{1, 2, 3}, {1, 2}], [{1, 2}]] ∧
    ∀ c ∈ trace (fun _ => none) (.start trioAndLearner)
        [.request (.remove 3 none true) true false, .finish],
      c.membership.configs ≠ [] ∧ ∀ V ∈ c.membership.configs, V.Nonempty := by
  have hinit : trioAndLearner.Initial :=
    { uniform := ⟨{1, 2, 3}, rfl, by decide⟩
      listed := by decide }
  refine ⟨?_, (memberships_compatible _ trioAndLearner hinit _).2.1⟩
  decide

end Beanstalkd.Raft
