import Beanstalkd.Raft.LogMatching

/-!
# The invariant of the protocol

What carries leader completeness through losses of data:

* a voter of an election has a vote that is at least the leader's, for as long as
  it has its data, and adopts one again when it rejoins (`ElectionInv.voted`);
* what a voter acknowledged to a leader it still has when it votes, unless a
  leader in between lacked it (`Kept`), also if it lost its data in between: it
  votes again only once it has applied an entry proposed since (`DropInv`);
* so a candidate that is elected holds what its voters acknowledged to earlier
  leaders, unless a leader in between lacked it (`ElectionInv.acks`).

By induction over the leaders no leader lacks what a majority acknowledged.
-/

namespace Beanstalkd.Raft.Protocol

/-- The node's vote is at least that of leader `l`. -/
def Node.Reach (x : Node) (l : LeaderId) : Prop := ∃ v, x.vote = some v ∧ l ≤ v.leaderId

/-- The answers collected so far. -/
def Phase.answers : Phase → Answers
  | .discovering answers => answers
  | .rechecking _ answers => answers
  | _ => ∅

namespace State

/-- Node `q` acknowledged leader `l`'s log up to `k`, after `a` losses of data. -/
def Acked (s : State) (l : LeaderId) (q a k : Nat) : Prop :=
  ∃ v k', v.leaderId = l ∧ k ≤ k' ∧ Msg.ack v q a k' ∈ s.net

/-- Leader `w` was elected without leader `l`'s log up to `k`. -/
def Lacks (s : State) (w l : LeaderId) (k : Nat) : Prop :=
  ∃ E ∈ s.elected, E.id = w ∧ ¬ (s.logs l).take k <+: E.log

/-- Leader `l`'s log up to `k` is in `log`, or some later leader among `p` lacks it. -/
def Kept (s : State) (l : LeaderId) (k : Nat) (log : List Entry) (p : LeaderId → Prop) : Prop :=
  (s.logs l).take k <+: log ∨ ∃ w, l < w ∧ p w ∧ s.Lacks w l k

end State

variable (c : Voters) (s : State)

/-- A `DropNode` for process `p` of node `r` at `i` in leader `l`'s log. While that
process rejoins: no voter of an earlier election acknowledged it to a leader before
that one, and what the node acknowledged before its loss lies before it. -/
structure DropInv (r p : Nat) (l : LeaderId) (i : Nat) : Prop where
  entry : ∃ e, (s.logs l)[i]? = some e ∧ e.leader = l
  proc : p ≤ (s.nodes r).proc
  later : p = (s.nodes r).proc → ∀ E ∈ s.elected, E.id ∈ (s.nodes r).before → ∀ q ∈ E.voters,
    ∀ a k, s.Acked l q a k → i < k → E.id ≤ l
  own : p = (s.nodes r).proc → ∀ a k, s.Acked l r a k → a < (s.nodes r).losses → k ≤ i

/-- An answer to a node that lost its data after the elections `before`: a voter that
is not rejoining reports a vote that is at least that of every leader it elected
among them. -/
structure AnswerInv (before : List LeaderId) (src : NodeId) (st : NodeStatusEx) : Prop where
  view : st.membership = noView ∨ ∃ b, st.membership = c.view b
  vote : st.rejoining = false → ∀ E ∈ s.elected, E.id ∈ before → src ∈ E.voters →
    ∃ v, st.vote = some v ∧ E.id ≤ v.leaderId

def MsgInv : Msg → Prop
  | .voteReq w p log =>
    Sound s log ∧ (∀ e ∈ log, e.leader < w.leaderId) ∧ p ≤ (s.nodes w.node).proc ∧
      (p = (s.nodes w.node).proc → (s.nodes w.node).Reach w.leaderId ∧
        ∀ granted, (s.nodes w.node).role = .candidate granted → (s.nodes w.node).vote = some w →
          log = (s.nodes w.node).log)
  | .grant w p q g asked mine =>
    Msg.voteReq w p asked ∈ s.net ∧ g ≤ (s.nodes q).losses ∧
      (g = (s.nodes q).losses → (s.nodes q).Reach w.leaderId) ∧
      Sound s mine ∧ upToDate mine asked = true ∧
      ∀ l a k, s.Acked l q a k → l < w.leaderId → g < a ∨ s.Kept l k mine (· ≤ w.leaderId)
  | .append v prev log commit =>
    s.Elected v.leaderId ∧ log <+: s.logs v.leaderId ∧ prev ≤ log.length ∧
      (commit = 0 ∨ ∃ r ∈ s.committed, r.1 ≤ v.leaderId ∧ log.take commit <+: r.2)
  | .ack v q a k =>
    s.Elected v.leaderId ∧ k ≤ (s.logs v.leaderId).length ∧ a ≤ (s.nodes q).losses ∧
      (a < (s.nodes q).losses → v.leaderId ∈ (s.nodes q).before) ∧
      (a = (s.nodes q).losses → (s.nodes q).Reach v.leaderId)
  | .status r p src st => p ≤ (s.nodes r).proc ∧
      (p = (s.nodes r).proc → AnswerInv c s (s.nodes r).before src st)
  | .dropped r p l i => DropInv s r p l i ∧ ∃ pre, (l, pre) ∈ s.committed ∧ i < pre.length

def RoleInv (c : Voters) (s : State) (n : NodeId) (x : Node) : Role → Prop
  | .follower => True
  | .candidate granted =>
    x.phase = .running ∧ ∃ w, x.vote = some w ∧ w.node = n ∧ bootId < w.leaderId ∧
      ¬ s.Elected w.leaderId ∧ (n ∈ c.ids ∧ ∃ g, (n, g) ∈ granted) ∧
      ∀ g ∈ granted, ∃ asked mine, Msg.grant w x.proc g.1 g.2 asked mine ∈ s.net
  | .leader acked drops =>
    x.phase = .running ∧ ∃ v, x.vote = some v ∧ v.committed = true ∧ v.node = n ∧
      (∀ a ∈ acked, ∃ g, Msg.ack v a.1 g a.2 ∈ s.net) ∧
      ∀ d ∈ drops, DropInv s d.1 d.2.1 v.leaderId d.2.2

structure NodeInv (n : NodeId) (x : Node) : Prop where
  sound : Sound s x.log
  reached : ∀ e ∈ x.log, e.leader = bootId ∨ x.Reach e.leader
  before : ∀ l ∈ x.before, s.Elected l ∧ (x.phase.undecided = false → x.Reach l)
  answers : ∀ (src : NodeId) (st : NodeStatusEx), x.phase.answers[src]? = some st →
    AnswerInv c s x.before src st
  commit : x.commit ≤ x.log.length ∧
    (x.commit = 0 ∨ ∃ r ∈ s.committed, x.Reach r.1 ∧ x.log.take x.commit <+: r.2)
  acks : ∀ l a k, s.Acked l n a k → a = x.losses ∨ x.phase = .running →
    s.Kept l k x.log x.Reach
  /-- Its own leadership. -/
  own : ∀ v, x.vote = some v → v.committed = true → v.node = n →
    s.Elected v.leaderId ∧ x.log = s.logs v.leaderId
  role : RoleInv c s n x x.role

structure ElectionInv (E : Election) : Prop where
  log : E.log <+: s.logs E.id
  below : ∀ e ∈ E.log, e.leader < E.id
  boot : bootId < E.id
  voters : E.voters ⊆ c.ids ∧ quorum c.ids.card ≤ E.voters.card
  self : (ofLex E.id).2 ∈ E.voters
  voted : ∀ q ∈ E.voters, (s.nodes q).Reach E.id ∨
    ((s.nodes q).phase.undecided = true ∧ E.id ∈ (s.nodes q).before)
  /-- Of what was acknowledged to an earlier leader, only as far as an entry of that
  leader's own counts. -/
  acks : ∀ q ∈ E.voters, ∀ l a k, s.Acked l q a k → l < E.id →
    (∃ e ∈ (s.logs l).take k, e.leader = l) → s.Kept l k E.log (· < E.id)

structure CommitInv (r : LeaderId × List Entry) : Prop where
  elected : s.Elected r.1
  log : r.2 <+: s.logs r.1
  last : ∃ e, r.2.getLast? = some e ∧ e.leader = r.1
  acks : ∃ Q ⊆ c.ids, quorum c.ids.card ≤ Q.card ∧ ∀ q ∈ Q, ∃ a, s.Acked r.1 q a r.2.length

structure Inv : Prop where
  distinct : s.elected.Pairwise (·.id ≠ ·.id)
  boot : s.logs bootId = bootLog
  logs : ∀ l, s.Elected l → Sound s (s.logs l) ∧ ∀ e ∈ s.logs l, e.leader ≤ l
  node : ∀ n, NodeInv c s n (s.nodes n)
  msg : ∀ m ∈ s.net, MsgInv c s m
  election : ∀ E ∈ s.elected, ElectionInv c s E
  commit : ∀ r ∈ s.committed, CommitInv c s r

variable {c s} {r : LeaderId × List Entry}

/-- The initial log is sound. -/
theorem sound_bootLog (h : s.logs bootId = bootLog) : Sound s bootLog := by
  refine ⟨fun i e hi => ?_, List.pairwise_singleton .., fun e he => ?_⟩
  · cases i with
    | zero =>
      obtain rfl : (⟨bootId, .membership⟩ : Entry) = e := Option.some.inj hi
      rw [h]
      exact List.prefix_rfl
    | succ i => simp [bootLog] at hi
  · rw [List.mem_singleton.1 he]
    exact .inl rfl

theorem inv_init (c : Voters) : Inv c {} where
  distinct := .nil
  boot := rfl
  logs l hl := by
    obtain ⟨E, hE, -⟩ := hl
    cases hE
  node n := by
    refine ⟨sound_bootLog rfl, fun e he => ?_, fun l hl => (nomatch hl), fun src st hst => ?_,
      ⟨Nat.zero_le _, .inl rfl⟩, fun l a k hk => ?_, fun v hv => (nomatch hv), trivial⟩
    · rw [List.mem_singleton.1 he]
      exact .inl rfl
    · simp [Phase.answers] at hst
    · obtain ⟨v, k', -, -, hv⟩ := hk
      cases hv
  msg m hm := nomatch hm
  election E hE := nomatch hE
  commit r hr := nomatch hr

/-! ## What no leader lacks -/

/-- Two majorities meet. -/
theorem majorities_meet {P Q : Finset NodeId} (hP : P ⊆ c.ids ∧ quorum c.ids.card ≤ P.card)
    (hQ : Q ⊆ c.ids ∧ quorum c.ids.card ≤ Q.card) : ∃ q, q ∈ P ∧ q ∈ Q := by
  have hlt : c.ids.card < P.card + Q.card := by
    have h1 := hP.2
    have h2 := hQ.2
    unfold quorum at h1 h2
    omega
  obtain ⟨q, hq⟩ := Finset.inter_nonempty_of_card_lt_card_add_card hP.1 hQ.1 hlt
  exact ⟨q, (Finset.mem_inter.1 hq).1, (Finset.mem_inter.1 hq).2⟩

/-- **Leader completeness.** What a majority acknowledged to a leader up to an entry of
its own, every later leader was elected with. -/
theorem Inv.complete (h : Inv c s) {l : LeaderId} {k : Nat} {Q : Finset NodeId}
    (hQ : Q ⊆ c.ids ∧ quorum c.ids.card ≤ Q.card) (hacks : ∀ q ∈ Q, ∃ a, s.Acked l q a k)
    (hown : ∃ e ∈ (s.logs l).take k, e.leader = l) {E : Election} (hE : E ∈ s.elected)
    (hl : l < E.id) : (s.logs l).take k <+: E.log := by
  -- over the leaders, from the lowest on: none in between lacks it
  induction hw : E.id using WellFoundedLT.induction generalizing E with
  | ind w ih =>
    obtain ⟨q, hq, hqE⟩ := majorities_meet hQ (h.election E hE).voters
    obtain ⟨a, hack⟩ := hacks q hq
    rcases (h.election E hE).acks q hqE l a k hack hl hown with
      hkeep | ⟨w', hlw, hlt, E', hE', rfl, hlacks⟩
    · exact hkeep
    · exact absurd (ih _ (hw ▸ hlt) hE' hlw rfl) hlacks

theorem Inv.committed_complete (h : Inv c s) (hr : r ∈ s.committed) {E : Election}
    (hE : E ∈ s.elected) (hl : r.1 < E.id) : r.2 <+: E.log := by
  obtain ⟨Q, hQ, hcard, hacks⟩ := (h.commit r hr).acks
  have htake := List.prefix_iff_eq_take.1 (h.commit r hr).log
  obtain ⟨e, he, hid⟩ := (h.commit r hr).last
  have hmem : e ∈ (s.logs r.1).take r.2.length := by
    rw [← htake]
    exact List.mem_of_getLast? he
  have hcomplete := h.complete ⟨hQ, hcard⟩ hacks ⟨e, hmem, hid⟩ hE hl
  rwa [← htake] at hcomplete

/-- A leader at or above the one that committed has what it committed. -/
theorem Inv.committed_logs (h : Inv c s) (hr : r ∈ s.committed) {l : LeaderId} (hl : s.Elected l)
    (hle : r.1 ≤ l) : r.2 <+: s.logs l := by
  obtain ⟨E, hE, rfl⟩ := hl
  rcases eq_or_lt_of_le hle with heq | hlt
  · rw [← heq]
    exact (h.commit r hr).log
  · exact (h.committed_complete hr hE hlt).trans (h.election E hE).log

/-- What two leaders committed does not conflict. -/
theorem Inv.committed_agree (h : Inv c s) {r' : LeaderId × List Entry} (hr : r ∈ s.committed)
    (hr' : r' ∈ s.committed) : r.2 <+: r'.2 ∨ r'.2 <+: r.2 := by
  rcases le_total r.1 r'.1 with hle | hle
  · exact List.prefix_or_prefix_of_prefix (h.committed_logs hr (h.commit r' hr').elected hle)
      (h.commit r' hr').log
  · exact List.prefix_or_prefix_of_prefix (h.commit r hr).log
      (h.committed_logs hr' (h.commit r hr).elected hle)

end Beanstalkd.Raft.Protocol
