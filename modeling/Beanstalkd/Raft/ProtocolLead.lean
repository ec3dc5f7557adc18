import Beanstalkd.Raft.ProtocolStep

/-!
# A leader's own entries

A leader appends to its log when it is elected, when a client's request is
proposed and when a rejoining node asks for its `DropNode` (`Extends`). A candidate
is elected with a log that is not behind that of any of its voters, so it holds what
they acknowledged; but only as long as none of them has lost its data since it
granted (`Inv.lead`).
-/

namespace Beanstalkd.Raft.Protocol

variable {c : Voters} {s : State} {v w : Vote} {n : NodeId} {l : LeaderId}

/-- A leader's log with a new entry is sound. -/
theorem Sound.snoc {s' : State} {log : List Entry} {v : LeaderId} {content : Content}
    (h : Sound s' log) (hle : ∀ e ∈ log, e.leader ≤ v) (hel : s'.Elected v)
    (hlogs : s'.logs v = log ++ [⟨v, content⟩]) : Sound s' (log ++ [⟨v, content⟩]) := by
  refine ⟨fun i e hi => ?_, ?_,
    List.forall_mem_append.2 ⟨h.known, List.forall_mem_singleton.2 (.inr hel)⟩⟩
  · rcases Nat.lt_or_ge i log.length with hlt | hge
    · rw [List.getElem?_append_left hlt] at hi
      rw [List.take_append_of_le_length hlt]
      exact h.own i e hi
    rw [List.getElem?_append_right hge, List.getElem?_singleton] at hi
    split at hi
    · rw [← Option.some.inj hi, hlogs]
      exact List.take_prefix ..
    · cases hi
  · rw [List.map_append, List.map_singleton, List.pairwise_append]
    refine ⟨h.sorted, List.pairwise_singleton .., fun a ha b hb => ?_⟩
    obtain ⟨e, he, rfl⟩ := List.mem_map.1 ha
    rw [List.mem_singleton.1 hb]
    exact hle e he

/-- The leader `v` on node `n` appends an entry; it may have been elected just now. -/
structure Extends (s s' : State) (n : NodeId) (v : Vote) (content : Content) (x' : Node) :
    Prop where
  nodes : s'.nodes = Function.update s.nodes n x'
  net : s'.net = s.net ++ [.ack v n (s.nodes n).losses ((s.nodes n).log.length + 1)]
  committed : s'.committed = s.committed
  logs : s'.logs =
    Function.update s.logs v.leaderId ((s.nodes n).log ++ [⟨v.leaderId, content⟩])
  elected : s.elected ⊆ s'.elected
  distinct : s'.elected.Pairwise (·.id ≠ ·.id)
  leader : s'.Elected v.leaderId
  fresh : ∀ l, s'.Elected l → s.Elected l ∨ l = v.leaderId
  known : s.Elected v.leaderId → s.logs v.leaderId = (s.nodes n).log
  boot : bootId < v.leaderId
  owner : v.node = n
  running : (s.nodes n).phase = .running
  vote : ∃ w, (s.nodes n).vote = some w ∧ w.leaderId = v.leaderId
  below : ∀ e ∈ (s.nodes n).log, e.leader ≤ v.leaderId
  vote' : x'.vote = some v
  log' : x'.log = (s.nodes n).log ++ [⟨v.leaderId, content⟩]
  commit' : x'.commit = (s.nodes n).commit
  phase' : x'.phase = .running
  proc' : x'.proc = (s.nodes n).proc
  losses' : x'.losses = (s.nodes n).losses
  before' : x'.before = (s.nodes n).before
  role' : ∃ acked drops, x'.role = .leader acked drops

namespace Extends

variable {s' : State} {n : NodeId} {v : Vote} {content : Content} {x' : Node}

variable (hx : Extends s s' n v content x')
include hx

theorem reach_le (l : LeaderId) (hl : (s.nodes n).Reach l) : l ≤ v.leaderId := by
  obtain ⟨w, hw, hid⟩ := hx.vote
  exact hid ▸ hl.le hw

theorem logs_leader : s'.logs v.leaderId = (s.nodes n).log ++ [⟨v.leaderId, content⟩] := by
  rw [hx.logs, Function.update_self]

theorem logs_other {l : LeaderId} (hl : l ≠ v.leaderId) : s'.logs l = s.logs l := by
  rw [hx.logs, Function.update_of_ne hl]

theorem moves : Moves s s' n [.ack v n (s.nodes n).losses ((s.nodes n).log.length + 1)] := by
  refine ⟨hx.net, fun m hm => by rw [hx.nodes, Function.update_of_ne hm], ?_, hx.elected,
    by rw [hx.committed]; exact List.Subset.refl _, hx.logs_other (ne_of_lt hx.boot),
    fun l hl => ?_, fun l hl => hx.logs_other fun h => hl (by rw [h]; exact hx.owner), hx.distinct,
    fun l hl => (hx.fresh l hl).imp id fun h => by rw [h]; exact hx.owner, fun u q g k hk => ?_⟩
  · rw [hx.nodes, Function.update_self]
    refine .of_vote hx.proc' hx.losses' hx.before' (hx.phase'.trans hx.running.symm)
      (Node.reach_of_le hx.reach_le hx.vote') fun g hg => ?_
    obtain ⟨_, _, hr⟩ := hx.role'
    rw [hr] at hg
    cases hg
  · by_cases h : l = v.leaderId
    · subst h
      rw [hx.logs_leader, hx.known hl]
      exact List.prefix_append ..
    · rw [hx.logs_other h]
  · cases List.mem_singleton.1 hk
    exact ⟨rfl, rfl, by rw [hx.running]; rfl, hx.reach_le⟩

theorem nodeInv (h : Inv c s) (hrole : RoleInv c s' n x' x'.role) : NodeInv c s' n x' := by
  have hm := hx.moves
  have hinv := h.node n
  have hreach := Node.reach_of_le hx.reach_le hx.vote'
  refine ⟨?_, ?_, fun l hl => ?_, fun src st hst => ?_, ⟨?_, ?_⟩, fun l g k hk _ => ?_,
    fun u hu _ _ => ?_, hrole⟩
  · rw [hx.log']
    exact (hm.sound_mono hinv.sound).snoc hx.below hx.leader hx.logs_leader
  · rw [hx.log']
    exact List.forall_mem_append.2 ⟨fun e he => (hinv.reached e he).imp id (hreach _),
      List.forall_mem_singleton.2 (.inr ⟨v, hx.vote', le_refl _⟩)⟩
  · rw [hx.before'] at hl
    exact ⟨hm.elected_mono (hinv.before l hl).1, fun _ => hreach l ((hinv.before l hl).2 (by
      rw [hx.running]; rfl))⟩
  · rw [hx.phase'] at hst
    simp [Phase.answers] at hst
  · rw [hx.commit', hx.log', List.length_append]
    exact Nat.le_add_right_of_le hinv.commit.1
  · rw [hx.commit', hx.log', List.take_append_of_le_length hinv.commit.1, hx.committed]
    refine hinv.commit.2.imp id fun hc => ?_
    obtain ⟨r, hr, hle, hpre⟩ := hc
    exact ⟨r, hr, hreach _ hle, hpre⟩
  · obtain ⟨u, k', rfl, hkk, hmem⟩ := hk
    rw [hx.net] at hmem
    rcases List.mem_append.1 hmem with hmem | hmem
    · have hold : s.Acked u.leaderId n g k := ⟨u, k', rfl, hkk, hmem⟩
      rcases hm.kept_mono h hold hreach (h.kept_running hx.running _ g k hold) with hpre | hlacks
      · rw [hx.log']
        exact .inl (hpre.trans (List.prefix_append ..))
      · exact .inr hlacks
    · cases List.mem_singleton.1 hmem
      rw [hx.log', ← hx.logs_leader]
      exact .inl (List.take_prefix ..)
  · rw [hx.vote'] at hu
    rw [← Option.some.inj hu, hx.log', hx.logs_leader]
    exact ⟨hx.leader, rfl⟩

theorem inv (h : Inv c s) (hrole : RoleInv c s' n x' x'.role)
    (helection : ∀ E ∈ s'.elected, E ∉ s.elected → ElectionInv c s' E) : Inv c s' := by
  have hm := hx.moves
  have hself : s'.nodes n = x' := by rw [hx.nodes, Function.update_self]
  refine hm.inv h (by rw [hself]; exact hx.nodeInv h hrole) (fun m hmem => ?_) (fun l hl _ => ?_)
    helection fun r hr hnot => absurd (hx.committed ▸ hr) hnot
  · rw [List.mem_singleton.1 hmem]
    refine ⟨hx.leader, ?_, ?_, fun hlt => ?_, fun _ => ?_⟩
    · rw [hx.logs_leader, List.length_append]
      exact Nat.le_refl _
    · rw [hself, hx.losses']
    · rw [hself, hx.losses'] at hlt
      exact absurd hlt (lt_irrefl _)
    · rw [hself]
      exact ⟨v, hx.vote', le_refl _⟩
  · by_cases hid : l = v.leaderId
    · subst hid
      rw [hx.logs_leader]
      exact ⟨(hm.sound_mono (h.node n).sound).snoc hx.below hx.leader hx.logs_leader,
        List.forall_mem_append.2 ⟨hx.below, List.forall_mem_singleton.2 (le_refl _)⟩⟩
    · have hold := (hx.fresh l hl).resolve_right hid
      rw [hx.logs_other hid]
      exact ⟨hm.sound_mono (h.logs l hold).1, (h.logs l hold).2⟩

end Extends

/-! ## Proposals -/

variable (h : Inv c s)
include h

/-- A leader with new bookkeeping appends an entry. -/
theorem Inv.appends {acked : List (NodeId × Nat)} {drops : List (NodeId × Nat × Nat)}
    (hrole : (s.nodes n).role = .leader acked drops) (hv : (s.nodes n).vote = some v)
    (content : Content) {x : Node} (drops' : List (NodeId × Nat × Nat))
    (hx : x = { s.nodes n with role := .leader acked drops' }) :
    Extends s (s.extend n x v content) n v content
      { x with log := x.log ++ [⟨v.leaderId, content⟩] } := by
  subst hx
  obtain ⟨hphase, -, hnode, hel, hlog, -, -⟩ := h.leads hrole hv
  obtain ⟨E, hE, hid⟩ := hel
  refine ⟨rfl, ?_, rfl, rfl, List.Subset.refl _, h.distinct, ⟨E, hE, hid⟩, fun _ hl => .inl hl,
    fun _ => hlog.symm, hid ▸ (h.election E hE).boot, hnode, hphase, ⟨v, hv, rfl⟩, fun e he => ?_,
      hv,
    rfl, rfl, hphase, rfl, rfl, rfl, ⟨acked, drops', rfl⟩⟩
  · show s.net ++ [Msg.ack v n _ ((s.nodes n).log ++ [_]).length] = _
    rw [List.length_append]
    rfl
  · rw [hlog] at he
    exact (h.logs _ ⟨E, hE, hid⟩).2 e he

/-- An acknowledgement does not go beyond the leader's log. -/
theorem Inv.acked_length {q g k : Nat} (hk : s.Acked l q g k) : k ≤ (s.logs l).length := by
  obtain ⟨u, k', rfl, hkk, hmem⟩ := hk
  exact hkk.trans (h.msg _ hmem).2.1

theorem Inv.propose (n : NodeId) (content : Content) : Inv c (s.propose n content) := by
  unfold State.propose
  dsimp only
  split
  next acked drops v hrole hv =>
    obtain ⟨hphase, hcom, hnode, hel, -, hacked, hdrops⟩ := h.leads hrole hv
    have hx := h.appends hrole hv content drops (x := s.nodes n) (by rw [← hrole])
    refine hx.inv h ?_ fun E hE hnot => absurd hE hnot
    show RoleInv c _ n _ (s.nodes n).role
    rw [hrole]
    refine hx.moves.role_mono h (fun _ hl _ => hl) (fun u hu _ _ => ?_)
      ⟨hphase, v, hv, hcom, hnode, hacked, hdrops⟩
    rwa [← Option.some.inj (hv.symm.trans hu)]
  · exact h

/-- The `DropNode` that a rejoining node asks for comes after what was acknowledged so
far. -/
theorem Inv.drop_proposed {s' : State} {r : NodeId} {x' : Node}
    (hx : Extends s s' n v (.dropNode r) x') (hel : s.Elected v.leaderId)
    (hsame : s'.elected = s.elected) (hne : n ≠ r) :
    DropInv s' r (s.nodes r).proc v.leaderId (s.nodes n).log.length := by
  have hm := hx.moves
  have hr := hm.others r (Ne.symm hne)
  have hold : ∀ q g k, s.Acked v.leaderId q g k → k ≤ (s.nodes n).log.length := fun q g k hk => by
    rw [← hx.known hel]
    exact h.acked_length hk
  refine ⟨⟨⟨v.leaderId, .dropNode r⟩, ?_, rfl⟩, by rw [hr], fun _ E hE _ q hq g k hk hlt => ?_,
    fun _ g k hk _ => ?_⟩
  · rw [hx.logs_leader, List.getElem?_append_right (Nat.le_refl _), Nat.sub_self]
    rfl
  · rcases hm.acked_cases hk with hk | ⟨rfl, -, hdec, -⟩
    · exact absurd (hold q g k hk) (Nat.not_le_of_lt hlt)
    rcases (h.election E (hsame ▸ hE)).voted q hq with hreach | ⟨hund, -⟩
    · exact hx.reach_le _ hreach
    · rw [hdec] at hund
      cases hund
  · rcases hm.acked_cases hk with hk | ⟨heq, -⟩
    · exact hold r g k hk
    · exact absurd heq.symm hne

theorem Inv.proposeDrop (n r : NodeId) : Inv c (s.proposeDrop n r) := by
  unfold State.proposeDrop
  dsimp only
  split
  next acked drops v hrole hv hphase' =>
    split
    next hne =>
      obtain ⟨hphase, hcom, hnode, hel, -, hacked, hdrops⟩ := h.leads hrole hv
      have hx := h.appends hrole hv (.dropNode r)
        (drops ++ [(r, (s.nodes r).proc, (s.nodes n).log.length)]) rfl
      refine hx.inv h ?_ fun E hE hnot => absurd hE hnot
      exact ⟨hphase, v, hv, hcom, hnode, fun a ha => (hacked a ha).imp fun _ => hx.moves.mem_net,
        List.forall_mem_append.2 ⟨fun d hd => hx.moves.drop_mono h hel (hdrops d hd),
          List.forall_mem_singleton.2 (h.drop_proposed hx hel rfl hne)⟩⟩
    · exact h
  · exact h

/-! ## Elections -/

def Role.granted : Role → List (NodeId × Nat)
  | .candidate granted => granted
  | _ => []

/-- Every voter counted still has the data it had when it granted. -/
def State.Fresh (s : State) (n : NodeId) : Prop :=
  ∀ g ∈ (s.nodes n).role.granted, (s.nodes g.1).losses = g.2

instance (s : State) (n : NodeId) : Decidable (s.Fresh n) :=
  inferInstanceAs (Decidable (∀ g ∈ _, _))

/-- What a voter had when it granted, the candidate has, unless a leader in between
lacked it. -/
theorem Inv.kept_candidate {w : LeaderId} {q g k : Nat} {mine log : List Entry}
    (hk : s.Acked l q g k) (hown : ∃ e ∈ (s.logs l).take k, e.leader = l)
    (hkept : s.Kept l k mine (· ≤ w)) (hnot : ¬ s.Elected w) (hmine : Sound s mine)
    (hlog : Sound s log) (hbelow : ∀ e ∈ log, e.leader < w) (hup : upToDate mine log = true) :
    s.Kept l k log (· < w) := by
  rcases hkept with hpre | ⟨w', hlw, hle, hlacks⟩
  swap
  · obtain ⟨E, hE, rfl, hno⟩ := hlacks
    exact .inr ⟨E.id, hlw, lt_of_le_of_ne hle fun heq => hnot ⟨E, hE, heq⟩, E, hE, rfl, hno⟩
  rcases upToDate_cases hmine hlog hup with hmine' | ⟨e, he, hlater⟩
  · exact .inl (hpre.trans hmine')
  -- the candidate's last entry is of a later leader `e.leader`, which was elected
  obtain ⟨d, hd, hdl⟩ := hown
  have hlt : l < e.leader := hdl ▸ hlater d (hpre.subset hd)
  have hmem := List.mem_of_getLast? he
  have hboot : bootId < e.leader := by
    obtain ⟨u, k', rfl, -, hmsg⟩ := hk
    obtain ⟨L, hL, hid⟩ := (h.msg _ hmsg).1
    exact (hid ▸ (h.election L hL).boot).trans hlt
  obtain ⟨E, hE, hid⟩ := (hlog.known e hmem).resolve_left (ne_of_gt hboot)
  have hpre' : E.log <+: log := by
    rcases List.prefix_or_prefix_of_prefix (h.election E hE).log (hid ▸ hlog.last he) with hp | hp
    · exact hp
    have hself := (h.election E hE).below e (hp.subset hmem)
    rw [hid] at hself
    exact absurd hself (lt_irrefl _)
  by_cases hhas : (s.logs l).take k <+: E.log
  · exact .inl (hhas.trans hpre')
  · exact .inr ⟨e.leader, hlt, hbelow e hmem, E, hE, hid, hhas⟩

/-- A candidate `w` on node `n` whose voters still have their data. -/
structure Wins (c : Voters) (s : State) (n : NodeId) (w : Vote) (granted : List (NodeId × Nat)) :
    Prop where
  phase : (s.nodes n).phase = .running
  vote : (s.nodes n).vote = some w
  node : w.node = n
  boot : bootId < w.leaderId
  fresh : ¬ s.Elected w.leaderId
  self : n ∈ c.ids ∧ ∃ g, (n, g) ∈ granted
  below : ∀ e ∈ (s.nodes n).log, e.leader < w.leaderId
  grants : ∀ g ∈ granted, (s.nodes g.1).losses = g.2 ∧
    ∃ mine, Msg.grant w (s.nodes n).proc g.1 g.2 (s.nodes n).log mine ∈ s.net

theorem Inv.wins {granted : List (NodeId × Nat)} (hrole : (s.nodes n).role = .candidate granted)
    (hw : (s.nodes n).vote = some w) (hfresh : s.Fresh n) : Wins c s n w granted := by
  rw [State.Fresh, hrole] at hfresh
  have hinv := (h.node n).role
  rw [hrole] at hinv
  obtain ⟨hphase, w', hw', hnode, hboot, hnot, ⟨hn, g0, hg0⟩, hgranted⟩ := hinv
  obtain rfl : w = w' := Option.some.inj (hw.symm.trans hw')
  -- what every grant answers is the candidate's log as it is now
  have hasked : ∀ g ∈ granted, (∀ e ∈ (s.nodes n).log, e.leader < w.leaderId) ∧
      ∃ mine, Msg.grant w (s.nodes n).proc g.1 g.2 (s.nodes n).log mine ∈ s.net := by
    intro g hg
    obtain ⟨asked, mine, hmem⟩ := hgranted g hg
    obtain ⟨-, hbelow, -, hcand⟩ := h.msg _ (h.msg _ hmem).1
    rw [hnode] at hcand
    rw [(hcand rfl).2 granted hrole hw] at hmem hbelow
    exact ⟨hbelow, mine, hmem⟩
  exact ⟨hphase, hw, hnode, hboot, hnot, ⟨hn, g0, hg0⟩, (hasked _ hg0).1,
    fun g hg => ⟨hfresh g hg, (hasked g hg).2⟩⟩

/-- What the new leader's voters acknowledged to earlier leaders. -/
theorem Wins.acks {granted : List (NodeId × Nat)} (hw : Wins c s n w granted) {q g : Nat}
    (hq : (q, g) ∈ granted) {a k : Nat} (hk : s.Acked l q a k) (hl : l < w.leaderId)
    (hown : ∃ e ∈ (s.logs l).take k, e.leader = l) :
    s.Kept l k (s.nodes n).log (· < w.leaderId) := by
  obtain ⟨hloss, mine, hmem⟩ := hw.grants _ hq
  obtain ⟨-, -, -, hsound, hup, hacks⟩ := h.msg _ hmem
  have hle : a ≤ g := by
    obtain ⟨u, k', -, -, hmsg⟩ := hk
    exact (h.msg _ hmsg).2.2.1.trans_eq hloss
  exact h.kept_candidate hk hown ((hacks l a k hk hl).resolve_left (Nat.not_lt_of_le hle)) hw.fresh
    hsound (h.node n).sound hw.below hup

/-- The new leader's blank entry. -/
theorem Wins.appends {granted : List (NodeId × Nat)} (hw : Wins c s n w granted) {E : Election}
    (hid : E.id = w.leaderId) (hv : v.leaderId = w.leaderId) (hnode : v.node = n) {x : Node}
    (hx : x = { s.nodes n with vote := some v, role := .leader [] [] }) :
    Extends s (({ s with elected := s.elected ++ [E] } : State).extend n x v .blank) n v .blank
      { x with log := x.log ++ [⟨v.leaderId, .blank⟩] } := by
  subst hx
  refine ⟨rfl, ?_, rfl, rfl, fun E hE => List.mem_append_left _ hE, ?_,
    ⟨E, List.mem_append_right _ (List.mem_singleton.2 rfl), hid.trans hv.symm⟩, fun l hl => ?_,
    fun hel => absurd (hv ▸ hel) hw.fresh, hv ▸ hw.boot, hnode, hw.phase, ⟨w, hw.vote, hv.symm⟩,
    fun e he => hv ▸ le_of_lt (hw.below e he), rfl, rfl, rfl, hw.phase, rfl, rfl, rfl,
      ⟨[], [], rfl⟩⟩
  · show s.net ++ [Msg.ack v n _ ((s.nodes n).log ++ [_]).length] = _
    rw [List.length_append]
    rfl
  · refine List.pairwise_append.2 ⟨h.distinct, List.pairwise_singleton .., fun E₁ hE₁ E₂ hE₂ => ?_⟩
    rw [List.mem_singleton.1 hE₂, hid]
    exact fun heq => hw.fresh ⟨E₁, hE₁, heq⟩
  obtain ⟨E', hE', rfl⟩ := hl
  rcases List.mem_append.1 hE' with hE' | hE'
  · exact .inl ⟨E', hE', rfl⟩
  · rw [List.mem_singleton.1 hE']
    exact .inr (hid.trans hv.symm)

theorem Inv.lead (n : NodeId) (hfresh : s.Fresh n) : Inv c (s.lead c n) := by
  unfold State.lead
  dsimp only
  split
  next granted w hrole hvote =>
    split
    next hmaj =>
      have hw := h.wins hrole hvote hfresh
      have hx := hw.appends h (E := ⟨w.leaderId, (s.nodes n).log,
        c.ids.filter fun q => granted.any fun g => g.1 = q⟩) rfl (v := { w with committed := true })
        rfl hw.node rfl
      have hm := hx.moves
      refine hx.inv h ?_ fun E hE hnot => ?_
      · exact ⟨hw.phase, _, rfl, rfl, hw.node, fun a ha => (nomatch ha), fun d hd => (nomatch hd)⟩
      obtain rfl := List.mem_singleton.1 ((List.mem_append.1 hE).resolve_left hnot)
      have hgrant : ∀ q ∈ c.ids.filter (fun q => granted.any fun g => g.1 = q),
          ∃ g, (q, g) ∈ granted := by
        intro q hq
        obtain ⟨⟨q', g⟩, hg, heq⟩ := List.any_eq_true.1 (Finset.mem_filter.1 hq).2
        rw [decide_eq_true_iff] at heq
        exact ⟨g, heq ▸ hg⟩
      refine ⟨?_, hw.below, hw.boot, ⟨Finset.filter_subset .., of_decide_eq_true hmaj⟩, ?_,
        fun q hq => .inl ?_, fun q hq l a k hk hl hown => ?_⟩
      · exact ⟨_, hx.logs_leader.symm⟩
      · obtain ⟨g, hg⟩ := hw.self.2
        have hself : (ofLex w.leaderId).2 = n := hw.node
        show (ofLex w.leaderId).2 ∈ c.ids.filter _
        rw [hself, Finset.mem_filter]
        exact ⟨hw.self.1, List.any_eq_true.2 ⟨_, hg, decide_eq_true rfl⟩⟩
      · -- its vote was the candidate's when it granted, and it has not lost it
        obtain ⟨g, hg⟩ := hgrant q hq
        obtain ⟨hloss, mine, hmem⟩ := hw.grants _ hg
        have hreach := (h.msg _ hmem).2.2.1 hloss.symm
        by_cases hq' : q = n
        · subst hq'
          rw [hx.nodes, Function.update_self]
          exact ⟨_, rfl, le_refl _⟩
        · rw [hm.others q hq']
          exact hreach
      · obtain ⟨g, hg⟩ := hgrant q hq
        rcases hm.acked_cases hk with hk | ⟨rfl, -, -, hle⟩
        · rw [(hm.take_acked h hk).2] at hown
          exact hm.kept_mono h hk (fun _ hlt => hlt) (hw.acks h hg hk hl hown)
        · exact absurd (hle _ ⟨w, hvote, le_refl _⟩) (not_le_of_gt hl)
    · exact h
  · exact h

end Beanstalkd.Raft.Protocol
