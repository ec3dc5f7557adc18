import Beanstalkd.Raft.Rejoin
import Beanstalkd.Raft.ProtocolFrame

/-!
# The steps keep the invariant

One lemma for every action. The arguments are those named in `ProtocolInv`: a
grant and an acknowledgement never go below the node's vote, an append keeps what
the leader has too, a rejoining node adopts a vote that meets every earlier
election, and its `DropNode` comes after everything it acknowledged before.
-/

namespace Beanstalkd.Raft.Protocol

variable {c : Voters} {s s' : State} {a n : NodeId} {x' x : Node} {new : List Msg} {l : LeaderId}
  {w v : Vote} {proc : Nat} {log : List Entry}

namespace Inv

/-- The history stays; node `a` becomes `x'` and `new` is sent. -/
theorem moved {s' : State} {a : NodeId} {x' : Node} {new : List Msg} (h : Inv c s)
    (hnodes : s'.nodes = Function.update s.nodes a x') (hnet : s'.net = s.net ++ new)
    (helected : s'.elected = s.elected) (hcommitted : s'.committed = s.committed)
    (hlogs : s'.logs = s.logs) (hadv : Advance s (s.nodes a) x')
    (hacks : ∀ v q g k, Msg.ack v q g k ∈ new → q = a ∧ g = (s.nodes a).losses ∧
      (s.nodes a).phase.undecided = false ∧ ∀ l, (s.nodes a).Reach l → l ≤ v.leaderId)
    (hnode : Moves s s' a new → NodeInv c s' a x')
    (hnew : Moves s s' a new → s'.nodes a = x' → ∀ m ∈ new, MsgInv c s' m) : Inv c s' := by
  have hself : s'.nodes a = x' := by rw [hnodes, Function.update_self]
  have hm : Moves s s' a new := by
    refine ⟨hnet, fun n hn => ?_, by rwa [hself], by rw [helected]; exact List.Subset.refl _,
      by rw [hcommitted]; exact List.Subset.refl _, by rw [hlogs], fun l _ => by rw [hlogs],
      fun l _ => by rw [hlogs], by rw [helected]; exact h.distinct, fun l hl => .inl ?_, hacks⟩
    · rw [hnodes, Function.update_of_ne hn]
    · obtain ⟨E, hE, hid⟩ := hl
      exact ⟨E, helected ▸ hE, hid⟩
  refine hm.inv h (by rw [hself]; exact hnode hm) (hnew hm hself) (fun l hl _ => ?_)
    (fun E hE hnot => absurd (helected ▸ hE) hnot) fun r hr hnot => absurd (hcommitted ▸ hr) hnot
  obtain ⟨E, hE, hid⟩ := hl
  have hold := h.logs l ⟨E, helected ▸ hE, hid⟩
  rw [hlogs]
  exact ⟨hm.sound_mono hold.1, hold.2⟩

/-- Nothing but node `a` changes. -/
theorem set (h : Inv c s) (hadv : Advance s (s.nodes a) x')
    (hnode : Moves s (s.set a x') a [] → NodeInv c (s.set a x') a x') : Inv c (s.set a x') :=
  h.moved rfl (List.append_nil _).symm rfl rfl rfl hadv (fun _ _ _ _ hk => nomatch hk) hnode
    fun _ _ _ hmem => nomatch hmem

/-- A running node has kept all it ever acknowledged. -/
theorem kept_running (h : Inv c s) (hrun : (s.nodes a).phase = .running) (l : LeaderId)
    (g k : Nat) (hk : s.Acked l a g k) : s.Kept l k (s.nodes a).log (s.nodes a).Reach :=
  (h.node a).acks l g k hk (.inr hrun)

end Inv

/-- Node `a` as `x'` keeps its log and its losses, and its vote only grows. What it knows in
its phase and in its vote it knew already. -/
structure Carries (c : Voters) (s : State) (a : NodeId) (x' : Node) : Prop where
  log : x'.log = (s.nodes a).log
  commit : x'.commit = (s.nodes a).commit
  losses : x'.losses = (s.nodes a).losses
  before : x'.before = (s.nodes a).before
  reach : ∀ l, (s.nodes a).Reach l → x'.Reach l
  decided : x'.phase.undecided = false → ∀ l ∈ (s.nodes a).before, x'.Reach l
  answers : ∀ (src : NodeId) (st : NodeStatusEx), x'.phase.answers[src]? = some st →
    AnswerInv c s (s.nodes a).before src st
  acks : x'.phase = .running → ∀ l g k, s.Acked l a g k →
    s.Kept l k (s.nodes a).log (s.nodes a).Reach
  own : ∀ v, x'.vote = some v → v.committed = true → v.node = a → (s.nodes a).vote = some v

/-- The node as it is. -/
theorem Inv.carries (h : Inv c s) (a : NodeId) : Carries c s a (s.nodes a) where
  log := rfl
  commit := rfl
  losses := rfl
  before := rfl
  reach _ hl := hl
  decided hund l hl := ((h.node a).before l hl).2 hund
  answers := (h.node a).answers
  acks := h.kept_running
  own _ hv _ _ := hv

/-- No answer is collected. -/
theorem AnswerInv.of_empty (before : List LeaderId) (src : NodeId) (st : NodeStatusEx)
    (hst : (∅ : Answers)[src]? = some st) : AnswerInv c s before src st := by
  simp at hst

namespace Carries

theorem role (hc : Carries c s a x') (h : Inv c s) (hm : Moves s s' a new)
    (helected : s'.elected = s.elected) (hrole : RoleInv c s a x' x'.role) :
    RoleInv c s' a x' x'.role := by
  refine hm.role_mono h (fun l hl _ => ?_)
    (fun v hv hcom hnode => ((h.node a).own v (hc.own v hv hcom hnode) hcom hnode).1) hrole
  rwa [State.Elected, helected] at hl

/-- A node that keeps its log and acknowledges nothing. -/
theorem nodeInv (hc : Carries c s a x') (h : Inv c s) (hm : Moves s s' a new)
    (hlogs : s'.logs = s.logs) (hno : ∀ v q g k, Msg.ack v q g k ∉ new)
    (hrole : RoleInv c s' a x' x'.role) : NodeInv c s' a x' := by
  have hinv := h.node a
  refine ⟨by rw [hc.log]; exact hm.sound_mono hinv.sound, fun e he => ?_, fun l hl => ?_,
    fun src st hst => ?_, ⟨by rw [hc.commit, hc.log]; exact hinv.commit.1, ?_⟩,
    fun l g k hk hg => ?_, fun v hv hcom hnode => ?_, hrole⟩
  · rw [hc.log] at he
    exact (hinv.reached e he).imp id (hc.reach _)
  · rw [hc.before] at hl
    exact ⟨hm.elected_mono (hinv.before l hl).1, fun hund => hc.decided hund l hl⟩
  · rw [hc.before]
    exact hm.answer_mono (fun l hl => (hinv.before l hl).1) (hc.answers src st hst)
  · rw [hc.commit, hc.log]
    exact hinv.commit.2.imp id fun ⟨r, hr, hle, hpre⟩ => ⟨r, hm.committed hr, hc.reach _ hle, hpre⟩
  · have hold := hm.acked_old hno hk
    rw [hc.log]
    refine hm.kept_mono h hold hc.reach ?_
    rcases hg with hg | hg
    · exact hinv.acks l g k hold (.inl (hg.trans hc.losses))
    · exact hc.acks hg l g k hold
  · rw [hc.log, hlogs]
    obtain ⟨hel, hl⟩ := hinv.own v (hc.own v hv hcom hnode) hcom hnode
    exact ⟨hm.elected_mono hel, hl⟩

end Carries

/-! ## Elections -/

theorem Node.lt_nextVote (h : x.Reach l) (n : NodeId) : l < (x.nextVote n).leaderId := by
  obtain ⟨v, hv, hle⟩ := h
  refine lt_of_le_of_lt hle ?_
  rw [Node.nextVote, hv, Vote.leaderId, Vote.leaderId, Prod.Lex.toLex_lt_toLex]
  exact .inl (Nat.lt_succ_self _)

theorem Node.bootId_lt_nextVote (x : Node) (n : NodeId) : bootId < (x.nextVote n).leaderId := by
  rw [Node.nextVote, Vote.leaderId, bootId, Prod.Lex.toLex_lt_toLex]
  exact .inl (Nat.succ_pos _)

/-- Nobody was elected with a vote that its node has not had. -/
theorem Inv.not_elected_nextVote (h : Inv c s) (hrun : (s.nodes n).phase = .running) :
    ¬ s.Elected ((s.nodes n).nextVote n).leaderId := by
  rintro ⟨E, hE, hid⟩
  have hself := (h.election E hE).self
  rw [hid] at hself
  rcases (h.election E hE).voted n hself with hr | ⟨hund, -⟩
  · rw [hid] at hr
    exact lt_irrefl _ (Node.lt_nextVote hr n)
  · rw [hrun] at hund
    cases hund

theorem upToDate_refl (log : List Entry) : upToDate log log = true := by
  rw [upToDate]
  split
  · rfl
  next h0 h1 => rw [h0] at h1; cases h1
  next a b ha hb =>
    rw [ha] at hb
    simp [Option.some.inj hb]

/-- The grant of a running node. -/
theorem grant_inv (h : Inv c s) (hm : Moves s s' a new) {p : Nat} {asked : List Entry}
    (hreq : Msg.voteReq w p asked ∈ s'.net) (hrun : (s.nodes a).phase = .running)
    (hup : upToDate (s.nodes a).log asked = true) (hle : ∀ l, (s.nodes a).Reach l → l ≤ w.leaderId)
    (hloss : (s'.nodes a).losses = (s.nodes a).losses) (hreach : (s'.nodes a).Reach w.leaderId)
    (hno : ∀ v q g k, Msg.ack v q g k ∉ new) :
    MsgInv c s' (.grant w p a (s.nodes a).losses asked (s.nodes a).log) := by
  refine ⟨hreq, Nat.le_of_eq hloss.symm, fun _ => hreach, hm.sound_mono (h.node a).sound, hup,
    fun l g k hk hl => .inr ?_⟩
  have hold := hm.acked_old hno hk
  exact hm.kept_mono h hold hle (h.kept_running hrun l g k hold)

/-- A step of one process that keeps its node's log and phase. -/
theorem Advance.of_vote (hproc : x'.proc = x.proc) (hloss : x'.losses = x.losses)
    (hbefore : x'.before = x.before) (hphase : x'.phase = x.phase)
    (hreach : ∀ l, x.Reach l → x'.Reach l) (hcand : ∀ granted, x'.role = .candidate granted →
      ((∃ granted, x.role = .candidate granted) ∧ x'.vote = x.vote ∧ x'.log = x.log) ∨
        ∃ w, x'.vote = some w ∧ ¬ x.Reach w.leaderId) : Advance s x x' :=
  ⟨Nat.le_of_eq hproc.symm, Nat.le_of_eq hloss.symm, fun _ => hloss, fun _ => ⟨hbefore, hreach⟩,
    fun hne => absurd hloss hne, fun hund => .inl (by rwa [hphase]), hcand⟩

theorem Node.reach_of_le (hle : ∀ l, x.Reach l → l ≤ v.leaderId) (hv : x'.vote = some v) :
    ∀ l, x.Reach l → x'.Reach l := fun l hl => ⟨v, hv, hle l hl⟩

theorem Node.reach_all (h : x.vote.all (· ≤ v) = true) : ∀ l, x.Reach l → l ≤ v.leaderId := by
  rintro l ⟨u, hu, hle⟩
  rw [hu, Option.all_some, decide_eq_true_iff] at h
  exact hle.trans (Vote.leaderId_mono h)

/-- A node that votes for a leader at or above its vote, other than its own leadership. -/
theorem Inv.votes (h : Inv c s) (hle : ∀ l, (s.nodes n).Reach l → l ≤ v.leaderId)
    (hown : v.committed = true → v.node ≠ n) {role : Role} :
    Carries c s n { s.nodes n with vote := some v, role } :=
  { h.carries n with
    reach := Node.reach_of_le hle rfl
    decided := fun hund l hl => Node.reach_of_le hle rfl l (((h.node n).before l hl).2 hund)
    own := fun u hu hcom hnode => by
      rw [← Option.some.inj hu] at hcom hnode
      exact absurd hnode (hown hcom) }

theorem Inv.campaign (h : Inv c s) (n : NodeId) : Inv c (s.campaign c n) := by
  unfold State.campaign
  dsimp only
  split
  · exact h
  next hrun hlead =>
    split
    next hn =>
      have hlt (l : LeaderId) (hl : (s.nodes n).Reach l) := le_of_lt (Node.lt_nextVote hl n)
      have hnot : ¬ (s.nodes n).Reach ((s.nodes n).nextVote n).leaderId := fun hr =>
        lt_irrefl _ (Node.lt_nextVote hr n)
      have hno : ∀ v q g k, Msg.ack v q g k ∉
          [Msg.voteReq ((s.nodes n).nextVote n) (s.nodes n).proc (s.nodes n).log] ++
          [Msg.grant ((s.nodes n).nextVote n) (s.nodes n).proc n (s.nodes n).losses
            (s.nodes n).log (s.nodes n).log] := by simp
      refine h.moved rfl (List.append_assoc _ [_] [_]) rfl rfl rfl ?_
        (fun v q g k hk => absurd hk (hno v q g k)) (fun hm => ?_) fun hm hself m hmem => ?_
      · exact .of_vote rfl rfl rfl rfl (Node.reach_of_le hlt rfl) fun _ _ => .inr ⟨_, rfl, hnot⟩
      · refine Carries.nodeInv (h.votes hlt fun hcom => nomatch hcom) h hm rfl hno
          ⟨hrun, _, rfl, rfl, Node.bootId_lt_nextVote _ _, h.not_elected_nextVote hrun,
            ⟨hn, _, List.mem_singleton.2 rfl⟩, List.forall_mem_singleton.2 ?_⟩
        exact ⟨_, _, List.mem_append_right _ (List.mem_singleton.2 rfl)⟩
      · rcases List.mem_append.1 hmem with hmem | hmem
        · rw [List.mem_singleton.1 hmem]
          refine ⟨hm.sound_mono (h.node n).sound, fun e he => ?_, ?_,
            fun _ => ⟨?_, fun _ _ _ => ?_⟩⟩
          · rcases (h.node n).reached e he with hboot | hr
            · rw [hboot]
              exact Node.bootId_lt_nextVote _ _
            · exact Node.lt_nextVote hr n
          · show _ ≤ (State.nodes _ n).proc
            rw [hself]
          · show (State.nodes _ n).Reach _
            rw [hself]
            exact ⟨_, rfl, le_refl _⟩
          · show _ = (State.nodes _ n).log
            rw [hself]
        · rw [List.mem_singleton.1 hmem]
          have hreq : _ ∈ s.net ++ [Msg.voteReq ((s.nodes n).nextVote n) (s.nodes n).proc
              (s.nodes n).log] := List.mem_append_right _ (List.mem_singleton.2 rfl)
          refine grant_inv h hm (List.mem_append_left _ hreq) hrun (upToDate_refl _) hlt ?_ ?_ hno
          · rw [hself]
          · rw [hself]
            exact ⟨_, rfl, le_refl _⟩
    · exact h
  · exact h

theorem Inv.vote (h : Inv c s) (n : NodeId) (hreq : Msg.voteReq w proc log ∈ s.net) :
    Inv c (s.vote c n w proc log) := by
  unfold State.vote
  dsimp only
  split
  next hcond =>
    obtain ⟨hn, hne, hphase, hup, hall⟩ := hcond
    have hrun : (s.nodes n).phase = .running := by
      cases hp : (s.nodes n).phase with
      | running => rfl
      | _ => rw [hp] at hphase; cases hphase
    have hle := Node.reach_all hall
    have hno : ∀ v q g k, Msg.ack v q g k ∉
        [Msg.grant w proc n (s.nodes n).losses log (s.nodes n).log] := by simp
    refine h.moved rfl rfl rfl rfl rfl ?_ (fun v q g k hk => absurd hk (hno v q g k))
      (fun hm => ?_) fun hm hself m hmem => ?_
    · exact .of_vote rfl rfl rfl rfl (Node.reach_of_le hle rfl) fun _ hg => nomatch hg
    · exact Carries.nodeInv (h.votes hle fun _ => Ne.symm hne) h hm rfl hno trivial
    rw [List.mem_singleton.1 hmem]
    refine grant_inv h hm (List.mem_append_left _ hreq) hrun hup hle ?_ ?_ hno
    · rw [hself]
    · rw [hself]
      exact ⟨_, rfl, le_refl _⟩
  · exact h

/-- A node that keeps its log takes a role, which it has not stood for since. -/
theorem Inv.set_phase (h : Inv c s) (hc : Carries c s n x') (hproc : (s.nodes n).proc ≤ x'.proc)
    (hcand : ∀ granted, x'.role = .candidate granted →
      (∃ granted, (s.nodes n).role = .candidate granted) ∧ x'.vote = (s.nodes n).vote)
    (hrole : RoleInv c s n x' x'.role) : Inv c (s.set n x') := by
  refine h.set ⟨hproc, Nat.le_of_eq hc.losses.symm, fun _ => hc.losses,
    fun _ => ⟨hc.before, hc.reach⟩, fun hne => absurd hc.losses hne, fun _ => ?_,
    fun g hg => .inl ⟨(hcand g hg).1, (hcand g hg).2, hc.log⟩⟩ fun hm =>
    hc.nodeInv h hm rfl (fun _ _ _ _ hk => nomatch hk) (hc.role h hm rfl hrole)
  cases hund : x'.phase.undecided with
  | true => exact .inl rfl
  | false => exact .inr (hc.decided hund)

/-- Only the role changes. -/
theorem Inv.set_role (h : Inv c s) (n : NodeId) (role : Role)
    (hcand : ∀ granted, role = .candidate granted →
      ∃ granted, (s.nodes n).role = .candidate granted)
    (hrole : RoleInv c s n (s.nodes n) role) : Inv c (s.set n { s.nodes n with role }) :=
  h.set_phase { h.carries n with } (Nat.le_refl _) (fun g hg => ⟨hcand g hg, rfl⟩) (by
    cases role <;> exact hrole)

theorem Inv.count (h : Inv c s) {voter losses : Nat} {asked mine : List Entry}
    (hgrant : Msg.grant w proc voter losses asked mine ∈ s.net) :
    Inv c (s.count w proc voter losses) := by
  unfold State.count
  dsimp only
  split
  next granted hrole =>
    split
    next hcond =>
      obtain ⟨hproc, hvote⟩ := hcond
      have hinv := (h.node w.node).role
      rw [hrole] at hinv
      obtain ⟨hphase, w', hw', hnode, hboot, hnot, ⟨hn, g, hg⟩, hgranted⟩ := hinv
      obtain rfl : w = w' := Option.some.inj (hvote.symm.trans hw')
      refine h.set_role w.node _ (fun _ _ => ⟨granted, hrole⟩) ⟨hphase, w, hvote, rfl, hboot, hnot,
        ⟨hn, g, List.mem_append_left _ hg⟩, List.forall_mem_append.2 ⟨hgranted, ?_⟩⟩
      exact List.forall_mem_singleton.2 ⟨asked, mine, hproc ▸ hgrant⟩
    · exact h
  · exact h

/-! ## Sending -/

/-- Nothing but a message is sent. -/
theorem Inv.send (h : Inv c s) {m : Msg} (hno : ∀ v q g k, Msg.ack v q g k ≠ m)
    (hmsg : Moves s (s.send m) 0 [m] → MsgInv c (s.send m) m) : Inv c (s.send m) := by
  have hno' : ∀ v q g k, Msg.ack v q g k ∉ [m] := fun v q g k hk =>
    hno v q g k (List.mem_singleton.1 hk)
  refine h.moved (Function.update_eq_self 0 s.nodes).symm rfl rfl rfl rfl ?_
    (fun v q g k hk => absurd hk (hno' v q g k)) (fun hm => ?_) fun hm _ m' hmem => ?_
  · exact .of_vote rfl rfl rfl rfl (fun _ hl => hl) fun g hg => .inl ⟨⟨g, hg⟩, rfl, rfl⟩
  · exact (h.carries 0).nodeInv h hm rfl hno' ((h.carries 0).role h hm rfl (h.node 0).role)
  · rw [List.mem_singleton.1 hmem]
    exact hmsg hm

theorem Inv.leads (h : Inv c s) {acked : List (NodeId × Nat)} {drops : List (NodeId × Nat × Nat)}
    (hrole : (s.nodes n).role = .leader acked drops) (hv : (s.nodes n).vote = some v) :
    (s.nodes n).phase = .running ∧ v.committed = true ∧ v.node = n ∧ s.Elected v.leaderId ∧
      (s.nodes n).log = s.logs v.leaderId ∧
      (∀ a ∈ acked, ∃ g, Msg.ack v a.1 g a.2 ∈ s.net) ∧
      ∀ d ∈ drops, DropInv s d.1 d.2.1 v.leaderId d.2.2 := by
  have hinv := (h.node n).role
  rw [hrole] at hinv
  obtain ⟨hphase, v', hv', hcom, hnode, hacked, hdrops⟩ := hinv
  obtain rfl : v = v' := Option.some.inj (hv.symm.trans hv')
  obtain ⟨hel, hlog⟩ := (h.node n).own v hv hcom hnode
  exact ⟨hphase, hcom, hnode, hel, hlog, hacked, hdrops⟩

/-- A reached leader is not above the vote. -/
theorem Node.Reach.le (h : x.Reach l) (hv : x.vote = some v) : l ≤ v.leaderId := by
  obtain ⟨v', hv', hle⟩ := h
  rwa [← Option.some.inj (hv.symm.trans hv')] at hle

variable (h : Inv c s)
include h

theorem Inv.replicate (n : NodeId) (prev last : Nat) : Inv c (s.replicate n prev last) := by
  unfold State.replicate
  dsimp only
  split
  next acked drops v hrole hv =>
    split
    next hcond =>
      obtain ⟨hprev, hlast⟩ := hcond
      obtain ⟨-, -, -, hel, hlog, -⟩ := h.leads hrole hv
      refine h.send (fun _ _ _ _ hk => nomatch hk) fun _ => ⟨hel, ?_, ?_, ?_⟩
      · rw [hlog]
        exact List.take_prefix ..
      · rwa [List.length_take_of_le hlast]
      refine (h.node n).commit.2.imp id fun ⟨r, hr, hreach, hpre⟩ => ⟨r, hr, hreach.le hv, ?_⟩
      rw [List.take_take, Nat.min_comm, ← List.take_take]
      exact (List.take_prefix ..).trans hpre
    · exact h
  · exact h

theorem Inv.acknowledge {q g k : Nat} (hack : Msg.ack v q g k ∈ s.net) :
    Inv c (s.acknowledge v q k) := by
  unfold State.acknowledge
  dsimp only
  split
  next acked drops hrole =>
    split
    next hv =>
      obtain ⟨hphase, hcom, hnode, hel, hlog, hacked, hdrops⟩ := h.leads hrole hv
      refine h.set_role v.node _ (fun _ hx => nomatch hx)
        ⟨hphase, v, hv, hcom, rfl, List.forall_mem_append.2 ⟨hacked, ?_⟩, hdrops⟩
      exact List.forall_mem_singleton.2 ⟨g, hack⟩
    · exact h
  · exact h

/-! ## Losing data and coming back -/

theorem Inv.probe (n src : NodeId) : Inv c (s.probe c n src) := by
  unfold State.probe
  split
  · refine h.send (fun _ _ _ _ hk => nomatch hk) fun hm => ⟨Nat.le_refl _, fun _ => ⟨?_, ?_⟩⟩
    · rw [Node.status]
      split
      · exact .inl rfl
      · exact .inr ⟨_, rfl⟩
    · intro hrej E hE hmem hsrc
      rcases (h.election E hE).voted src hsrc with hr | ⟨hund, -⟩
      · exact hr
      -- an undecided node reports that it is rejoining
      cases hp : (s.nodes src).phase with
      | running => rw [hp] at hund; cases hund
      | _ =>
        rw [Node.status, hp] at hrej
        cases hrej
  · exact h

theorem Inv.confirmDrop (n : NodeId) (j : Nat) : Inv c (s.confirmDrop n j) := by
  unfold State.confirmDrop
  dsimp only
  split
  next acked drops v hrole hv =>
    split
    next r proc index hj =>
      split
      next hlt =>
        obtain ⟨-, -, -, hel, hlog, -, hdrops⟩ := h.leads hrole hv
        have hdrop : DropInv s r proc v.leaderId index := hdrops _ (List.mem_of_getElem? hj)
        refine h.send (fun _ _ _ _ hk => nomatch hk) fun hm => ⟨hm.drop_mono h hel hdrop, ?_⟩
        obtain ⟨hlen, hcommit⟩ := (h.node n).commit
        rcases hcommit with hzero | ⟨⟨l, pre⟩, hr, hreach, hpre⟩
        · rw [hzero] at hlt
          cases hlt
        obtain ⟨e, he, hid⟩ := hdrop.entry
        have hlog' : ((s.nodes n).log.take (s.nodes n).commit)[index]? = some e := by
          rw [List.getElem?_take_of_lt hlt, hlog]
          exact he
        have hmem := get_of_isPrefix hpre hlog'
        -- the entry is the leader's own, so no earlier leader committed it
        have hle : v.leaderId ≤ l := hid ▸ (h.logs l (h.commit _ hr).elected).2 e
          ((h.commit _ hr).log.subset (List.mem_of_getElem? hmem))
        obtain rfl : l = v.leaderId := le_antisymm (hreach.le hv) hle
        exact ⟨pre, hr, (List.getElem?_eq_some_iff.1 hmem).1⟩
      · exact h
    · exact h
  · exact h

/-- A node that is not running neither leads nor stands for election. -/
theorem Inv.follower (hphase : (s.nodes n).phase ≠ .running) : (s.nodes n).role = .follower := by
  have hrole := (h.node n).role
  cases hr : (s.nodes n).role with
  | follower => rfl
  | candidate | leader => rw [hr] at hrole; exact absurd hrole.1 hphase

/-- A node that is not running goes on to another phase. -/
theorem Inv.set_stopped (hphase : (s.nodes n).phase ≠ .running) (hc : Carries c s n x')
    (hproc : x'.proc = (s.nodes n).proc) (hrole : x'.role = (s.nodes n).role) :
    Inv c (s.set n x') := by
  rw [h.follower hphase] at hrole
  refine h.set_phase hc (Nat.le_of_eq hproc.symm) (fun g hg => ?_) (by rw [hrole]; trivial)
  rw [hrole] at hg
  cases hg

theorem Inv.restart (n : NodeId) : Inv c (s.restart n) := by
  unfold State.restart
  dsimp only
  split
  next hrun =>
    refine h.set_phase { h.carries n with } (Nat.le_succ _) (fun g hg => ?_) ?_
    · split at hg <;> cases hg
    split
    next hleads =>
      obtain ⟨v, hv, hcom⟩ := (Option.any_eq_true ..).1 hleads
      rw [decide_eq_true_iff] at hcom
      exact ⟨hrun, v, hv, hcom.1, hcom.2, fun _ hx => (nomatch hx), fun _ hx => nomatch hx⟩
    · trivial
  · exact h.set_phase { h.carries n with
      decided := fun hund => nomatch hund
      answers := AnswerInv.of_empty _
      acks := fun hrun => nomatch hrun } (Nat.le_succ _) (fun g hg => nomatch hg) trivial

theorem Inv.answer {n src : Nat} {st : NodeStatusEx} (hmsg : Msg.status n proc src st ∈ s.net) :
    Inv c (s.answer n proc src st) := by
  have hinsert (answers : Answers) (hans : (s.nodes n).phase.answers = answers)
      (hp : proc = (s.nodes n).proc) (src' : NodeId) (st' : NodeStatusEx)
      (hst : (answers.insert src st)[src']? = some st') :
      AnswerInv c s (s.nodes n).before src' st' := by
    rw [Std.ExtTreeMap.getElem?_insert] at hst
    split at hst
    next heq =>
      rw [Std.LawfulEqOrd.compare_eq_iff_eq] at heq
      rw [← heq, ← Option.some.inj hst]
      exact (h.msg _ hmsg).2 hp
    · exact (h.node n).answers src' st' (hans ▸ hst)
  unfold State.answer
  dsimp only
  split
  next hp =>
    split
    next answers hphase =>
      exact h.set_stopped (by rw [hphase]; exact Phase.noConfusion) { h.carries n with
        decided := fun hund => nomatch hund
        answers := hinsert answers (by rw [hphase]; rfl) hp
        acks := fun hrun => nomatch hrun } rfl rfl
    next logId answers hphase =>
      exact h.set_stopped (by rw [hphase]; exact Phase.noConfusion) { h.carries n with
        decided := fun _ l hl => ((h.node n).before l hl).2 (by rw [hphase]; rfl)
        answers := hinsert answers (by rw [hphase]; rfl) hp
        acks := fun hrun => nomatch hrun } rfl rfl
    · exact h
  · exact h

/-- A vote that is adopted from answers to this process is at least that of every
leader elected before the loss, and the node's own; and it is not its own
leadership. -/
theorem Inv.adopted {vote : Option Vote} {m : MembershipView} {phase : Phase}
    (hdec : startupDecision n (s.nodes n).phase.answers (s.nodes n).vote = .rejoin vote m)
    (hans : phase.answers = ∅) (hrun : phase ≠ .running) :
    Carries c s n { s.nodes n with vote := vote.or (s.nodes n).vote, phase } := by
  obtain ⟨l₀, hs, -, hd⟩ := startupDecision_rejoin hdec
  obtain ⟨-, hvotes, hfloor, hown⟩ := decideMember_rejoin hd
  obtain ⟨⟨src, a, ha, hview⟩, hknown, -⟩ := learnedMembership_spec hs.learned
  have hcovers {v : Vote} (hv : Covers vote v) {l : LeaderId} (hl : l ≤ v.leaderId) :
      Node.Reach { s.nodes n with vote := vote.or (s.nodes n).vote, phase } l := by
    obtain ⟨b, hb, hle⟩ := hv
    exact ⟨b, by rw [hb, Option.some_or], hl.trans (Vote.leaderId_mono hle)⟩
  -- every answer is about the one membership there is
  have hvoters : m.voters = c.ids := by
    rcases ((h.node n).answers src a ha).view with hno | ⟨b, hb⟩
    · rw [← hview, hno] at hknown
      cases hknown
    · rw [← hview, hb]
      exact Finset.union_empty _
  refine { h.carries n with
    reach := fun l ⟨v, hv, hle⟩ => hcovers (hfloor v hv) hle
    decided := fun _ l hl => ?_
    answers := by rw [hans]; exact AnswerInv.of_empty _
    acks := fun h => absurd h hrun
    own := fun v hv hcom hnode => ?_ }
  · obtain ⟨E, hE, hid⟩ := ((h.node n).before l hl).1
    have hquorum := (h.election E hE).voters
    rw [← hvoters] at hquorum
    obtain ⟨q, hq, st, hst⟩ := vouchers_meet hs.enough hquorum.1 hquorum.2
    obtain ⟨hans, -, hrej, -⟩ := mem_vouchers_iff.1 hst
    obtain ⟨v, hv, hle⟩ := ((h.node n).answers q st hans).vote hrej E hE (hid ▸ hl) hq
    exact hcovers (hvotes q st v hst hv) (hid ▸ hle)
  · cases vote with
    | none => exact hv
    | some b => exact absurd ⟨hcom, hnode⟩ (hown v hv)

theorem Inv.decide (n : NodeId) : Inv c (s.decide n) := by
  unfold State.decide
  dsimp only
  split
  next answers hphase =>
    have hstopped : (s.nodes n).phase ≠ .running := by rw [hphase]; exact Phase.noConfusion
    split
    next vote m hdec =>
      have hans : (s.nodes n).phase.answers = answers := by rw [hphase]; rfl
      exact h.set_stopped hstopped (h.adopted (hans ▸ hdec) rfl Phase.noConfusion) rfl rfl
    · exact h.set_stopped hstopped { h.carries n with
        decided := fun hund => nomatch hund
        answers := AnswerInv.of_empty _
        acks := fun hrun => nomatch hrun } rfl rfl
    · exact h
  · exact h

theorem Inv.recheck (n : NodeId) : Inv c (s.recheck n) := by
  unfold State.recheck
  dsimp only
  split
  next logId answers hphase =>
    have hstopped : (s.nodes n).phase ≠ .running := by rw [hphase]; exact Phase.noConfusion
    have hans : (s.nodes n).phase.answers = answers := by rw [hphase]; rfl
    have hagain : Inv c (s.set n { s.nodes n with phase := .discovering answers }) :=
      h.set_stopped hstopped { h.carries n with
        decided := fun hund => nomatch hund
        answers := fun src st hst => (h.node n).answers src st (hans ▸ hst)
        acks := fun hrun => nomatch hrun } rfl rfl
    split
    next vote m hdec =>
      split
      · exact h.set_stopped hstopped (h.adopted (hans ▸ hdec) rfl Phase.noConfusion) rfl rfl
      · exact hagain
    · exact hagain
  · exact h

/-- A node that has applied the `DropNode` of its process has again what it
acknowledged before it lost its data. -/
theorem Inv.kept_rejoined {n index : Nat} {d : LeaderId} (hmsg : Msg.dropped n proc d index ∈ s.net)
    (hproc : proc = (s.nodes n).proc)
    (hlt : index < (s.nodes n).commit) (l : LeaderId) (g k : Nat) (hk : s.Acked l n g k) :
    s.Kept l k (s.nodes n).log (s.nodes n).Reach := by
  obtain ⟨v, k', rfl, hkk, hmem⟩ := hk
  obtain ⟨hel, hlen, hg, hbefore, -⟩ := h.msg _ hmem
  rcases Nat.lt_or_eq_of_le hg with hg | hg
  swap
  · exact (h.node n).acks _ g k ⟨v, k', rfl, hkk, hmem⟩ (.inl hg)
  obtain ⟨E, hE, hid⟩ := hel
  obtain ⟨hdrop, pre, hpre, hi⟩ := h.msg _ hmsg
  have hcom := h.commit _ hpre
  -- what the node has applied is what that leader committed
  have hsame : (s.nodes n).log.take (index + 1) = (s.logs d).take (index + 1) := by
    obtain ⟨hlen', hcommit⟩ := (h.node n).commit
    rcases hcommit with hzero | ⟨r, hr, -, happlied⟩
    · rw [hzero] at hlt
      cases hlt
    have hn : index + 1 ≤ ((s.nodes n).log.take (s.nodes n).commit).length := by
      rwa [List.length_take_of_le hlen']
    have hr' : index + 1 ≤ r.2.length := hn.trans happlied.length_le
    calc (s.nodes n).log.take (index + 1)
        = ((s.nodes n).log.take (s.nodes n).commit).take (index + 1) := by
          rw [List.take_take, Nat.min_eq_left hlt]
      _ = r.2.take (index + 1) := take_of_isPrefix happlied hn
      _ = pre.take (index + 1) := by
          rcases h.committed_agree hr hpre with hle | hle
          · exact take_of_isPrefix hle hr'
          · exact (take_of_isPrefix hle hi).symm
      _ = (s.logs d).take (index + 1) := take_of_isPrefix hcom.log hi
  -- the leader of the `DropNode` is not before `l`
  have hle : v.leaderId ≤ d := by
    obtain ⟨Q, hQ, hcard, hacks⟩ := hcom.acks
    obtain ⟨q, hq, hqE⟩ := majorities_meet ⟨hQ, hcard⟩ (h.election E hE).voters
    obtain ⟨a, hack⟩ := hacks q hq
    rw [← hid]
    exact hdrop.later hproc E hE (hid ▸ hbefore hg) q hqE a _ hack hi
  rcases eq_or_lt_of_le hle with heq | hlt'
  · -- it was the same leader, and the `DropNode` came later
    have hk' : k ≤ index + 1 :=
      (hkk.trans (hdrop.own hproc g k' ⟨v, k', heq, Nat.le_refl _, hmem⟩ hg)).trans (Nat.le_succ _)
    refine .inl (List.IsPrefix.trans ?_ (List.take_prefix (index + 1) _))
    rw [hsame, heq]
    exact List.take_prefix_take_left hk'
  · obtain ⟨D, hD, hDid : D.id = d⟩ := hcom.elected
    obtain ⟨e, he, heid⟩ := hdrop.entry
    by_cases hhas : (s.logs v.leaderId).take k <+: D.log
    · -- that leader was elected with it, so it comes before the `DropNode`
      have hshort : D.log.length ≤ index + 1 := by
        by_contra hlong
        have hin : index < D.log.length := by omega
        have hget := get_of_isPrefix (h.election D hD).log (List.getElem?_eq_getElem hin)
        rw [hDid, he] at hget
        have hbelow := (h.election D hD).below _ (List.getElem_mem hin)
        rw [← Option.some.inj hget, heid, hDid] at hbelow
        exact lt_irrefl _ hbelow
      refine .inl (hhas.trans (List.IsPrefix.trans ?_ (List.take_prefix (index + 1) _)))
      rw [hsame, List.prefix_take_iff, ← hDid]
      exact ⟨(h.election D hD).log, hshort⟩
    · refine .inr ⟨d, hlt', ?_, D, hD, hDid, hhas⟩
      have hget : (s.nodes n).log[index]? = some e := by
        rw [← List.getElem?_take_of_lt (Nat.lt_succ_self index), hsame,
          List.getElem?_take_of_lt (Nat.lt_succ_self index)]
        exact he
      rcases (h.node n).reached e (List.mem_of_getElem? hget) with hboot | hreach
      · rw [heid, ← hDid] at hboot
        exact absurd hboot (ne_of_gt (h.election D hD).boot)
      · rwa [heid] at hreach

theorem Inv.rejoined {n index : Nat} {d : LeaderId} (hmsg : Msg.dropped n proc d index ∈ s.net) :
    Inv c (s.rejoined n proc index) := by
  unfold State.rejoined
  dsimp only
  split
  next hphase =>
    split
    next hcond =>
      obtain ⟨hproc, hlt⟩ := hcond
      exact h.set_stopped (by rw [hphase]; exact Phase.noConfusion) { h.carries n with
        decided := fun _ l hl => ((h.node n).before l hl).2 (by rw [hphase]; rfl)
        answers := AnswerInv.of_empty _
        acks := fun _ => h.kept_rejoined hmsg hproc hlt } rfl rfl
    · exact h
  · exact h

theorem Inv.lose (n : NodeId) : Inv c (s.lose c n) := by
  unfold State.lose
  split
  · refine h.set ?_ fun hm => ?_
    · refine ⟨Nat.le_succ _, Nat.le_succ _, fun hp => ?_, fun hl => ?_,
        fun _ => ⟨rfl, fun l hl => ?_⟩, fun _ => .inl rfl, fun g hg => nomatch hg⟩
      · exact absurd hp (Nat.succ_ne_self _)
      · exact absurd hl (Nat.succ_ne_self _)
      · obtain ⟨E, hE, rfl⟩ := hl
        exact List.mem_map_of_mem hE
    · refine ⟨Sound.nil _, fun e he => (nomatch he), fun l hl => ?_, fun src st hst => ?_,
        ⟨Nat.le_refl _, .inl rfl⟩, fun l g k hk hg => ?_, fun v hv => (nomatch hv), trivial⟩
      · obtain ⟨E, hE, rfl⟩ := List.mem_map.1 hl
        exact ⟨⟨E, hE, rfl⟩, fun hund => nomatch hund⟩
      · simp [Phase.answers] at hst
      -- nothing was acknowledged since
      rcases hg with hg | hg
      · obtain ⟨v, k', -, -, hmem⟩ := hk
        obtain ⟨-, -, hle, -⟩ := h.msg _ hmem
        rw [hg] at hle
        exact absurd hle (Nat.not_succ_le_self _)
      · cases hg
  · exact h

/-! ## Appends -/

/-- What a node acknowledged and still has to have survives an append of leader `v`, or
that leader lacks it. -/
theorem Inv.kept_accepted {v : LeaderId} {g k : Nat} (hk : s.Acked l n g k)
    (hg : g = (s.nodes n).losses ∨ (s.nodes n).phase = .running) (hv : s.Elected v)
    (hle : ∀ l, (s.nodes n).Reach l → l ≤ v)
    (hkeep : ∀ p, p <+: (s.nodes n).log → p <+: s.logs v → p <+: log) {p : LeaderId → Prop}
    (hp : ∀ w, (s.nodes n).Reach w → p w) (hpv : p v) : s.Kept l k log p := by
  have hreach : (s.nodes n).Reach l := by
    obtain ⟨u, k', rfl, -, hmem⟩ := hk
    obtain ⟨-, -, hle', hbefore, hreach⟩ := h.msg _ hmem
    rcases Nat.lt_or_eq_of_le hle' with hlt | heq
    · refine ((h.node n).before _ (hbefore hlt)).2 ?_
      rw [hg.resolve_left (Nat.ne_of_lt hlt)]
      rfl
    · exact hreach heq
  rcases (h.node n).acks l g k hk hg with hpre | ⟨w, hlw, hw, hlacks⟩
  · obtain ⟨E, hE, hid⟩ := hv
    rcases eq_or_lt_of_le (hle l hreach) with heq | hlt
    · exact .inl (hkeep _ hpre (by rw [heq]; exact List.take_prefix ..))
    by_cases hhas : (s.logs l).take k <+: E.log
    · exact .inl (hkeep _ hpre (hhas.trans (hid ▸ (h.election E hE).log)))
    · exact .inr ⟨v, hlt, hpv, E, hE, hid, hhas⟩
  · exact .inr ⟨w, hlw, hp w hw, hlacks⟩

/-- What a node knows to be committed survives an append. -/
theorem Inv.commit_accepted {v : LeaderId} (hv : s.Elected v)
    (hle : ∀ l, (s.nodes n).Reach l → l ≤ v)
    (hkeep : ∀ p, p <+: (s.nodes n).log → p <+: s.logs v → p <+: log) :
    (s.nodes n).commit ≤ log.length ∧
      log.take (s.nodes n).commit = (s.nodes n).log.take (s.nodes n).commit := by
  obtain ⟨hlen, hcommit⟩ := (h.node n).commit
  rcases hcommit with hzero | ⟨r, hr, hreach, hpre⟩
  · rw [hzero]
    exact ⟨Nat.zero_le _, rfl⟩
  have hp := hkeep _ (List.take_prefix (s.nodes n).commit _)
    (hpre.trans (h.committed_logs hr hv (hle _ hreach)))
  have hl := List.length_take_of_le hlen
  refine ⟨hl ▸ hp.length_le, ?_⟩
  rw [← take_of_isPrefix hp (Nat.le_of_eq hl.symm), List.take_take, Nat.min_self]

/-- A node that accepted an append of leader `v`. -/
theorem NodeInv.accepted (hm : Moves s s' n new) (hlogs : s'.logs = s.logs)
    (hel : s.Elected v.leaderId) (hne : n ≠ v.node)
    (hle : ∀ l, (s.nodes n).Reach l → l ≤ v.leaderId) (hphase : (s.nodes n).phase.started = true)
    (hp' : x'.phase = (s.nodes n).phase) (hvote : x'.vote = some v) (hrole : x'.role = .follower)
    (hloss : x'.losses = (s.nodes n).losses) (hbefore : x'.before = (s.nodes n).before)
    (hkeep : ∀ p, p <+: (s.nodes n).log → p <+: s.logs v.leaderId → p <+: x'.log)
    (hlog : x'.log <+: (s.nodes n).log ∨ x'.log <+: s.logs v.leaderId)
    (hcommit : x'.commit ≤ x'.log.length ∧
      (x'.commit = 0 ∨ ∃ r ∈ s'.committed, x'.Reach r.1 ∧ x'.log.take x'.commit <+: r.2))
    (hacks : ∀ u q g k, Msg.ack u q g k ∈ new →
      u.leaderId = v.leaderId ∧ (s.logs v.leaderId).take k <+: x'.log) : NodeInv c s' n x' := by
  have hinv := h.node n
  have hreach : ∀ l, (s.nodes n).Reach l → x'.Reach l := Node.reach_of_le hle hvote
  have hund : (s.nodes n).phase.undecided = false ∧ (s.nodes n).phase.answers = ∅ := by
    cases hp : (s.nodes n).phase with
    | running | catchingUp => exact ⟨rfl, rfl⟩
    | _ => rw [hp] at hphase; cases hphase
  refine ⟨?_, fun e he => ?_, fun l hl => ?_, fun src st hst => ?_, hcommit, fun l g k hk hg => ?_,
    fun u hu _ hnode => ?_, by rw [hrole]; trivial⟩
  · rcases hlog with hlog | hlog
    · exact hm.sound_mono (hinv.sound.of_isPrefix hlog)
    · exact hm.sound_mono ((h.logs _ hel).1.of_isPrefix hlog)
  · rcases hlog with hlog | hlog
    · exact (hinv.reached e (hlog.subset he)).imp id (hreach _)
    · exact .inr ⟨v, hvote, (h.logs _ hel).2 e (hlog.subset he)⟩
  · rw [hbefore] at hl
    exact ⟨hm.elected_mono (hinv.before l hl).1, fun _ => hreach l ((hinv.before l hl).2 hund.1)⟩
  · rw [hp', hund.2] at hst
    simp at hst
  · rw [hloss, hp'] at hg
    obtain ⟨u, k', rfl, hkk, hmem⟩ := hk
    rw [hm.net] at hmem
    rcases List.mem_append.1 hmem with hmem | hmem
    · have hold : s.Acked u.leaderId n g k := ⟨u, k', rfl, hkk, hmem⟩
      exact hm.kept_mono h hold (fun _ hw => hw)
        (h.kept_accepted hold hg hel hle hkeep hreach ⟨v, hvote, le_refl _⟩)
    obtain ⟨hid, hpre⟩ := hacks u n g k' hmem
    rw [hid]
    refine .inl (List.IsPrefix.trans ?_ hpre)
    rw [hlogs]
    exact List.take_prefix_take_left hkk
  · rw [hvote] at hu
    rw [← Option.some.inj hu] at hnode
    exact absurd hnode.symm hne

theorem Inv.accept (n : NodeId) {prev : Nat} {sent : List Entry} {commit : Nat}
    (hmsg : Msg.append v prev sent commit ∈ s.net) : Inv c (s.accept c n v prev sent commit) := by
  obtain ⟨hel, hsent, hprev, hcommit⟩ := h.msg _ hmsg
  unfold State.accept
  dsimp only
  split
  next hcond =>
    obtain ⟨-, hne, hphase, hall⟩ := hcond
    have hle := Node.reach_all hall
    have hsound := (h.node n).sound
    have hsound' := (h.logs _ hel).1.of_isPrefix hsent
    have hund : (s.nodes n).phase.undecided = false := by
      cases hp : (s.nodes n).phase with
      | discovering => rw [hp] at hphase; cases hphase
      | _ => rfl
    split
    next hmatch =>
      have hkeep : ∀ p, p <+: (s.nodes n).log → p <+: s.logs v.leaderId →
          p <+: merged (s.nodes n).log prev sent := fun p hp hp' =>
        keep_merged hsound hsound' hmatch hsent hp hp'
      have hhas : sent <+: merged (s.nodes n).log prev sent := by
        rcases merged_cases hsound hsound' hmatch with ⟨hpre, heq⟩ | ⟨-, heq⟩
        · rwa [heq]
        · rw [heq]
      obtain ⟨hlen, htake⟩ := h.commit_accepted hel hle hkeep
      refine h.moved rfl rfl rfl rfl rfl ?_ (fun u q g k hk => ?_) (fun hm => ?_)
        fun hm hself m hmem => ?_
      · exact .of_vote rfl rfl rfl rfl (Node.reach_of_le hle rfl) fun _ hg => nomatch hg
      · cases List.mem_singleton.1 hk
        exact ⟨rfl, rfl, hund, hle⟩
      · refine NodeInv.accepted h hm rfl hel hne hle hphase rfl rfl rfl rfl rfl hkeep ?_
          ⟨Nat.max_le.2 ⟨hlen, (Nat.min_le_right ..).trans hhas.length_le⟩, ?_⟩ fun u q g k hk => ?_
        · rcases merged_cases hsound hsound' hmatch with ⟨-, heq⟩ | ⟨-, heq⟩
          · exact .inl (by rw [heq])
          · exact .inr (by rw [heq]; exact hsent)
        · rcases Nat.le_total (min commit sent.length) (s.nodes n).commit with hmax | hmax
          · -- nothing new is committed
            rw [Nat.max_eq_left hmax]
            refine (h.node n).commit.2.imp id fun ⟨r, hr, hreach, hpre⟩ => ⟨r, hr, ?_, ?_⟩
            · exact Node.reach_of_le hle rfl _ hreach
            · exact htake ▸ hpre
          · rw [Nat.max_eq_right hmax]
            rcases hcommit with hzero | ⟨r, hr, hrv, hpre⟩
            · exact .inl (by rw [hzero, Nat.zero_min])
            refine .inr ⟨r, hr, ⟨v, rfl, hrv⟩, ?_⟩
            rw [← take_of_isPrefix hhas (Nat.min_le_right ..), ← List.take_take, List.take_length]
            exact hpre
        · cases List.mem_singleton.1 hk
          refine ⟨rfl, ?_⟩
          rw [← List.prefix_iff_eq_take.1 hsent]
          exact hhas
      · rw [List.mem_singleton.1 hmem]
        refine ⟨hel, hsent.length_le, ?_, fun hlt => ?_, fun _ => ?_⟩
        · rw [hself]
        · rw [hself] at hlt
          exact absurd hlt (lt_irrefl _)
        · rw [hself]
          exact ⟨v, rfl, le_refl _⟩
    next hmatch =>
      have hkeep : ∀ p, p <+: (s.nodes n).log → p <+: s.logs v.leaderId →
          p <+: (s.nodes n).log.take (prev - 1) := fun p hp hp' =>
        keep_cut hprev (Bool.eq_false_iff.2 hmatch) hsent hp hp'
      obtain ⟨hlen, htake⟩ := h.commit_accepted hel hle hkeep
      refine h.set ?_ fun hm => ?_
      · exact .of_vote rfl rfl rfl rfl (Node.reach_of_le hle rfl) fun _ hg => nomatch hg
      refine NodeInv.accepted h hm rfl hel hne hle hphase rfl rfl rfl rfl rfl hkeep
        (.inl (List.take_prefix ..)) ⟨hlen, ?_⟩ fun _ _ _ _ hk => nomatch hk
      refine (h.node n).commit.2.imp id fun ⟨r, hr, hreach, hpre⟩ => ⟨r, hr, ?_, ?_⟩
      · exact Node.reach_of_le hle rfl _ hreach
      · exact htake ▸ hpre
  · exact h

/-! ## The leader's log -/

theorem Inv.commits (n : NodeId) (k : Nat) : Inv c (s.commit c n k) := by
  unfold State.commit
  dsimp only
  split
  next acked drops v hrole hv =>
    split
    next hcond =>
      obtain ⟨hlt, hentry, hmaj⟩ := hcond
      obtain ⟨hphase, hcom, hnode, hel, hlog, hacked, hdrops⟩ := h.leads hrole hv
      obtain ⟨e, he, hid⟩ := (Option.any_eq_true ..).1 hentry
      rw [decide_eq_true_iff] at hid
      have hk : k - 1 < (s.nodes n).log.length := (List.getElem?_eq_some_iff.1 he).1
      have hlen : k ≤ (s.nodes n).log.length := by omega
      have hm : Moves s { s.set n { s.nodes n with commit := k } with
          committed := s.committed ++ [(v.leaderId, (s.nodes n).log.take k)] } n [] := by
        refine ⟨(List.append_nil _).symm, fun m hm => Function.update_of_ne hm _ _, ?_,
          List.Subset.refl _, fun r hr => List.mem_append_left _ hr, rfl,
            fun _ _ => List.prefix_rfl,
          fun _ _ => rfl, h.distinct, fun l hl => .inl hl, fun _ _ _ _ hx => nomatch hx⟩
        show Advance s _ (Function.update s.nodes n _ n)
        rw [Function.update_self]
        exact .of_vote rfl rfl rfl rfl (fun _ hl => hl) fun g hg => .inl ⟨⟨g, hg⟩, rfl, rfl⟩
      refine hm.inv h ?_ (fun _ hx => nomatch hx) (fun l hl _ => ?_)
        (fun E hE hnot => absurd hE hnot) fun r hr hnot => ?_
      · show NodeInv c _ n (Function.update s.nodes n _ n)
        rw [Function.update_self]
        have hc := (h.carries n).nodeInv h hm rfl (fun _ _ _ _ hx => nomatch hx)
          ((h.carries n).role h hm rfl (h.node n).role)
        refine { hc with
          commit := ⟨hlen, .inr ⟨_, List.mem_append_right _ (List.mem_singleton.2 rfl),
            ⟨v, hv, le_refl _⟩, List.prefix_rfl⟩⟩
          role := ?_ }
        show RoleInv c _ n _ (s.nodes n).role
        have hr := hc.role
        exact hr
      · exact ⟨hm.sound_mono (h.logs l hl).1, (h.logs l hl).2⟩
      · rcases List.mem_append.1 hr with hr | hr
        · exact absurd hr hnot
        rw [List.mem_singleton.1 hr]
        refine ⟨hel, by rw [hlog]; exact List.take_prefix .., ⟨e, ?_, hid⟩, ?_⟩
        · rw [List.getLast?_eq_getElem?, List.length_take_of_le hlen,
            List.getElem?_take_of_lt (by omega)]
          exact he
        refine ⟨_, Finset.filter_subset .., of_decide_eq_true hmaj, fun q hq => ?_⟩
        obtain ⟨x, hx, hxq⟩ := List.any_eq_true.1 (Finset.mem_filter.1 hq).2
        rw [decide_eq_true_iff] at hxq
        obtain ⟨g, hg⟩ := hacked x hx
        rw [hxq.1] at hg
        exact ⟨g, v, x.2, rfl, by rw [List.length_take_of_le hlen]; exact hxq.2, hg⟩
    · exact h
  · exact h

end Beanstalkd.Raft.Protocol
