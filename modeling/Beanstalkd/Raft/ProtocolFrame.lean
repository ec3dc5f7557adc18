import Beanstalkd.Raft.ProtocolInv

/-!
# What a step leaves as it is

Every step changes one node and adds messages, entries of its own leadership and
elections to what was there (`Moves`). What the invariant says of the other
nodes, of the messages already sent and of the earlier elections and commits then
still holds; what remains for each step is what it says of the node that moved
and of what it added (`Moves.inv`).
-/

namespace Beanstalkd.Raft.Protocol

/-- How one node may change. -/
structure Advance (s : State) (x x' : Node) : Prop where
  proc : x.proc ≤ x'.proc
  losses : x.losses ≤ x'.losses
  sameProc : x'.proc = x.proc → x'.losses = x.losses
  sameLosses : x'.losses = x.losses → x'.before = x.before ∧ ∀ l, x.Reach l → x'.Reach l
  lost : x'.losses ≠ x.losses →
    x'.phase.undecided = true ∧ ∀ l, s.Elected l → l ∈ x'.before
  /-- A vote was adopted against all earlier elections. -/
  decided : x.phase.undecided = true →
    x'.phase.undecided = true ∨ ∀ l ∈ x.before, x'.Reach l
  candidate : ∀ granted, x'.role = .candidate granted →
    ((∃ granted, x.role = .candidate granted) ∧ x'.vote = x.vote ∧ x'.log = x.log) ∨
      ∃ w, x'.vote = some w ∧ ¬ x.Reach w.leaderId

/-- Node `a` moves and the messages `new` are sent. -/
structure Moves (s s' : State) (a : NodeId) (new : List Msg) : Prop where
  net : s'.net = s.net ++ new
  others : ∀ n, n ≠ a → s'.nodes n = s.nodes n
  node : Advance s (s.nodes a) (s'.nodes a)
  elected : s.elected ⊆ s'.elected
  committed : s.committed ⊆ s'.committed
  boot : s'.logs bootId = s.logs bootId
  logs : ∀ l, s.Elected l → s.logs l <+: s'.logs l
  logsOwn : ∀ l, (ofLex l).2 ≠ a → s'.logs l = s.logs l
  distinct : s'.elected.Pairwise (·.id ≠ ·.id)
  fresh : ∀ l, s'.Elected l → s.Elected l ∨ (ofLex l).2 = a
  /-- Acknowledgements are the node's own, to a leader at or above its vote. -/
  acks : ∀ v q g k, Msg.ack v q g k ∈ new → q = a ∧ g = (s.nodes a).losses ∧
    (s.nodes a).phase.undecided = false ∧ ∀ l, (s.nodes a).Reach l → l ≤ v.leaderId

namespace Moves

variable {c : Voters} {s s' : State} {a : NodeId} {new : List Msg} {l : LeaderId} {E : Election}
  {log : List Entry}

variable (hm : Moves s s' a new)
include hm

theorem mem_net {m : Msg} (h : m ∈ s.net) : m ∈ s'.net := by
  rw [hm.net]
  exact List.mem_append_left _ h

theorem elected_mono (h : s.Elected l) : s'.Elected l := by
  obtain ⟨E, hE, rfl⟩ := h
  exact ⟨E, hm.elected hE, rfl⟩

theorem id_unique {E' : Election} (hE : E ∈ s'.elected) (hE' : E' ∈ s'.elected) (h : E.id = E'.id) :
    E = E' := by
  by_contra hne
  rcases List.pairwise_iff_getElem.1 hm.distinct with hd
  obtain ⟨i, hi, rfl⟩ := List.getElem_of_mem hE
  obtain ⟨j, hj, rfl⟩ := List.getElem_of_mem hE'
  rcases Nat.lt_trichotomy i j with hlt | rfl | hlt
  · exact hd i j hi hj hlt h
  · exact hne rfl
  · exact hd j i hj hi hlt h.symm

/-- An election with the id of an earlier one is that one. -/
theorem old_election_of_id (hE : E ∈ s'.elected) (h : s.Elected E.id) : E ∈ s.elected := by
  obtain ⟨E', hE', hid⟩ := h
  rwa [hm.id_unique hE (hm.elected hE') hid.symm]

theorem advance (n : NodeId) : Advance s (s.nodes n) (s'.nodes n) := by
  by_cases hn : n = a
  · rw [hn]
    exact hm.node
  rw [hm.others n hn]
  exact ⟨Nat.le_refl _, Nat.le_refl _, fun _ => rfl, fun _ => ⟨rfl, fun _ h => h⟩,
    fun h => absurd rfl h, fun h => .inl h, fun g hg => .inl ⟨⟨g, hg⟩, rfl, rfl⟩⟩

theorem sound_mono (h : Sound s log) : Sound s' log := by
  refine ⟨fun i e hi => (h.own i e hi).trans ?_, h.sorted,
    fun e he => (h.known e he).imp id hm.elected_mono⟩
  rcases h.known e (List.mem_of_getElem? hi) with hboot | hel
  · rw [hboot, hm.boot]
  · exact hm.logs _ hel

/-- What was acknowledged is acknowledged, or `a` did it now. -/
theorem acked_cases {q g k : Nat} (h : s'.Acked l q g k) :
    s.Acked l q g k ∨ (q = a ∧ g = (s.nodes a).losses ∧ (s.nodes a).phase.undecided = false ∧
      ∀ l', (s.nodes a).Reach l' → l' ≤ l) := by
  obtain ⟨v, k', rfl, hk, hv⟩ := h
  rw [hm.net] at hv
  rcases List.mem_append.1 hv with hv | hv
  · exact .inl ⟨v, k', rfl, hk, hv⟩
  · exact .inr (hm.acks v q g k' hv)

/-- Nothing is acknowledged now. -/
theorem acked_old (hno : ∀ v q g k, Msg.ack v q g k ∉ new) {q g k : Nat}
    (h : s'.Acked l q g k) : s.Acked l q g k := by
  obtain ⟨v, k', hv, hk, hmem⟩ := h
  rw [hm.net] at hmem
  exact ⟨v, k', hv, hk, (List.mem_append.1 hmem).resolve_right (hno v q g k')⟩

/-- What was acknowledged to a leader stays at its place. -/
theorem take_acked (h : Inv c s) {q g k : Nat} (hk : s.Acked l q g k) :
    s.Elected l ∧ (s'.logs l).take k = (s.logs l).take k := by
  obtain ⟨v, k', rfl, hle, hv⟩ := hk
  obtain ⟨hel, hlen, -⟩ := h.msg _ hv
  refine ⟨hel, ?_⟩
  rw [List.prefix_iff_eq_take.1 (hm.logs _ hel), List.take_take,
    Nat.min_eq_left (hle.trans hlen)]

theorem lacks_mono (h : Inv c s) {w : LeaderId} {q g k : Nat} (hk : s.Acked l q g k)
    (hlacks : s.Lacks w l k) : s'.Lacks w l k := by
  obtain ⟨E, hE, hid, hnot⟩ := hlacks
  exact ⟨E, hm.elected hE, hid, by rwa [(hm.take_acked h hk).2]⟩

theorem kept_mono (h : Inv c s) {q g k : Nat} (hk : s.Acked l q g k) {p p' : LeaderId → Prop}
    (hp : ∀ w, p w → p' w) (hkept : s.Kept l k log p) : s'.Kept l k log p' := by
  rcases hkept with hpre | ⟨w, hlw, hpw, hlacks⟩
  · exact .inl (by rwa [(hm.take_acked h hk).2])
  · exact .inr ⟨w, hlw, hp w hpw, hm.lacks_mono h hk hlacks⟩

/-! ## Elections, drops and answers -/

theorem election_mono (h : Inv c s) (hE : E ∈ s.elected) : ElectionInv c s' E := by
  have hinv := h.election E hE
  refine ⟨hinv.log.trans (hm.logs _ ⟨E, hE, rfl⟩), hinv.below, hinv.boot, hinv.voters, hinv.self,
    fun q hq => ?_, fun q hq l g k hk hl hown => ?_⟩
  · have hadv := hm.advance q
    by_cases hloss : (s'.nodes q).losses = (s.nodes q).losses
    · obtain ⟨hbefore, hreach⟩ := hadv.sameLosses hloss
      rcases hinv.voted q hq with hr | ⟨hund, hmem⟩
      · exact .inl (hreach _ hr)
      rcases hadv.decided hund with hund' | hall
      · exact .inr ⟨hund', by rwa [hbefore]⟩
      · exact .inl (hall _ hmem)
    · obtain ⟨hund, hall⟩ := hadv.lost hloss
      exact .inr ⟨hund, hall _ ⟨E, hE, rfl⟩⟩
  · rcases hm.acked_cases hk with hk | ⟨rfl, -, hdec, hle⟩
    · rw [(hm.take_acked h hk).2] at hown
      exact hm.kept_mono h hk (fun _ hw => hw) (hinv.acks q hq l g k hk hl hown)
    -- a voter's vote is at least the leader's, so it acknowledges to no earlier one
    rcases hinv.voted q hq with hr | ⟨hund, -⟩
    · exact absurd (hle _ hr) (not_le_of_gt hl)
    · rw [hdec] at hund
      cases hund

theorem drop_mono (h : Inv c s) {r p : Nat} {i : Nat} (hl : s.Elected l) (hd : DropInv s r p l i) :
    DropInv s' r p l i := by
  have hadv := hm.advance r
  have hsame : p = (s'.nodes r).proc → p = (s.nodes r).proc ∧
      (s'.nodes r).losses = (s.nodes r).losses ∧ (s'.nodes r).before = (s.nodes r).before := by
    intro hp
    have hle := hadv.proc
    have hproc : (s'.nodes r).proc = (s.nodes r).proc := le_antisymm (hp ▸ hd.proc) hle
    have hloss := hadv.sameProc hproc
    exact ⟨hp.trans hproc, hloss, (hadv.sameLosses hloss).1⟩
  refine ⟨?_, hd.proc.trans hadv.proc, fun hp E hE hmem q hq g k hk hik => ?_,
    fun hp g k hk hg => ?_⟩
  · obtain ⟨e, he, hid⟩ := hd.entry
    exact ⟨e, get_of_isPrefix (hm.logs _ hl) he, hid⟩
  · obtain ⟨hp, -, hbefore⟩ := hsame hp
    rw [hbefore] at hmem
    have hE' := hm.old_election_of_id hE ((h.node r).before _ hmem).1
    rcases hm.acked_cases hk with hk | ⟨rfl, -, hdec, hle⟩
    · exact hd.later hp E hE' hmem q hq g k hk hik
    rcases (h.election E hE').voted q hq with hr | ⟨hund, -⟩
    · exact hle _ hr
    · rw [hdec] at hund
      cases hund
  · obtain ⟨hp, hloss, -⟩ := hsame hp
    rw [hloss] at hg
    rcases hm.acked_cases hk with hk | ⟨rfl, rfl, -, -⟩
    · exact hd.own hp g k hk hg
    · exact absurd hg (lt_irrefl _)

theorem answer_mono {before : List LeaderId} {src : NodeId} {st : NodeStatusEx}
    (hel : ∀ l ∈ before, s.Elected l) (ha : AnswerInv c s before src st) :
    AnswerInv c s' before src st :=
  ⟨ha.view, fun hrej E hE hmem =>
    ha.vote hrej E (hm.old_election_of_id hE (hel _ hmem)) hmem⟩

/-! ## Messages, nodes and commits -/

/-- The same process has the same losses, elections before them and votes. -/
theorem same_proc {n p : Nat} (hp : p ≤ (s.nodes n).proc) (hp' : p = (s'.nodes n).proc) :
    p = (s.nodes n).proc ∧ (s'.nodes n).losses = (s.nodes n).losses := by
  have hproc : (s'.nodes n).proc = (s.nodes n).proc := le_antisymm (hp' ▸ hp) (hm.advance n).proc
  exact ⟨hp'.trans hproc, (hm.advance n).sameProc hproc⟩

theorem msg_mono (h : Inv c s) {m : Msg} (hmem : m ∈ s.net) : MsgInv c s' m := by
  have hinv := h.msg m hmem
  cases m with
  | voteReq w p log =>
    obtain ⟨hsound, hbelow, hp, hcand⟩ := hinv
    have hadv := hm.advance w.node
    refine ⟨hm.sound_mono hsound, hbelow, hp.trans hadv.proc, fun hp' => ?_⟩
    obtain ⟨hp, hloss⟩ := hm.same_proc hp hp'
    obtain ⟨hreach, hlog⟩ := hcand hp
    refine ⟨(hadv.sameLosses hloss).2 _ hreach, fun granted hrole hvote => ?_⟩
    rcases hadv.candidate granted hrole with ⟨⟨granted', hrole'⟩, hv, hl⟩ | ⟨w', hv, hnew⟩
    · rw [hl]
      exact hlog granted' hrole' (hv ▸ hvote)
    rw [hvote] at hv
    cases hv
    exact absurd hreach hnew
  | grant w p q g asked mine =>
    obtain ⟨hreq, hg, hreach, hsound, hup, hacks⟩ := hinv
    have hadv := hm.advance q
    refine ⟨hm.mem_net hreq, hg.trans hadv.losses, fun hg' => ?_, hm.sound_mono hsound, hup,
      fun l g' k hk hl => ?_⟩
    · have hloss : (s'.nodes q).losses = (s.nodes q).losses := le_antisymm (hg' ▸ hg) hadv.losses
      exact (hadv.sameLosses hloss).2 _ (hreach (hg'.trans hloss))
    rcases hm.acked_cases hk with hk | ⟨rfl, rfl, -, hle⟩
    · exact (hacks l g' k hk hl).imp id (hm.kept_mono h hk fun _ hw => hw)
    -- with its data, the voter acknowledges to no leader below its vote
    rcases lt_or_eq_of_le hg with hlt | heq
    · exact .inl hlt
    · exact absurd (hle _ (hreach heq)) (not_le_of_gt hl)
  | append v prev log commit =>
    obtain ⟨hel, hlog, hprev, hcommit⟩ := hinv
    refine ⟨hm.elected_mono hel, hlog.trans (hm.logs _ hel), hprev, hcommit.imp id ?_⟩
    exact fun ⟨r, hr, hle, hpre⟩ => ⟨r, hm.committed hr, hle, hpre⟩
  | ack v q g k =>
    obtain ⟨hel, hlen, hg, hbefore, hreach⟩ := hinv
    have hadv := hm.advance q
    refine ⟨hm.elected_mono hel, hlen.trans (hm.logs _ hel).length_le, hg.trans hadv.losses,
      fun hlt => ?_, fun heq => ?_⟩
    · by_cases hloss : (s'.nodes q).losses = (s.nodes q).losses
      · rw [(hadv.sameLosses hloss).1]
        exact hbefore (hloss ▸ hlt)
      · exact (hadv.lost hloss).2 _ hel
    · have hloss : (s'.nodes q).losses = (s.nodes q).losses := le_antisymm (heq ▸ hg) hadv.losses
      exact (hadv.sameLosses hloss).2 _ (hreach (heq.trans hloss))
  | status r p src st =>
    obtain ⟨hp, hans⟩ := hinv
    refine ⟨hp.trans (hm.advance r).proc, fun hp' => ?_⟩
    obtain ⟨hp, hloss⟩ := hm.same_proc hp hp'
    rw [((hm.advance r).sameLosses hloss).1]
    exact hm.answer_mono (fun l hl => ((h.node r).before l hl).1) (hans hp)
  | dropped r p l i =>
    obtain ⟨hdrop, pre, hpre, hi⟩ := hinv
    exact ⟨hm.drop_mono h (h.commit _ hpre).elected hdrop, pre, hm.committed hpre, hi⟩

/-- What a node knows in its role stays true. -/
theorem role_mono (h : Inv c s) {n : NodeId} {x : Node} {role : Role}
    (hnew : ∀ l, s'.Elected l → (ofLex l).2 = n → s.Elected l)
    (hown : ∀ v, x.vote = some v → v.committed = true → v.node = n → s.Elected v.leaderId)
    (hrole : RoleInv c s n x role) : RoleInv c s' n x role := by
  cases role with
  | follower => trivial
  | candidate granted =>
    obtain ⟨hphase, w, hw, hnode, hboot, hnot, hself, hgranted⟩ := hrole
    refine ⟨hphase, w, hw, hnode, hboot, fun hel => hnot (hnew _ hel hnode), hself, fun g hg => ?_⟩
    obtain ⟨asked, mine, hmem⟩ := hgranted g hg
    exact ⟨asked, mine, hm.mem_net hmem⟩
  | leader acked drops =>
    obtain ⟨hphase, v, hv, hcom, hnode, hacked, hdrops⟩ := hrole
    exact ⟨hphase, v, hv, hcom, hnode, fun x hx => (hacked x hx).imp fun _ => hm.mem_net,
      fun d hd => hm.drop_mono h (hown v hv hcom hnode) (hdrops d hd)⟩

/-- A node that does not move. -/
theorem node_mono (h : Inv c s) {n : NodeId} (hn : n ≠ a) : NodeInv c s' n (s'.nodes n) := by
  rw [hm.others n hn]
  have hinv := h.node n
  refine ⟨hm.sound_mono hinv.sound, hinv.reached,
    fun l hl => ⟨hm.elected_mono (hinv.before l hl).1, (hinv.before l hl).2⟩, fun src st hst => ?_,
    ⟨hinv.commit.1, hinv.commit.2.imp id ?_⟩, fun l g k hk hg => ?_, fun v hv hcom hnode => ?_, ?_⟩
  · exact hm.answer_mono (fun l hl => (hinv.before l hl).1) (hinv.answers src st hst)
  · exact fun ⟨r, hr, hreach, hpre⟩ => ⟨r, hm.committed hr, hreach, hpre⟩
  · rcases hm.acked_cases hk with hk | ⟨rfl, -⟩
    · exact hm.kept_mono h hk (fun _ hw => hw) (hinv.acks l g k hk hg)
    · exact absurd rfl hn
  · obtain ⟨hel, hlog⟩ := hinv.own v hv hcom hnode
    refine ⟨hm.elected_mono hel, hlog.trans (hm.logsOwn _ ?_).symm⟩
    rw [← hnode] at hn
    exact hn
  · exact hm.role_mono h (fun l hl hid => (hm.fresh l hl).resolve_right (hid ▸ hn))
      (fun v hv hcom hnode => (hinv.own v hv hcom hnode).1) hinv.role

theorem commit_mono (h : Inv c s) {r : LeaderId × List Entry} (hr : r ∈ s.committed) :
    CommitInv c s' r := by
  have hinv := h.commit r hr
  refine ⟨hm.elected_mono hinv.elected, hinv.log.trans (hm.logs _ hinv.elected), hinv.last, ?_⟩
  obtain ⟨Q, hQ, hcard, hacks⟩ := hinv.acks
  refine ⟨Q, hQ, hcard, fun q hq => ?_⟩
  obtain ⟨g, v, k, hv, hk, hmem⟩ := hacks q hq
  exact ⟨g, v, k, hv, hk, hm.mem_net hmem⟩

/-- What remains to be shown of a step. -/
theorem inv (h : Inv c s) (hnode : NodeInv c s' a (s'.nodes a)) (hnew : ∀ m ∈ new, MsgInv c s' m)
    (hlogs : ∀ l, s'.Elected l → (ofLex l).2 = a →
      Sound s' (s'.logs l) ∧ ∀ e ∈ s'.logs l, e.leader ≤ l)
    (helection : ∀ E ∈ s'.elected, E ∉ s.elected → ElectionInv c s' E)
    (hcommit : ∀ r ∈ s'.committed, r ∉ s.committed → CommitInv c s' r) : Inv c s' where
  distinct := hm.distinct
  boot := hm.boot.trans h.boot
  logs l hl := by
    by_cases hid : (ofLex l).2 = a
    · exact hlogs l hl hid
    have hold := (hm.fresh l hl).resolve_right hid
    rw [hm.logsOwn l hid]
    exact ⟨hm.sound_mono (h.logs l hold).1, (h.logs l hold).2⟩
  node n := by
    by_cases hn : n = a
    · rw [hn]
      exact hnode
    · exact hm.node_mono h hn
  msg m hmem := by
    rw [hm.net] at hmem
    rcases List.mem_append.1 hmem with hmem | hmem
    · exact hm.msg_mono h hmem
    · exact hnew m hmem
  election E hE := by
    by_cases hold : E ∈ s.elected
    · exact hm.election_mono h hold
    · exact helection E hE hold
  commit r hr := by
    by_cases hold : r ∈ s.committed
    · exact hm.commit_mono h hold
    · exact hcommit r hr hold

end Moves

end Beanstalkd.Raft.Protocol
