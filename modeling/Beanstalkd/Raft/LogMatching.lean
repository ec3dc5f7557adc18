import Beanstalkd.Raft.Protocol

/-!
# Logs that are made of leaders' logs

Every log in the cluster is a prefix of the log of the leader of its last entry
(`Sound`). So two logs with entries of one leader at one index agree up to there
(`Sound.agree`), an append leaves a log that is the node's own or the one that
was sent (`merged_cases`), and of two logs the one that is up to date holds the
other, or ends with an entry of a later leader (`upToDate_cases`).
-/

namespace Beanstalkd.Raft

namespace Vote

theorem leaderId_mono {v w : Vote} (h : v ≤ w) : v.leaderId ≤ w.leaderId := by
  have hk : v.key ≤ w.key := h
  rw [Vote.key, Vote.key, Prod.Lex.toLex_le_toLex] at hk
  rw [Vote.leaderId, Vote.leaderId, Prod.Lex.toLex_le_toLex]
  rcases hk with hk | ⟨hterm, hk⟩
  · exact .inl hk
  rw [Prod.Lex.toLex_le_toLex] at hk
  refine .inr ⟨hterm, ?_⟩
  rcases hk with hk | ⟨hnode, -⟩
  · exact le_of_lt hk
  · exact le_of_eq hnode

end Vote

namespace Protocol

namespace State

def Elected (s : State) (l : LeaderId) : Prop := ∃ E ∈ s.elected, E.id = l

end State

theorem get_of_isPrefix {a b : List Entry} (h : a <+: b) {i : Nat} {e : Entry}
    (he : a[i]? = some e) : b[i]? = some e := by
  obtain ⟨t, rfl⟩ := h
  rw [List.getElem?_append_left (List.getElem?_eq_some_iff.1 he).1]
  exact he

theorem take_of_isPrefix {a b : List Entry} (h : a <+: b) {k : Nat} (hk : k ≤ a.length) :
    a.take k = b.take k := by
  obtain ⟨t, rfl⟩ := h
  rw [List.take_append_of_le_length hk]

/-- A log that agrees with the log of every leader it has an entry of. -/
structure Sound (s : State) (log : List Entry) : Prop where
  own : ∀ i e, log[i]? = some e → log.take (i + 1) <+: s.logs e.leader
  sorted : (log.map Entry.leader).Pairwise (· ≤ ·)
  known : ∀ e ∈ log, e.leader = bootId ∨ s.Elected e.leader

namespace Sound

variable {s : State} {a b log : List Entry} {e : Entry}

theorem nil (s : State) : Sound s [] :=
  ⟨fun i e h => by simp at h, .nil, fun e h => nomatch h⟩

theorem of_isPrefix (h : Sound s b) (hab : a <+: b) : Sound s a := by
  refine ⟨fun i e hi => ?_, h.sorted.sublist (hab.sublist.map _),
    fun e he => h.known e (hab.subset he)⟩
  have hlt : i < a.length := (List.getElem?_eq_some_iff.1 hi).1
  rw [take_of_isPrefix hab hlt]
  exact h.own i e (get_of_isPrefix hab hi)

/-- A sound log is a prefix of the log of its last leader. -/
theorem last (h : Sound s log) (he : log.getLast? = some e) : log <+: s.logs e.leader := by
  have hne : log ≠ [] := fun h0 => by rw [h0] at he; cases he
  have hi : log[log.length - 1]? = some e := by rw [← List.getLast?_eq_getElem?]; exact he
  have hlen : 0 < log.length := List.length_pos_iff.2 hne
  have hown := h.own _ e hi
  rwa [Nat.sub_add_cancel hlen, List.take_length] at hown

/-- No entry is of a later leader than the last one. -/
theorem le_last (h : Sound s log) {d : Entry} (he : log.getLast? = some e) (hd : d ∈ log) :
    d.leader ≤ e.leader := by
  obtain ⟨front, rfl⟩ := List.getLast?_eq_some_iff.1 he
  have hs := h.sorted
  rw [List.map_append, List.pairwise_append] at hs
  rcases List.mem_append.1 hd with hd | hd
  · exact hs.2.2 _ (List.mem_map_of_mem hd) _ (List.mem_singleton.2 rfl)
  · rw [List.mem_singleton.1 hd]

/-- **Log matching.** -/
theorem agree (ha : Sound s a) (hb : Sound s b) {i : Nat} {d : Entry} (hd : a[i]? = some d)
    (he : b[i]? = some e) (hde : d.leader = e.leader) : a.take (i + 1) = b.take (i + 1) := by
  have hpa := ha.own i d hd
  have hpb := hb.own i e he
  rw [← hde] at hpb
  have hla : (a.take (i + 1)).length = i + 1 :=
    List.length_take_of_le (List.getElem?_eq_some_iff.1 hd).1
  have hlb : (b.take (i + 1)).length = i + 1 :=
    List.length_take_of_le (List.getElem?_eq_some_iff.1 he).1
  exact (List.prefix_of_prefix_length_le hpa hpb (by rw [hla, hlb])).eq_of_length (by rw [hla, hlb])

theorem agree_entry (ha : Sound s a) (hb : Sound s b) {i : Nat} {d : Entry} (hd : a[i]? = some d)
    (he : b[i]? = some e) (hde : d.leader = e.leader) : d = e := by
  have h := congrArg (·[i]?) (ha.agree hb hd he hde)
  simp only [List.getElem?_take, Nat.lt_succ_self, if_true] at h
  rw [hd, he] at h
  exact Option.some.inj h

/-- The logs agree before `prev` if the append matches there. -/
theorem take_of_matchesAt (ha : Sound s a) (hb : Sound s b) {prev : Nat}
    (h : matchesAt a prev b = true) : a.take prev = b.take prev := by
  rw [matchesAt, Bool.or_eq_true, decide_eq_true_iff, Bool.and_eq_true, decide_eq_true_iff] at h
  rcases h with rfl | ⟨hsome, heq⟩
  · rw [List.take_zero, List.take_zero]
  cases prev with
  | zero => rw [List.take_zero, List.take_zero]
  | succ i =>
    obtain ⟨d, hd⟩ := Option.isSome_iff_exists.1 hsome
    rw [hd, Option.map_some] at heq
    obtain ⟨e, he, hde⟩ := Option.map_eq_some_iff.1 heq.symm
    exact ha.agree hb hd he hde.symm

end Sound

/-! ## Appending -/

/-- Entries of one leader at one place are the same: then nothing changes because the
node has all of them, or its log becomes the one that was sent. -/
theorem merge_cases {a b : List Entry}
    (h : ∀ (i : Nat) (d e : Entry), a[i]? = some d → b[i]? = some e → d.leader = e.leader → d = e) :
    (b <+: a ∧ merge a b = a) ∨ (¬ b <+: a ∧ merge a b = b) := by
  induction a generalizing b with
  | nil =>
    cases b with
    | nil => exact .inl ⟨List.prefix_rfl, rfl⟩
    | cons e b => exact .inr ⟨by simp, rfl⟩
  | cons d a ih =>
    cases b with
    | nil => exact .inl ⟨List.nil_prefix, rfl⟩
    | cons e b =>
      rw [merge]
      split
      next hde =>
        obtain rfl : d = e := h 0 d e rfl rfl hde
        rcases ih fun i d' e' hd he => h (i + 1) d' e' hd he with ⟨hpre, heq⟩ | ⟨hpre, heq⟩
        · exact .inl ⟨by simpa using hpre, by rw [heq]⟩
        · exact .inr ⟨by simpa using hpre, by rw [heq]⟩
      next hde =>
        refine .inr ⟨fun hpre => hde ?_, rfl⟩
        rw [(List.cons_prefix_cons.1 hpre).1]

variable {s : State} {prev : Nat}

/-- What an append leaves. -/
theorem merged_cases {log sent : List Entry} (ha : Sound s log) (hb : Sound s sent)
    (hm : matchesAt log prev sent = true) :
    (sent <+: log ∧ merged log prev sent = log) ∨
      (¬ sent <+: log ∧ merged log prev sent = sent) := by
  have htake := ha.take_of_matchesAt hb hm
  have hsplit : sent <+: log ↔ sent.drop prev <+: log.drop prev := by
    conv_lhs => rw [← List.take_append_drop prev sent, ← List.take_append_drop prev log, htake]
    exact List.prefix_append_right_inj _
  have hmerge : ∀ (i : Nat) (d e : Entry), (log.drop prev)[i]? = some d →
    (sent.drop prev)[i]? = some e →
      d.leader = e.leader → d = e := by
    intro i d e hd he hde
    rw [List.getElem?_drop] at hd he
    exact ha.agree_entry hb hd he hde
  rw [hsplit, merged]
  rcases merge_cases hmerge with ⟨hpre, heq⟩ | ⟨hpre, heq⟩
  · exact .inl ⟨hpre, by rw [heq, List.take_append_drop]⟩
  · exact .inr ⟨hpre, by rw [heq, htake, List.take_append_drop]⟩

/-- What the node and the leader both have survives an append. -/
theorem keep_merged {p log sent full : List Entry} (ha : Sound s log) (hb : Sound s sent)
    (hm : matchesAt log prev sent = true) (hsent : sent <+: full) (hlog : p <+: log)
    (hfull : p <+: full) : p <+: merged log prev sent := by
  rcases merged_cases ha hb hm with ⟨-, heq⟩ | ⟨hnot, heq⟩
  · rwa [heq]
  rw [heq]
  rcases List.prefix_or_prefix_of_prefix hfull hsent with h | h
  · exact h
  · exact absurd (h.trans hlog) hnot

/-- ... and the cut before a conflict. -/
theorem keep_cut {p log sent full : List Entry} (hprev : prev ≤ sent.length)
    (hm : matchesAt log prev sent = false) (hsent : sent <+: full) (hlog : p <+: log)
    (hfull : p <+: full) : p <+: log.take (prev - 1) := by
  rw [List.prefix_take_iff]
  refine ⟨hlog, Nat.le_of_not_lt fun hlt => ?_⟩
  rw [matchesAt, Bool.or_eq_false_iff, decide_eq_false_iff_not] at hm
  have hsentlt : prev - 1 < sent.length := by omega
  have hlogget : log[prev - 1]? = some p[prev - 1] := List.prefix_iff_getElem?.1 hlog _ hlt
  have hfullget : full[prev - 1]? = some p[prev - 1] := List.prefix_iff_getElem?.1 hfull _ hlt
  have hsentget : full[prev - 1]? = some sent[prev - 1] :=
    List.prefix_iff_getElem?.1 hsent _ hsentlt
  rw [hlogget, List.getElem?_eq_getElem hsentlt,
    ← Option.some.inj (hfullget.symm.trans hsentget)] at hm
  simp at hm

/-! ## Up to date -/

/-- A log that is up to date holds the other, or ends with a later leader's entry. -/
theorem upToDate_cases {mine theirs : List Entry} (ha : Sound s mine) (hb : Sound s theirs)
    (h : upToDate mine theirs = true) :
    mine <+: theirs ∨ ∃ e, theirs.getLast? = some e ∧ ∀ d ∈ mine, d.leader < e.leader := by
  rw [upToDate] at h
  split at h
  next hnil =>
    rw [List.getLast?_eq_none_iff] at hnil
    rw [hnil]
    exact .inl List.nil_prefix
  · cases h
  next a b hmine htheirs =>
    rw [Bool.or_eq_true, decide_eq_true_iff, Bool.and_eq_true, decide_eq_true_iff,
      decide_eq_true_iff] at h
    rcases h with hlt | ⟨heq, hlen⟩
    · exact .inr ⟨b, htheirs, fun d hd => lt_of_le_of_lt (ha.le_last hmine hd) hlt⟩
    have hpa := ha.last hmine
    rw [heq] at hpa
    exact .inl (List.prefix_of_prefix_length_le hpa (hb.last htheirs) hlen)

end Protocol

end Beanstalkd.Raft
