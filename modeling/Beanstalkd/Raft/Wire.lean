import Beanstalkd.Raft.AdminSafe

/-!
# Memberships on the wire

`crates/raft/src/wire.rs`: what a node accepts from a peer or an operator. Every
collection is decoded by a visitor that refuses more than a fixed number of
elements (`MAX_MEMBERS` nodes, `MAX_JOINT_CONFIGS` voter sets, `MAX_NODE_ADDR_LEN`
bytes of an address). A membership goes over the wire in three places: as the
payload of a log entry, in a snapshot's meta (both `MembershipWire`) and in a
status answer (`MembershipView`). postcard writes sets and maps in key order with
their length before them, and reads back what it wrote.

The planner of `admin.rs` knows none of these limits. It accepts one learner
after the other (`learners_added`), until the membership is one that no peer
decodes. As long as a learner is only added to a membership with room for it, all
memberships are decodable (`memberships_decodable`).
-/

open Std

namespace Beanstalkd.Raft

def maxMembers : Nat := 256

def maxJointConfigs : Nat := 4

def maxNodeAddrLen : Nat := 1024

/-- serde's `invalid_length`. -/
structure InvalidLength where
  len : Nat
  expected : String

namespace Wire

/-! ## Visitors -/

section visitors

variable {α β : Type} {max : Nat} {element : α → Except InvalidLength β}
  {value : α → Except InvalidLength α} {m : ExtTreeMap NodeId α}

/-- The elements in turn; `v` has those decoded so far. -/
def visitElements (max : Nat) (expected : String) (element : α → Except InvalidLength β) :
    List α → List β → Except InvalidLength (List β)
  | [], v => .ok v
  | x :: xs, v =>
    match element x with
    | .error e => .error e
    | .ok y =>
      if max ≤ v.length then .error ⟨v.length + 1, expected⟩
      else visitElements max expected element xs (v ++ [y])

/-- `SeqVisitor`. -/
def visitSeq (max : Nat) (element : α → Except InvalidLength β) (xs : List α) :
    Except InvalidLength (List β) :=
  let expected := s!"a sequence of at most {max} elements"
  -- the announced length
  if max < xs.length then .error ⟨xs.length, expected⟩
  else visitElements max expected element xs []

/-- The entries in turn; `n` of them are in `m`. -/
def visitEntries (max : Nat) (expected : String) (value : α → Except InvalidLength β) :
    List (NodeId × α) → Nat → ExtTreeMap NodeId β → Except InvalidLength (ExtTreeMap NodeId β)
  | [], _, m => .ok m
  | (k, x) :: xs, n, m =>
    match value x with
    | .error e => .error e
    | .ok y =>
      if max < n + 1 then .error ⟨n + 1, expected⟩
      else visitEntries max expected value xs (n + 1) (m.insert k y)

/-- `MapVisitor`. -/
def visitMap (max : Nat) (value : α → Except InvalidLength β) (xs : List (NodeId × α)) :
    Except InvalidLength (ExtTreeMap NodeId β) :=
  let expected := s!"a map of at most {max} entries"
  if max < xs.length then .error ⟨xs.length, expected⟩
  else visitEntries max expected value xs 0 ∅

/-- `StrVisitor`. -/
def visitStr (max : Nat) (v : String) : Except InvalidLength String :=
  if max < v.utf8ByteSize then .error ⟨v.utf8ByteSize, s!"a string of at most {max} bytes"⟩
  else .ok v

theorem visitElements_ok (expected : String) {f : α → β} {xs : List α} {v : List β}
    (hlen : v.length + xs.length ≤ max) (hall : ∀ x ∈ xs, element x = .ok (f x)) :
    visitElements max expected element xs v = .ok (v ++ xs.map f) := by
  induction xs generalizing v with
  | nil =>
    rw [List.map_nil, List.append_nil]
    rfl
  | cons x xs ih =>
    rw [List.length_cons] at hlen
    have hroom : ¬ max ≤ v.length := by omega
    have hrest : (v ++ [f x]).length + xs.length ≤ max := by
      rw [List.length_append, List.length_singleton]
      omega
    rw [visitElements, hall x List.mem_cons_self]
    dsimp only
    rw [if_neg hroom, ih hrest fun y hy => hall y (List.mem_cons_of_mem x hy), List.append_assoc]
    rfl

theorem visitSeq_ok {f : α → β} {xs : List α} (hlen : xs.length ≤ max)
    (hall : ∀ x ∈ xs, element x = .ok (f x)) : visitSeq max element xs = .ok (xs.map f) := by
  unfold visitSeq
  rw [if_neg (Nat.not_lt.mpr hlen),
    visitElements_ok _ (by rwa [List.length_nil, Nat.zero_add]) hall, List.nil_append]

theorem visitEntries_ok (expected : String) {xs : List (NodeId × α)} {n : Nat}
    (hlen : n + xs.length ≤ max) (hall : ∀ x ∈ xs, value x.2 = .ok x.2) :
    visitEntries max expected value xs n m = .ok (m.insertMany xs) := by
  induction xs generalizing n m with
  | nil =>
    rfl
  | cons x xs ih =>
    rw [List.length_cons] at hlen
    have hroom : ¬ max < n + 1 := by omega
    rw [visitEntries, hall x List.mem_cons_self]
    dsimp only
    rw [if_neg hroom, ih (by omega) fun y hy => hall y (List.mem_cons_of_mem x hy),
      ← ExtTreeMap.insertMany_cons]

/-- A map within the limits is decoded as it was. -/
theorem visitMap_ok (hlen : m.size ≤ max)
    (hall : ∀ (k : NodeId) (x : α), m[k]? = some x → value x = .ok x) :
    visitMap max value m.toList = .ok m := by
  rw [← ExtTreeMap.length_toList] at hlen
  unfold visitMap
  rw [if_neg (Nat.not_lt.mpr hlen), visitEntries_ok _ (by rwa [Nat.zero_add]) fun x hx =>
    hall x.1 x.2 (ExtTreeMap.mem_toList_iff_getElem?_eq_some.mp hx),
    ← ExtTreeMap.ofList_eq_insertMany_empty, TreeMap.ofList_toList]

theorem visitMap_error {value : α → Except InvalidLength β} (hlen : max < m.size) :
    ∃ e, visitMap max value m.toList = .error e := by
  rw [← ExtTreeMap.length_toList] at hlen
  unfold visitMap
  rw [if_pos hlen]
  exact ⟨_, rfl⟩

theorem visitStr_ok {v : String} (h : v.utf8ByteSize ≤ max) : visitStr max v = .ok v := by
  rw [visitStr, if_neg (Nat.not_lt.mpr h)]

theorem le_of_visitStr_ok {v w : String} (h : visitStr max v = .ok w) : v.utf8ByteSize ≤ max := by
  unfold visitStr at h
  split at h
  · cases h
  next hle => exact Nat.not_lt.mp hle

end visitors

/-! ## Memberships and requests -/

def nodeAddr (addr : String) : Except InvalidLength String := visitStr maxNodeAddrLen addr

/-- `Config`: the ids of one voter set. -/
def config (ids : List NodeId) : Except InvalidLength (Finset NodeId) :=
  (visitSeq maxMembers .ok ids).map List.toFinset

def configs (sets : List (List NodeId)) : Except InvalidLength (List (Finset NodeId)) :=
  visitSeq maxJointConfigs config sets

def nodes (entries : List (NodeId × String)) : Except InvalidLength (ExtTreeMap NodeId String) :=
  visitMap maxMembers nodeAddr entries

/-- The sets and maps of a membership as they are written. -/
structure MembershipData where
  configs : List (List NodeId)
  nodes : List (NodeId × String)

/-- `MembershipWire`. Every voter is listed, so `Membership::new` adds no node. -/
def membership (d : MembershipData) : Except InvalidLength Membership :=
  match configs d.configs with
  | .error e => .error e
  | .ok configs =>
    match nodes d.nodes with
    | .error e => .error e
    | .ok nodes => .ok { configs, nodes }

/-- `StoredWire`, in a snapshot's meta. -/
def stored (logId : Option LogId) (d : MembershipData) :
    Except InvalidLength (Option LogId × Membership) :=
  (membership d).map fun m => (logId, m)

def voterSets (sets : List (List NodeId)) : Except InvalidLength (List (Finset NodeId)) :=
  configs sets

def nodeAddrs (entries : List (NodeId × String)) :
    Except InvalidLength (ExtTreeMap NodeId String) :=
  visitMap maxMembers nodeAddr entries

/-- `MembershipView`, in a status answer. -/
def membershipView (logId : Option LogId) (committed : Bool) (d : MembershipData) :
    Except InvalidLength MembershipView :=
  match voterSets d.configs with
  | .error e => .error e
  | .ok configs =>
    match nodeAddrs d.nodes with
    | .error e => .error e
    | .ok nodes => .ok { logId, committed, configs, nodes }

def nodeIds (ids : List NodeId) : Except InvalidLength (Finset NodeId) :=
  (visitSeq maxMembers .ok ids).map List.toFinset

/-- An operator's request. -/
def adminRequest : AdminRequest → Except InvalidLength AdminRequest
  | .membership => .ok .membership
  | .addLearner id addr expect => (nodeAddr addr).map fun addr => .addLearner id addr expect
  | .promote ids expect force =>
    (nodeIds (ids.sort (· ≤ ·))).map fun ids => .promote ids expect force
  | .remove id expect force => .ok (.remove id expect force)
  | .setAddr id addr expect force => (nodeAddr addr).map fun addr => .setAddr id addr expect force

end Wire

def Membership.data (m : Membership) : Wire.MembershipData where
  configs := m.configs.map (·.sort (· ≤ ·))
  nodes := m.nodes.toList

def MembershipView.new (logId : Option LogId) (m : Membership) (committed : Bool) :
    MembershipView where
  logId := logId
  committed := committed
  configs := m.configs
  nodes := m.nodes

/-- Within every limit of the decoder. -/
structure Membership.Fits (m : Membership) : Prop where
  configs : m.configs.length ≤ maxJointConfigs
  voters : ∀ V ∈ m.configs, V.card ≤ maxMembers
  nodes : m.nodes.size ≤ maxMembers
  addrs : ∀ (id : NodeId) (addr : String), m.nodes[id]? = some addr →
    addr.utf8ByteSize ≤ maxNodeAddrLen

namespace Wire

variable {m : Membership}

theorem configs_data (h : m.Fits) : configs m.data.configs = .ok m.configs := by
  have hconfig : ∀ ids ∈ m.data.configs, config ids = .ok ids.toFinset := by
    intro ids hids
    obtain ⟨V, hV, rfl⟩ := List.mem_map.mp hids
    have hlen : (V.sort (· ≤ ·)).length ≤ maxMembers := by
      rw [Finset.length_sort]
      exact h.voters V hV
    have hseq : visitSeq maxMembers .ok (V.sort (· ≤ ·)) = .ok ((V.sort (· ≤ ·)).map id) :=
      visitSeq_ok hlen fun _ _ => rfl
    rw [config, hseq, List.map_id]
    rfl
  have hlen : m.data.configs.length ≤ maxJointConfigs := by
    rw [Membership.data, List.length_map]
    exact h.configs
  rw [configs, visitSeq_ok hlen hconfig, Membership.data, List.map_map]
  congr 1
  refine (List.map_congr_left fun V _ => ?_).trans (List.map_id _)
  exact Finset.sort_toFinset V (· ≤ ·)

theorem nodes_data (h : m.Fits) : nodes m.data.nodes = .ok m.nodes :=
  visitMap_ok h.nodes fun id addr hid => visitStr_ok (h.addrs id addr hid)

theorem membership_data (h : m.Fits) : membership m.data = .ok m := by
  rw [membership, configs_data h]
  rw [nodes_data h]

theorem membershipView_data (h : m.Fits) (logId : Option LogId) (committed : Bool) :
    membershipView logId committed m.data = .ok (.new logId m committed) := by
  have hnodes : nodeAddrs m.data.nodes = .ok m.nodes := nodes_data h
  rw [membershipView, voterSets, configs_data h]
  rw [hnodes]
  rfl

/-- A membership with too many nodes is refused. -/
theorem membership_too_large (h : maxMembers < m.nodes.size) :
    ∃ e, membership m.data = .error e := by
  unfold membership
  split
  · exact ⟨_, rfl⟩
  have hnodes : ∃ e, nodes m.data.nodes = .error e := visitMap_error h
  obtain ⟨e, he⟩ := hnodes
  rw [he]
  exact ⟨e, rfl⟩

theorem membershipView_too_large (h : maxMembers < m.nodes.size) {logId : Option LogId}
    {committed : Bool} : ∃ e, membershipView logId committed m.data = .error e := by
  unfold membershipView
  split
  · exact ⟨_, rfl⟩
  have hnodes : ∃ e, nodeAddrs m.data.nodes = .error e := visitMap_error h
  obtain ⟨e, he⟩ := hnodes
  rw [he]
  exact ⟨e, rfl⟩

end Wire

/-! ## What the planner lets through -/

section

variable {loopbackIp : String → Option Bool} {c c' : Cluster} {m : Membership} {change : Change}

/-- The decoder of a request lets it through as it is. -/
def AdminEvent.Decoded : AdminEvent → Prop
  | .request req _ _ => ∃ req', Wire.adminRequest req = .ok req'
  | .finish => True

/-- A new learner is only asked for while there is room for it. -/
def AdminEvent.Roomy (c : Cluster) : AdminEvent → Prop
  | .request (.addLearner id _ _) _ _ =>
    c.membership.isNode id = true ∨ c.membership.nodes.size < maxMembers
  | _ => True

/-- The nodes and their addresses are within the limits. -/
structure Room (m : Membership) : Prop where
  nodes : m.nodes.size ≤ maxMembers
  addrs : ∀ (id : NodeId) (addr : String), m.nodes[id]? = some addr →
    addr.utf8ByteSize ≤ maxNodeAddrLen

theorem Room.insert (h : Room m) {id : NodeId} {addr : String}
    (hroom : m.isNode id = true ∨ m.nodes.size < maxMembers)
    (haddr : addr.utf8ByteSize ≤ maxNodeAddrLen) :
    Room { m with nodes := m.nodes.insert id addr } := by
  refine ⟨?_, fun k a hk => ?_⟩
  · show (m.nodes.insert id addr).size ≤ maxMembers
    rw [ExtTreeMap.size_insert]
    split
    · exact h.nodes
    next hnot =>
      rcases hroom with hnode | hlt
      · exact absurd hnode hnot
      · exact hlt
  · rw [ExtTreeMap.getElem?_insert] at hk
    split at hk
    · rw [← Option.some.inj hk]
      exact haddr
    · exact h.addrs k a hk

theorem Room.of_sub (h : Room m) {m' : Membership} (hsize : m'.nodes.size ≤ m.nodes.size)
    (hsub : ∀ (id : NodeId) (addr : String), m'.nodes[id]? = some addr → m.nodes[id]? = some addr) :
    Room m' :=
  ⟨hsize.trans h.nodes, fun id addr hid => h.addrs id addr (hsub id addr hid)⟩

theorem Room.nextCoherent (h : Room m) (goal : Finset NodeId) : Room (m.nextCoherent goal) := by
  refine h.of_sub ExtTreeMap.size_filter_le_size fun id addr hid => ?_
  have hid : (m.nodes.filter _)[id]? = some addr := hid
  rw [ExtTreeMap.getElem?_filter'] at hid
  exact (Option.filter_eq_some_iff.mp hid).1

/-- An address that came through the decoder. -/
theorem Wire.le_of_nodeAddr_ok {α : Type} {addr : String} {f : String → α} {x : α}
    (h : (Wire.nodeAddr addr).map f = .ok x) : addr.utf8ByteSize ≤ maxNodeAddrLen := by
  cases hv : Wire.nodeAddr addr with
  | error e =>
    rw [hv] at h
    cases h
  | ok v => exact Wire.le_of_visitStr_ok hv

theorem Room.execute (h : Room c.membership) {req req' : AdminRequest} {highest : NodeId}
    {tls remote : Bool} (hplanned : Planned highest c.membership req change)
    (hreq : Wire.adminRequest req = .ok req')
    (hroomy : (AdminEvent.request req tls remote).Roomy c) :
    Room (execute change c.membership) := by
  cases hplanned with
  | addLearner => exact h.insert hroomy (Wire.le_of_nodeAddr_ok hreq)
  | promote => exact h.nextCoherent _
  | removeLearner =>
    refine h.of_sub ExtTreeMap.size_erase_le fun k a hk => ?_
    exact (TreeMap.erase_eq_some_iff.mp hk).2
  | removeVoter => exact h.nextCoherent _
  | setAddr hnode => exact h.insert (.inl hnode) (Wire.le_of_nodeAddr_ok hreq)

theorem commits_room {ev : AdminEvent} (h : Room c.membership) (hdecoded : ev.Decoded)
    (hroomy : ev.Roomy c) (hc : commits loopbackIp c ev = some c') : Room c'.membership := by
  cases ev with
  | request req tls remote =>
    obtain ⟨req', hreq⟩ := hdecoded
    simp only [commits] at hc
    split at hc
    · split at hc
      · next change hplan =>
        cases hc
        exact h.execute (plan_planned hplan) hreq hroomy
      · cases hc
    · cases hc
  | finish =>
    obtain ⟨goal, -, rfl⟩ := Option.map_eq_some_iff.mp hc
    exact h.nextCoherent goal

/-- Voters are listed, so what has room fits. -/
theorem Room.fits (h : Room c.membership) (hok : Ok c) : c.membership.Fits := by
  refine ⟨?_, fun V hV => ?_, h.nodes, h.addrs⟩
  · obtain ⟨V, hV⟩ | ⟨V, W, hVW, -⟩ := hok.shape.one_or_two
    · rw [hV]
      exact Nat.le_add_left 1 3
    · rw [hVW]
      exact Nat.le_add_left 2 2
  · have hsub : V ⊆ c.membership.nodes.keys.toFinset := by
      intro id hid
      rw [List.mem_toFinset, ExtTreeMap.mem_keys]
      exact ExtTreeMap.contains_iff_mem.mp (hok.listed V hV id hid)
    calc V.card ≤ c.membership.nodes.keys.toFinset.card := Finset.card_le_card hsub
      _ ≤ c.membership.nodes.keys.length := List.toFinset_card_le _
      _ = c.membership.nodes.size := ExtTreeMap.length_keys
      _ ≤ maxMembers := h.nodes

/-! ## Runs -/

/-- Every request of a run is made with room for what it adds. -/
def RoomyRun (loopbackIp : String → Option Bool) : Cluster → List AdminEvent → Prop
  | _, [] => True
  | c, ev :: evs => ev.Roomy c ∧ RoomyRun loopbackIp ((commits loopbackIp c ev).getD c) evs

theorem trace_room {evs : List AdminEvent} (hok : Ok c) (h : Room c.membership)
    (hdecoded : ∀ ev ∈ evs, ev.Decoded) (hroomy : RoomyRun loopbackIp c evs) :
    ∀ b ∈ trace loopbackIp c evs, Ok b ∧ Room b.membership := by
  induction evs generalizing c with
  | nil => exact fun b hb => List.mem_singleton.mp hb ▸ ⟨hok, h⟩
  | cons ev evs ih =>
    obtain ⟨hev, hrest⟩ := hroomy
    obtain ⟨hdec, hdecs⟩ := List.forall_mem_cons.mp hdecoded
    cases hc : commits loopbackIp c ev with
    | none =>
      rw [hc] at hrest
      rw [trace_of_none hc]
      exact ih hok h hdecs hrest
    | some c' =>
      rw [hc] at hrest
      rw [trace_of_some hc]
      exact List.forall_mem_cons.mpr
        ⟨⟨hok, h⟩, ih (commits_next hok hc).ok (commits_room h hdec hev hc) hdecs hrest⟩

/-- In every run whose requests are all made with room, every membership on the way,
joint ones included, is decoded as it is wherever it is sent. -/
theorem memberships_decodable (loopbackIp : String → Option Bool) (m : Membership)
    (hm : m.Initial) (hfits : m.Fits) (evs : List AdminEvent)
    (hdecoded : ∀ ev ∈ evs, ev.Decoded) (hroomy : RoomyRun loopbackIp (.start m) evs) :
    ∀ c ∈ trace loopbackIp (.start m) evs,
      Wire.membership c.membership.data = .ok c.membership ∧
      ∀ logId, Wire.stored logId c.membership.data = .ok (logId, c.membership) ∧
        ∀ committed, Wire.membershipView logId committed c.membership.data =
          .ok (.new logId c.membership committed) := by
  intro c hc
  obtain ⟨hok, hroom⟩ := trace_room hm.ok ⟨hfits.nodes, hfits.addrs⟩ hdecoded hroomy c hc
  have hfits := hroom.fits hok
  refine ⟨Wire.membership_data hfits, fun logId => ⟨?_, fun committed => ?_⟩⟩
  · rw [Wire.stored, Wire.membership_data hfits]
    rfl
  · exact Wire.membershipView_data hfits logId committed

end

theorem addLearner_decoded {addr : String} (h : addr.utf8ByteSize ≤ maxNodeAddrLen) (id : NodeId)
    (expect : Option LogId) (tls remote : Bool) :
    AdminEvent.Decoded (.request (.addLearner id addr expect) tls remote) := by
  refine ⟨.addLearner id addr expect, ?_⟩
  rw [Wire.adminRequest, Wire.nodeAddr, Wire.visitStr_ok h]
  rfl

/-- A learner joins three voters, one of which then leaves. -/
def trioChanges : List AdminEvent :=
  [.request (.addLearner 5 "e:1" none) true false, .request (.remove 3 none true) true false,
    .finish]

theorem trio_changes_decodable : RoomyRun (fun _ => none) (.start trioAndLearner) trioChanges ∧
    ∀ c ∈ trace (fun _ => none) (.start trioAndLearner) trioChanges,
      Wire.membership c.membership.data = .ok c.membership ∧
      ∀ logId, Wire.stored logId c.membership.data = .ok (logId, c.membership) ∧
        ∀ committed, Wire.membershipView logId committed c.membership.data =
          .ok (.new logId c.membership committed) := by
  have hroomy : RoomyRun (fun _ => none) (.start trioAndLearner) trioChanges :=
    ⟨.inr (by decide), trivial, trivial, trivial⟩
  have haddrs : ∀ x ∈ trioAndLearner.nodes.toList, x.2.utf8ByteSize ≤ maxNodeAddrLen := by
    decide +kernel
  refine ⟨hroomy, memberships_decodable (fun _ => none) trioAndLearner
    ⟨⟨{1, 2, 3}, rfl, by decide⟩, by decide⟩
    ⟨by decide, by decide, by decide, fun id addr hid =>
      haddrs (id, addr) (ExtTreeMap.mem_toList_iff_getElem?_eq_some.mpr hid)⟩
    trioChanges ?_ hroomy⟩
  exact List.forall_mem_cons.mpr ⟨addLearner_decoded (by decide +kernel) 5 none true false,
    List.forall_mem_cons.mpr ⟨⟨_, rfl⟩, List.forall_mem_singleton.mpr trivial⟩⟩

/-! ## Too many learners -/

section

variable {loopbackIp : String → Option Bool} {c : Cluster} {m : Membership}

/-- Learners with the ids from `id` on are asked for, one after the other. -/
def addLearners : NodeId → Nat → List AdminEvent
  | _, 0 => []
  | id, n + 1 => .request (.addLearner id "b:1" none) true false :: addLearners (id + 1) n

theorem addLearners_decoded (id : NodeId) (n : Nat) : ∀ ev ∈ addLearners id n, ev.Decoded := by
  induction n generalizing id with
  | zero => exact fun ev hev => nomatch hev
  | succ n ih =>
    exact List.forall_mem_cons.mpr
      ⟨addLearner_decoded (by decide +kernel) id none true false, ih (id + 1)⟩

/-- The planner accepts any new id in range, however many members there are. -/
theorem commits_learner (hu : c.isUniform = true) {id : NodeId} (hid : c.highestMember < id)
    (hmax : id ≤ maxNodeId) (hnode : c.membership.isNode id = false) :
    commits loopbackIp c (.request (.addLearner id "b:1" none) true false) =
      some (c.commit { c.membership with nodes := c.membership.nodes.insert id "b:1" }) := by
  have hnone : c.membership.nodes[id]? = none := by
    rw [Membership.isNode, ExtTreeMap.contains_eq_isSome_getElem?] at hnode
    exact Option.not_isSome_iff_eq_none.mp (by rw [hnode]; exact Bool.false_ne_true)
  have hrange : 1 ≤ id ∧ id ≤ maxNodeId := ⟨Nat.one_le_of_lt hid, hmax⟩
  have haddr : checkAddr "b:1" ⟨c.highestMember, true, false, loopbackIp⟩ false = .ok () := by
    have hport : ((rsplitColon "b:1").all fun a => a.1.isEmpty || !isPort a.2) = false := by
      decide +kernel
    rw [checkAddr, hport]
    rfl
  have hplan : plan (.addLearner id "b:1" none) c.membership
      ⟨c.highestMember, true, false, loopbackIp⟩ = .ok (some (.addLearner id "b:1")) := by
    rw [plan, planAddLearner, hnone]
    rw [if_neg (not_not.mpr hrange), if_neg (Nat.not_le.mpr hid), haddr]
  rw [commits, if_pos hu, hplan]
  rfl

theorem highestNode_le {k : NodeId} (h : ∀ id, m.isNode id = true → id ≤ k) :
    m.highestNode ≤ k := by
  have hkeys : ∀ id ∈ m.nodes.keys, id ≤ k := fun id hid =>
    h id (ExtTreeMap.contains_iff_mem.mpr (ExtTreeMap.mem_keys.mp hid))
  unfold Membership.highestNode
  generalize m.nodes.keys = keys at hkeys
  induction keys with
  | nil => exact Nat.zero_le k
  | cons id keys ih =>
    obtain ⟨hid, hrest⟩ := List.forall_mem_cons.mp hkeys
    exact max_le hid (ih hrest)

theorem learners_added {id n : Nat} (hok : Ok c) (hu : c.isUniform = true)
    (hid : c.highestMember < id) (hmax : id + n ≤ maxNodeId + 1) :
    ∃ b ∈ trace loopbackIp c (addLearners id n),
      b.membership.nodes.size = c.membership.nodes.size + n := by
  induction n generalizing c id with
  | zero => exact ⟨c, List.mem_singleton_self c, rfl⟩
  | succ n ih =>
    have hnode : c.membership.isNode id = false := by
      rw [← Bool.not_eq_true]
      exact fun hin => absurd (hok.bounded id hin) (Nat.not_le.mpr hid)
    have hle : id ≤ maxNodeId := by omega
    have hc : commits loopbackIp c (.request (.addLearner id "b:1" none) true false) = _ :=
      commits_learner hu hid hle hnode
    have hnext := commits_next hok hc
    have hhigh : (c.commit { c.membership with
        nodes := c.membership.nodes.insert id "b:1" }).highestMember < id + 1 := by
      refine Nat.lt_succ_of_le (max_le hid.le (highestNode_le fun k hk => ?_))
      rcases (isNode_insert "b:1").mp hk with rfl | hk
      · exact Nat.le_refl _
      · exact (hok.bounded k hk).trans hid.le
    obtain ⟨b, hb, hsize⟩ := ih hnext.ok hu hhigh (by omega)
    refine ⟨b, ?_, ?_⟩
    · rw [addLearners, trace_of_some hc]
      exact List.mem_cons_of_mem c hb
    rw [hsize]
    show (c.membership.nodes.insert id "b:1").size + n = _
    rw [ExtTreeMap.size_insert,
      if_neg (by rw [← Membership.isNode, hnode]; exact Bool.false_ne_true)]
    omega

end

/-- One voter. -/
def solo : Membership := { configs := [{1}], nodes := .ofList [(1, "a:1")] }

/-- With 256 learners added to one voter no peer decodes the membership any more. -/
theorem too_many_learners :
    solo.Initial ∧ solo.Fits ∧ (∀ ev ∈ addLearners 2 256, ev.Decoded) ∧
      ∃ c ∈ trace (fun _ => none) (.start solo) (addLearners 2 256),
        (∃ e, Wire.membership c.membership.data = .error e) ∧
          ∀ logId, (∃ e, Wire.stored logId c.membership.data = .error e) ∧
            ∀ committed, ∃ e, Wire.membershipView logId committed c.membership.data = .error e := by
  have haddrs : ∀ x ∈ solo.nodes.toList, x.2.utf8ByteSize ≤ maxNodeAddrLen := by decide +kernel
  have hinit : solo.Initial := ⟨⟨{1}, rfl, by decide⟩, by decide⟩
  refine ⟨hinit, ⟨by decide, by decide, by decide, fun id addr hid =>
    haddrs (id, addr) (ExtTreeMap.mem_toList_iff_getElem?_eq_some.mpr hid)⟩,
    addLearners_decoded 2 256, ?_⟩
  have hadded : ∃ b ∈ trace (fun _ => none) (.start solo) (addLearners 2 256),
      b.membership.nodes.size = solo.nodes.size + 256 :=
    learners_added hinit.ok rfl (show (1 : Nat) < 2 by decide) (by decide)
  obtain ⟨c, hc, hsize⟩ := hadded
  have hlarge : maxMembers < c.membership.nodes.size := by
    rw [hsize]
    decide
  obtain ⟨e, he⟩ := Wire.membership_too_large hlarge
  refine ⟨c, hc, ⟨e, he⟩,
    fun logId => ⟨⟨e, ?_⟩, fun committed => Wire.membershipView_too_large hlarge⟩⟩
  rw [Wire.stored, he]
  rfl

end Beanstalkd.Raft
