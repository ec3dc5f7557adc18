import Beanstalkd.Server.ConnIds

/-!
# The 48 bits of a local connection number

`ConnIdBlocks::reserve` refuses a block that begins outside the 48-bit space, and
`next` hands out a reserved block to its end. So what matters is where the last
block that begins inside the space ends: at the end of the space if the block size
divides what was left of it at the start, and beyond it otherwise. Beyond it the
number runs into the bits of the node.

The invariant on `(next, limit)` is that the block size divides what is left of the
space after `limit`.
-/

namespace Beanstalkd.Server

open Raft

namespace ConnIdBlocks

/-- Calls of `next`, one per outcome of a write: the number each would take, and its
answer. -/
def calls : ConnIdBlocks → Option String → List Write → List (Nat × Option ConnId)
  | _, _, [] => []
  | b, file, w :: ws =>
    let (id, b', file') := b.next file w
    (b.state.next, id) :: calls b' file' ws

/-- An id is of the node and holds its number, and outside the space there is none. -/
def Confined (node : NodeId) (call : Nat × Option ConnId) : Prop :=
  (∀ id, call.2 = some id →
    ownerOf id = node ∧ localOf id = call.1 ∧ call.1 < 2 ^ connSeqBits) ∧
    (2 ^ connSeqBits ≤ call.1 → call.2 = none)

theorem confined_none (node : NodeId) (n : Nat) : Confined node (n, none) :=
  ⟨nofun, fun _ => rfl⟩

theorem confined_some {node : NodeId} {n : Nat} (h : n < 2 ^ connSeqBits) :
    Confined node (n, some (connId node n)) := by
  refine ⟨fun id hid => ?_, fun hle => absurd h (Nat.not_lt.2 hle)⟩
  cases hid
  exact ⟨ownerOf_connId h node, localOf_connId h node, h⟩

/-- The blocks from `limit` on fill the space. -/
structure Aligned (b : ConnIdBlocks) : Prop where
  pos : 1 ≤ b.block
  next_le : b.state.next ≤ b.state.limit
  limit_le : b.state.limit ≤ 2 ^ connSeqBits
  divides : b.block ∣ 2 ^ connSeqBits - b.state.limit

variable {b : ConnIdBlocks} {file : Option String}

theorem newLimit_eq (h : b.state.next + b.block ≤ 2 ^ connSeqBits) :
    b.newLimit = b.state.next + b.block :=
  Nat.min_eq_left (Nat.le_trans h (by decide))

theorem Aligned.newLimit (h : b.Aligned) (hend : b.state.limit ≤ b.state.next)
    (hlt : b.state.next < 2 ^ connSeqBits) :
    b.newLimit = b.state.next + b.block ∧ b.newLimit ≤ 2 ^ connSeqBits ∧
      b.block ∣ 2 ^ connSeqBits - b.newLimit := by
  have hnext : b.state.limit = b.state.next := Nat.le_antisymm hend h.next_le
  have hdvd := h.divides
  rw [hnext] at hdvd
  have hroom : b.block ≤ 2 ^ connSeqBits - b.state.next := Nat.le_of_dvd (by omega) hdvd
  have hle : b.state.next + b.block ≤ 2 ^ connSeqBits := by omega
  rw [newLimit_eq hle]
  refine ⟨rfl, hle, ?_⟩
  rw [← Nat.sub_sub]
  exact Nat.dvd_sub hdvd (Nat.dvd_refl _)

/-- Blocks that fill the space never leave it. -/
theorem Aligned.calls_confined (h : b.Aligned) (ws : List Write) :
    ∀ call ∈ b.calls file ws, Confined b.node call := by
  induction ws generalizing b file with
  | nil => simp [calls]
  | cons w ws ih =>
    rw [calls]
    match hn : b.next file w with
    | (none, b', file') =>
      obtain ⟨rfl, -⟩ := next_none hn
      exact List.forall_mem_cons.2 ⟨confined_none _ _, ih h⟩
    | (some id, b', file') =>
      obtain ⟨limit, rfl, rfl, hlimit⟩ := next_some hn
      refine List.forall_mem_cons.2 ⟨confined_some ?_, ih ?_⟩
      · rcases hlimit with ⟨rfl, hlt, -⟩ | ⟨-, hlt, -⟩
        · exact Nat.lt_of_lt_of_le hlt h.limit_le
        · exact hlt
      rcases hlimit with ⟨rfl, hlt, -⟩ | ⟨rfl, hlt, -⟩
      · exact ⟨h.pos, hlt, h.limit_le, h.divides⟩
      -- the old block may still have been open, so its end is asked first
      by_cases hend : b.state.limit ≤ b.state.next
      · obtain ⟨heq, hle, hdvd⟩ := h.newLimit hend hlt
        exact ⟨h.pos, lt_newLimit hlt h.pos, hle, hdvd⟩
      have hin : b.next file w = (some b.take.1, b.take.2, file) := by
        rw [next, if_neg hend]
      rw [hn] at hin
      have hst := congrArg (fun r => r.2.1.state.limit) hin
      have hkeep : b.newLimit = b.state.limit := hst
      refine ⟨h.pos, ?_, hkeep ▸ h.limit_le, hkeep ▸ h.divides⟩
      rw [hkeep]
      exact Nat.not_le.1 hend

/-- A block that ends outside the space, or will. -/
structure Straying (b : ConnIdBlocks) : Prop where
  pos : 1 ≤ b.block
  next_le : b.state.next ≤ b.state.limit
  inside : b.state.next ≤ 2 ^ connSeqBits
  strays : b.state.limit ≤ 2 ^ connSeqBits → ¬ b.block ∣ 2 ^ connSeqBits - b.state.limit

/-- A write that succeeds lets it go on. -/
theorem Straying.next (h : b.Straying) (file : Option String)
    (hlt : b.state.next < 2 ^ connSeqBits) :
    ∃ b' file', b.next file .done = (some (connId b.node b.state.next), b', file') ∧
      b'.Straying ∧ b'.node = b.node ∧ b'.state.next = b.state.next + 1 := by
  by_cases hend : b.state.limit ≤ b.state.next
  · have hlimit : b.state.limit = b.state.next := Nat.le_antisymm hend h.next_le
    have hres : b.reserve file .done =
        (.ok { b with state := ⟨b.state.next, b.newLimit⟩ }, some (contents b.newLimit)) := by
      rw [reserve]
      simp only [Nat.one_shiftLeft]
      rw [if_neg (Nat.not_le.2 hlt)]
      rfl
    refine ⟨{ b with state := ⟨b.state.next + 1, b.newLimit⟩ }, some (contents b.newLimit), ?_, ?_,
      rfl, rfl⟩
    · rw [ConnIdBlocks.next, if_pos hend, hres]
      rfl
    refine ⟨h.pos, lt_newLimit hlt h.pos, hlt, ?_⟩
    intro hle hdvd
    have hin : b.newLimit = b.state.next + b.block := by
      have hcases : b.newLimit = b.state.next + b.block ∨ b.newLimit = u64Max := by
        rw [ConnIdBlocks.newLimit, satAdd]
        omega
      refine hcases.resolve_right fun hmax => ?_
      have hout : u64Max ≤ 2 ^ connSeqBits := hmax ▸ hle
      exact absurd hout (by decide)
    have hroom : b.state.next + b.block ≤ 2 ^ connSeqBits := hin ▸ hle
    have hlast := h.strays (hlimit ▸ h.inside)
    rw [hlimit] at hlast
    refine hlast ?_
    have hsum : 2 ^ connSeqBits - b.state.next =
        2 ^ connSeqBits - (b.state.next + b.block) + b.block := by omega
    rw [hsum]
    exact Nat.dvd_add (hin ▸ hdvd) (Nat.dvd_refl _)
  · refine ⟨{ b with state := ⟨b.state.next + 1, b.state.limit⟩ }, file, ?_,
      ⟨h.pos, Nat.not_le.1 hend, hlt, h.strays⟩, rfl, rfl⟩
    rw [ConnIdBlocks.next, if_neg hend]
    rfl

/-- With writes that succeed it gets there. -/
theorem Straying.leaves (left : Nat) :
    ∀ {b : ConnIdBlocks} (file : Option String), b.Straying →
      left = 2 ^ connSeqBits - b.state.next →
      ∃ ws, ∃ call ∈ b.calls file ws, ¬ Confined b.node call := by
  induction left with
  | zero =>
    intro b file h hleft
    have hnext : b.state.next = 2 ^ connSeqBits := by
      have := h.inside
      omega
    have hlimit : ¬ b.state.limit ≤ b.state.next := by
      intro hle
      refine h.strays (hnext ▸ hle) ?_
      rw [Nat.sub_eq_zero_of_le (hnext ▸ h.next_le)]
      exact Nat.dvd_zero _
    refine ⟨[.done], (b.state.next, some (connId b.node b.state.next)), ?_, fun hc => ?_⟩
    · rw [calls, ConnIdBlocks.next, if_neg hlimit]
      exact List.mem_cons_self
    · cases hc.2 (Nat.le_of_eq hnext.symm)
  | succ left ih =>
    intro b file h hleft
    obtain ⟨b', file', hn, hb', hnode, hnext⟩ := h.next file (by omega)
    obtain ⟨ws, call, hmem, hbad⟩ := ih file' hb' (by omega)
    refine ⟨.done :: ws, call, ?_, hnode ▸ hbad⟩
    rw [calls, hn]
    exact List.mem_cons_of_mem _ hmem

theorem open_ok {dataDir : String} {node : NodeId} {first block : Nat} {file file' : Option String}
    {w : Write} (h : ConnIdBlocks.open dataDir node first block file w = (.ok b, file')) :
    first < 2 ^ connSeqBits ∧ b.node = node ∧ b.block = max block 1 ∧
      b.state = ⟨first, satAdd first (max block 1)⟩ := by
  obtain ⟨hlt, rfl, -⟩ := reserve_ok h
  exact ⟨hlt, rfl, rfl, rfl⟩

end ConnIdBlocks

open ConnIdBlocks in
/-- The connection ids of a process stay in its node's space, through any number of
calls and whatever the writes do, exactly if the block size divides what was left of the
space when the process started. -/
theorem conn_ids_confined_iff {dataDir : String} {node : NodeId} {first block : Nat}
    {file file' : Option String} {w : Write} {b : ConnIdBlocks}
    (h : ConnIdBlocks.open dataDir node first block file w = (.ok b, file')) :
    (∀ ws, ∀ call ∈ b.calls file' ws, Confined node call) ↔
      max block 1 ∣ 2 ^ connSeqBits - first := by
  obtain ⟨hlt, hnode, hblock, hstate⟩ := open_ok h
  have hpos : 1 ≤ b.block := hblock ▸ Nat.le_max_right ..
  have hnext : b.state.next = first := by rw [hstate]
  have hlimit : b.state.limit = satAdd first b.block := by rw [hstate, hblock]
  rw [← hblock, ← hnode]
  constructor
  · -- otherwise the process gets out, if the writes let it
    intro hall
    by_contra hdvd
    have hstray : b.Straying := by
      refine ⟨hpos, ?_, hnext ▸ Nat.le_of_lt hlt, fun hle hd => hdvd ?_⟩
      · rw [hnext, hlimit]
        exact Nat.le_of_lt (lt_min (Nat.lt_add_of_pos_right hpos)
          (Nat.lt_of_lt_of_le hlt (by decide)))
      have hcases : b.state.limit = first + b.block ∨ b.state.limit = u64Max := by
        rw [hlimit, satAdd]
        omega
      rcases hcases with hin | hmax
      · rw [hin] at hd hle
        have hsum : 2 ^ connSeqBits - first = 2 ^ connSeqBits - (first + b.block) + b.block := by
          omega
        rw [hsum]
        exact Nat.dvd_add hd (Nat.dvd_refl _)
      · rw [hmax] at hle
        exact absurd hle (by decide)
    obtain ⟨ws, call, hmem, hbad⟩ := Straying.leaves _ file' hstray rfl
    exact hbad (hall ws call hmem)
  · intro hdvd ws
    have hroom : b.block ≤ 2 ^ connSeqBits - first := Nat.le_of_dvd (by omega) hdvd
    have hin : b.state.limit = first + b.block := by
      rw [hlimit]
      exact Nat.min_eq_left (Nat.le_trans (show first + b.block ≤ 2 ^ connSeqBits by omega)
        (by decide))
    refine Aligned.calls_confined ⟨hpos, by omega, by omega, ?_⟩ ws
    rw [hin, ← Nat.sub_sub]
    exact Nat.dvd_sub hdvd (Nat.dvd_refl _)

/-- A process that starts two blocks of the server's size before the end of the space. -/
theorem conn_ids_confined_to_the_end :
    ∃ b file', ConnIdBlocks.open "data" 3 (2 ^ 48 - 2 ^ 17) (2 ^ 16) none .done = (.ok b, file') ∧
      ∀ ws, ∀ call ∈ b.calls file' ws, ConnIdBlocks.Confined 3 call := by
  obtain ⟨b, file', h⟩ : ∃ b file',
      ConnIdBlocks.open "data" 3 (2 ^ 48 - 2 ^ 17) (2 ^ 16) none .done = (.ok b, file') :=
    ⟨_, _, rfl⟩
  exact ⟨b, file', h, (conn_ids_confined_iff h).2 (by decide)⟩

/-- The last number of the space, and a block of the size the server uses: the second
id is the next node's. -/
theorem conn_ids_stray :
    firstLocal (some (2 ^ 48 - 1)) 0 0 = .ok (2 ^ 48 - 1) ∧
      ∃ b file', ConnIdBlocks.open "data" 2 (2 ^ 48 - 1) (2 ^ 16) none .done = (.ok b, file') ∧
        b.calls file' [.done, .done] =
          [(2 ^ 48 - 1, some (3 * 2 ^ 48 - 1)), (2 ^ 48, some (3 * 2 ^ 48))] ∧
        ownerOf (3 * 2 ^ 48) = 3 :=
  ⟨by decide, _, _, rfl, by decide, by decide⟩

end Beanstalkd.Server
