import Beanstalkd.Raft.Peers
import Beanstalkd.Server.Cluster

/-!
# Local connection numbers

`crates/server/src/cluster/durable.rs`: a node hands out its local connection
numbers in blocks. The end of a block is written to `conn-ids` before any of its
numbers is used, and a new process starts at or above what it finds there, at
`first_local`. The operations under the allocator's mutex are single steps here;
what the file system does to a write is chosen by the environment (`Write`). A
crash inside `reserve` is a write that fails, with the old or the new content,
followed by a crash.

`Lives` is one node through any number of processes on one data directory,
together with the log of the cluster and the `DropNode` entries created for that
node: by a leader, with the highest number of some state it had applied, and by
the process itself after `ConnIdBlocks::open`, with the number below its first.
-/

open Std

namespace Beanstalkd.Server

open Raft

/-! ## Connection ids -/

theorem connId_eq {n : Nat} (h : n < 2 ^ connSeqBits) (node : NodeId) :
    connId node n = node * 2 ^ connSeqBits + n := by
  rw [connId, ← Nat.shiftLeft_add_eq_or_of_lt h, Nat.shiftLeft_eq]

theorem ownerOf_connId {n : Nat} (h : n < 2 ^ connSeqBits) (node : NodeId) :
    ownerOf (connId node n) = node := by
  rw [connId_eq h, ownerOf, Nat.shiftRight_eq_div_pow, Nat.add_comm,
    Nat.add_mul_div_right _ _ (Nat.two_pow_pos _), Nat.div_eq_of_lt h, Nat.zero_add]

theorem localOf_connId {n : Nat} (h : n < 2 ^ connSeqBits) (node : NodeId) :
    localOf (connId node n) = n := by
  rw [connId_eq h, localOf, Nat.one_shiftLeft, Nat.and_two_pow_sub_one_eq_mod,
    Nat.mul_add_mod_self_right, Nat.mod_eq_of_lt h]

theorem localOf_connId_le (node : NodeId) (n : Nat) : localOf (connId node n) ≤ n := by
  rw [localOf, connId, Nat.one_shiftLeft, Nat.and_two_pow_sub_one_eq_mod, Nat.or_mod_two_pow,
    Nat.shiftLeft_eq, Nat.mul_mod_left, Nat.zero_or]
  exact Nat.mod_le _ _

/-! ## The file -/

def connIdsFile : String := "conn-ids"

/-- How `write_atomic` ends: with an error the file has the old content or the new. -/
inductive Write where
  | done
  | failed (new : Bool) (e : String)

/-- What `reserve` writes. -/
def contents (limit : Nat) : String := s!"{limit}\n"

/-- `char::is_whitespace`: the Unicode property `White_Space`. -/
def isWhitespace (c : Char) : Bool :=
  (9 ≤ c.toNat && c.toNat ≤ 13) || (0x2000 ≤ c.toNat && c.toNat ≤ 0x200a) ||
    [0x20, 0x85, 0xa0, 0x1680, 0x2028, 0x2029, 0x202f, 0x205f, 0x3000].contains c.toNat

/-- `str::trim`. -/
def trim (s : List Char) : List Char :=
  ((s.dropWhile isWhitespace).reverse.dropWhile isWhitespace).reverse

/-- Without a leading sign. -/
def unsigned : List Char → List Char
  | '+' :: rest => rest
  | s => s

/-- `parse::<u64>()`. -/
def parseU64 (s : List Char) : Option Nat :=
  let digits := unsigned s
  if digits.isEmpty || !digits.all Char.isDigit then none
  else
    let n := Nat.ofDigitChars 10 digits 0
    if n ≤ u64Max then some n else none

/-- The file is absent, or has some content. -/
def readConnIds (dataDir : String) : Option String → Except String (Option Nat)
  | none => .ok none
  | some s =>
    match parseU64 (trim s.toList) with
    | some n => .ok (some n)
    | none => .error s!"{dataDir}/{connIdsFile}: not a connection number: {s.quote}"

theorem trim_digits {s : List Char} (hs : ∀ d ∈ s, d.isDigit = true) : trim (s ++ ['\n']) = s := by
  have hwhite : ∀ d : Char, d.isDigit = true → isWhitespace d = false := by
    intro d hd
    have hd : 48 ≤ d.toNat ∧ d.toNat ≤ 57 := by
      simpa [Char.isDigit, UInt32.le_iff_toNat_le] using hd
    simp [isWhitespace]
    omega
  have hkeep : ∀ l : List Char, (∀ d ∈ l, d.isDigit = true) →
      l.dropWhile isWhitespace = l := by
    intro l hl
    cases l with
    | nil => rfl
    | cons d l =>
      rw [List.dropWhile_cons_of_neg]
      rw [hwhite d (hl d List.mem_cons_self)]
      exact Bool.false_ne_true
  unfold trim
  cases s with
  | nil => rfl
  | cons d s =>
    have hd := hwhite d (hs d List.mem_cons_self)
    rw [List.cons_append, List.dropWhile_cons_of_neg (by rw [hd]; exact Bool.false_ne_true),
      ← List.cons_append, List.reverse_append, List.reverse_singleton, List.singleton_append,
      List.dropWhile_cons_of_pos (by decide), hkeep, List.reverse_reverse]
    exact fun x hx => hs x (List.mem_reverse.mp hx)

/-- The number written is the number read. -/
theorem readConnIds_contents (dataDir : String) {n : Nat} (h : n ≤ u64Max) :
    readConnIds dataDir (some (contents n)) = .ok (some n) := by
  have hdigits : ∀ d ∈ Nat.toDigits 10 n, d.isDigit = true := fun d hd =>
    Nat.isDigit_of_mem_toDigits (by decide) (by decide) hd
  have hlist : (contents n).toList = Nat.toDigits 10 n ++ ['\n'] := by
    have hrepr : (toString n).toList = Nat.toDigits 10 n := Nat.toList_repr
    rw [contents, String.toList_append, hrepr]
    rfl
  have hparse : parseU64 (Nat.toDigits 10 n) = some n := by
    have hne : (Nat.toDigits 10 n).isEmpty = false := by
      rw [Nat.toDigits_eq_if (by decide)]
      split
      · rfl
      · exact List.isEmpty_eq_false_iff.mpr
          (List.append_ne_nil_of_right_ne_nil _ (List.cons_ne_nil _ _))
    have hsign : unsigned (Nat.toDigits 10 n) = Nat.toDigits 10 n := by
      unfold unsigned
      split
      next rest heq =>
        have hplus := hdigits '+' (by rw [heq]; exact List.mem_cons_self)
        exact absurd hplus (by decide)
      · rfl
    unfold parseU64
    dsimp only
    rw [hsign, hne, List.all_eq_true.mpr hdigits, Nat.ofDigitChars_toDigits (by decide) (by decide),
      if_pos h]
    rfl
  rw [readConnIds, hlist, trim_digits hdigits, hparse]

/-! ## The allocator -/

structure Block where
  next : Nat
  limit : Nat

structure ConnIdBlocks where
  node : NodeId
  path : String
  block : Nat
  state : Block

namespace ConnIdBlocks

/-- A new block, and the file after it. -/
def reserve (b : ConnIdBlocks) (file : Option String) (w : Write) :
    Except String ConnIdBlocks × Option String :=
  let limit := satAdd b.state.next b.block
  if b.state.next ≥ 1 <<< connSeqBits then
    (.error "connection numbers of this node are exhausted", file)
  else
    match w with
    | .done => (.ok { b with state := { b.state with limit } }, some (contents limit))
    | .failed new e => (.error s!"{b.path}: {e}", if new then some (contents limit) else file)

def «open» (dataDir : String) (node : NodeId) (first block : Nat) (file : Option String)
    (w : Write) : Except String ConnIdBlocks × Option String :=
  reserve
    { node, path := s!"{dataDir}/{connIdsFile}", block := max block 1, state := ⟨first, first⟩ }
    file w

/-- The number at `next` is taken. -/
def take (b : ConnIdBlocks) : ConnId × ConnIdBlocks :=
  (connId b.node b.state.next, { b with state := { b.state with next := b.state.next + 1 } })

/-- The next connection id, or `none` if no new block could be reserved. -/
def next (b : ConnIdBlocks) (file : Option String) (w : Write) :
    Option ConnId × ConnIdBlocks × Option String :=
  if b.state.next ≥ b.state.limit then
    match b.reserve file w with
    | (.error _, file) => (none, b, file)
    | (.ok b, file) => (some b.take.1, b.take.2, file)
  else (some b.take.1, b.take.2, file)

end ConnIdBlocks

/-! ## Processes of one node -/

/-- One process that computed its first number. -/
structure Life where
  first : Nat
  /-- The bounds of the `DropNode`s of this node created before. -/
  before : List Nat
  /-- The numbers it handed out, in order. -/
  handed : List Nat

/-- The processes so far are in `lives`, the newest first. -/
structure Lives where
  file : Option String := none
  /-- A process has computed its first number and not opened its blocks yet. -/
  starting : Bool := false
  ids : Option ConnIdBlocks := none
  lives : List Life := []
  log : List LogEntry := []
  drops : List Nat := []

inductive LifeAct where
  /-- A process starts, with the highest number its state knows and the clock. -/
  | start (highest unixSecs : Nat)
  | open (block : Nat) (w : Write)
  | next (w : Write)
  | crash
  | commit (ent : LogEntry)
  /-- A leader that has applied so many entries drops the node's connections. -/
  | leaderDrop (sh : Shared) (applied : Nat)
  /-- The startup cleanup of the running process. -/
  | ownDrop

namespace Lives

variable (dataDir : String) (node : NodeId)

/-- The `Connect`s of the node in an entry are of ids it handed out. -/
def genuine (w : Lives) (ent : LogEntry) : Bool :=
  (entryItems ent).all fun item =>
    match item.2 with
    | .connect conn => ownerOf conn ≠ node || w.lives.any (·.handed.any (conn = connId node ·))
    | _ => true

def act (w : Lives) : LifeAct → Lives
  | .start highest unixSecs =>
    if w.starting || w.ids.isSome then w
    else
      match readConnIds dataDir w.file with
      | .error _ => w
      | .ok persisted =>
        match firstLocal persisted highest unixSecs with
        | .error _ => w
        | .ok first => { w with starting := true, lives := ⟨first, w.drops, []⟩ :: w.lives }
  | .open block write =>
    match w.starting, w.lives with
    | true, life :: _ =>
      match ConnIdBlocks.open dataDir node life.first block w.file write with
      | (.ok ids, file) => { w with file, starting := false, ids := some ids }
      | (.error _, file) => { w with file, starting := false }
    | _, _ => w
  | .next write =>
    match w.ids, w.lives with
    | some b, life :: rest =>
      match b.next w.file write with
      | (some _, ids, file) =>
        let life := { life with handed := life.handed ++ [b.state.next] }
        { w with file, ids := some ids, lives := life :: rest }
      | (none, ids, file) => { w with file, ids := some ids }
    | _, _ => w
  | .crash => { w with starting := false, ids := none }
  | .commit ent => if w.genuine node ent then { w with log := w.log ++ [ent] } else w
  | .leaderDrop sh applied =>
    let core := ((Core.fresh sh).applyLog sh (w.log.take applied)).core
    { w with drops := w.drops ++ [core.highestLocal node] }
  | .ownDrop =>
    match w.ids, w.lives with
    | some _, life :: _ => { w with drops := w.drops ++ [life.first - 1] }
    | _, _ => w

def run (acts : List LifeAct) : Lives := acts.foldl (act dataDir node) {}

end Lives

/-! ## The highest number of a state -/

section

variable {n node : NodeId} {P : Nat → Prop} {c : Core} {now : Nanos} {sh : Shared}

/-- The highest number of node `n` has the property. -/
def Highest (P : Nat → Prop) (n : NodeId) (c : Core) : Prop :=
  ∀ h, c.smMeta.highestLocal[n]? = some h → P h

theorem applyConn_highest {seq : Nat} {input : EngineInput} (h : Highest P n c)
    (hinput : ∀ conn, input = .connect conn → ownerOf conn = n → P (localOf conn)) :
    Highest P n (c.applyConn node now seq input).core := by
  unfold Core.applyConn
  split
  · exact h
  next conn hconn =>
    split
    · exact h
    cases input with
    | connect d =>
      obtain rfl : d = conn := Option.some.inj hconn
      intro k hk
      have hk : (c.smMeta.highestLocal.insert (ownerOf d) (localOf d))[n]? = some k := hk
      rw [ExtTreeMap.getElem?_insert] at hk
      split at hk
      next heq =>
        rw [← Option.some.inj hk]
        exact hinput d rfl (LawfulEqOrd.eq_of_compare heq)
      · exact h k hk
    | _ => exact h

theorem applyBatch_highest {items : List (Nat × EngineInput)} (h : Highest P n c)
    (hitems : ∀ item ∈ items, ∀ conn, item.2 = .connect conn → ownerOf conn = n → P (localOf conn))
    : Highest P n (Core.applyBatch node now c items).core := by
  induction items generalizing c with
  | nil => exact h
  | cons item items ih =>
    obtain ⟨hitem, hrest⟩ := List.forall_mem_cons.mp hitems
    exact ih (applyConn_highest h hitem) hrest

theorem dropConns_highest {conns : List ConnId} (h : Highest P n c) :
    Highest P n (Core.dropConns sh node now c conns).core := by
  induction conns generalizing c with
  | nil => exact h
  | cons conn conns ih => exact ih h

theorem applyEntry_highest {ent : LogEntry} (h : Highest P n c)
    (hitems : ∀ item ∈ entryItems ent, ∀ conn, item.2 = .connect conn → ownerOf conn = n →
      P (localOf conn)) : Highest P n (c.applyEntry sh ent).core := by
  unfold Core.applyEntry
  split
  · exact h
  obtain ⟨index, payload⟩ := ent
  cases payload with
  | blank | membership => exact h
  | normal req =>
    obtain ⟨now, op⟩ := req
    cases op with
    | conn seq input => exact applyConn_highest h (hitems _ (List.mem_singleton_self _))
    | batch items => exact applyBatch_highest h hitems
    | tick | setDraining => exact h
    | dropNode node upTo => exact dropConns_highest h

theorem applyLog_highest {ents : List LogEntry} (h : Highest P n c)
    (hitems : ∀ ent ∈ ents, ∀ item ∈ entryItems ent, ∀ conn, item.2 = .connect conn →
      ownerOf conn = n → P (localOf conn)) : Highest P n (c.applyLog sh ents).core := by
  induction ents generalizing c with
  | nil => exact h
  | cons ent ents ih =>
    obtain ⟨hent, hrest⟩ := List.forall_mem_cons.mp hitems
    exact ih (applyEntry_highest h hent) hrest

end

/-! ## What a `DropNode` closes -/

section

variable {sh : Shared} {n : NodeId} {now : Nanos} {conn : ConnId} {conns : List ConnId}

theorem dropConn_conns (c : Core) (d : ConnId) :
    (c.dropConn sh n now d).core.engine.conns.contains conn =
      (c.engine.conns.contains conn && decide (conn ≠ d)) :=
  Engine.applyInput_conns _ _ (.disconnect d) conn

theorem dropConns_conns (c : Core) :
    (Core.dropConns sh n now c conns).core.engine.conns.contains conn =
      (c.engine.conns.contains conn && decide (conn ∉ conns)) := by
  induction conns generalizing c with
  | nil =>
    rw [decide_eq_true (List.not_mem_nil), Bool.and_true]
    rfl
  | cons d conns ih =>
    have hrest := ih (c.dropConn sh n now d).core
    rw [dropConn_conns] at hrest
    refine hrest.trans ?_
    rw [Bool.and_assoc, ← Bool.decide_and]
    congr 2
    rw [List.mem_cons, not_or]

theorem dropConns_nextSeq (hnot : conn ∉ conns) (c : Core) :
    (Core.dropConns sh n now c conns).core.smMeta.nextSeq[conn]? = c.smMeta.nextSeq[conn]? := by
  induction conns generalizing c with
  | nil => rfl
  | cons d conns ih =>
    rw [List.mem_cons, not_or] at hnot
    refine (ih hnot.2 _).trans ?_
    exact TreeMap.getElem?_erase_ne (Ne.symm hnot.1)

variable {upTo : Nat}

/-- The connections that an entry drops. -/
theorem mem_dropped {c : Core} :
    conn ∈ c.engine.conns.keys.filter (fun d => ownerOf d = n && localOf d ≤ upTo) ↔
      c.engine.conns.contains conn = true ∧ ownerOf conn = n ∧ localOf conn ≤ upTo := by
  rw [List.mem_filter, ExtTreeMap.mem_keys, ExtTreeMap.mem_iff_contains, Bool.and_eq_true,
    decide_eq_true_eq, decide_eq_true_eq]

/-- A `DropNode` leaves every connection above its bound as it is. -/
theorem dropNode_spares (h : upTo < localOf conn) (c : Core) :
    let o := c.applyRequest sh ⟨now, .dropNode n upTo⟩
    o.core.engine.conns.contains conn =
        (c.begin sh ⟨now, .dropNode n upTo⟩).engine.conns.contains conn ∧
      o.core.smMeta.nextSeq[conn]? = c.smMeta.nextSeq[conn]? := by
  have hnot : conn ∉ ((c.begin sh ⟨now, .dropNode n upTo⟩).engine.conns.keys.filter
      fun d => ownerOf d = n && localOf d ≤ upTo) := fun hmem =>
    Nat.not_le.mpr h (mem_dropped.mp hmem).2.2
  refine ⟨(dropConns_conns _).trans ?_, dropConns_nextSeq hnot _⟩
  rw [decide_eq_true hnot, Bool.and_true]

/-- A `DropNode` closes every connection of the node up to its bound. -/
theorem dropNode_closes (hown : ownerOf conn = n) (hle : localOf conn ≤ upTo) (c : Core) :
    (c.applyRequest sh ⟨now, .dropNode n upTo⟩).core.engine.conns.contains conn = false := by
  refine (dropConns_conns _).trans ?_
  rw [Bool.and_eq_false_iff, decide_eq_false_iff_not, not_not, or_iff_not_imp_left,
    Bool.not_eq_false]
  exact fun hopen => mem_dropped.mpr ⟨hopen, hown, hle⟩

end

/-! ## What the operations of a process do -/

theorem firstLocal_ok {persisted : Option Nat} {highest unixSecs first : Nat}
    (h : firstLocal persisted highest unixSecs = .ok first) :
    persisted.getD 0 ≤ first ∧ 1 ≤ first ∧ first < 2 ^ connSeqBits := by
  simp only [firstLocal, Nat.one_shiftLeft] at h
  split at h
  · cases h
  split at h
  · cases h
  next hlt =>
    obtain rfl := Except.ok.inj h
    exact ⟨(le_max_left _ _).trans (le_max_left _ _),
      (Nat.le_add_left 1 highest).trans ((le_max_right _ _).trans (le_max_left _ _)),
      Nat.not_le.mp hlt⟩

namespace ConnIdBlocks

/-- The end of the block that `reserve` writes. -/
def newLimit (b : ConnIdBlocks) : Nat := satAdd b.state.next b.block

variable {b b' : ConnIdBlocks} {file file' : Option String} {w : Write}

theorem newLimit_le (b : ConnIdBlocks) : b.newLimit ≤ u64Max := min_le_right _ _

theorem le_newLimit (h : b.state.next ≤ u64Max) : b.state.next ≤ b.newLimit :=
  le_min (Nat.le_add_right _ _) h

theorem lt_newLimit (h : b.state.next < 2 ^ connSeqBits) (hblock : 1 ≤ b.block) :
    b.state.next < b.newLimit :=
  lt_min (Nat.lt_add_of_pos_right hblock) (Nat.lt_of_lt_of_le h (by decide))

/-- Whether it succeeds or not, the file is the old one or names the new limit. -/
theorem reserve_file :
    (b.reserve file w).2 = file ∨ (b.reserve file w).2 = some (contents b.newLimit) := by
  unfold reserve
  split
  · exact .inl rfl
  cases w with
  | done => exact .inr rfl
  | failed new e =>
    cases new with
    | false => exact .inl rfl
    | true => exact .inr rfl

theorem reserve_ok (h : b.reserve file w = (.ok b', file')) :
    b.state.next < 2 ^ connSeqBits ∧ b' = { b with state := ⟨b.state.next, b.newLimit⟩ } ∧
      file' = some (contents b.newLimit) := by
  simp only [reserve, Nat.one_shiftLeft] at h
  split at h
  · cases h
  next hlt =>
    cases w with
    | done =>
      cases h
      exact ⟨Nat.not_le.mp hlt, rfl, rfl⟩
    | failed new e => cases h

/-- A number is handed out below the limit of the block, which the file names. -/
theorem next_some {id : ConnId} (h : b.next file w = (some id, b', file')) :
    ∃ limit, id = connId b.node b.state.next ∧ b' = { b with state := ⟨b.state.next + 1, limit⟩ } ∧
      ((limit = b.state.limit ∧ b.state.next < limit ∧ file' = file) ∨
        (limit = b.newLimit ∧ b.state.next < 2 ^ connSeqBits ∧ file' = some (contents limit))) := by
  unfold next at h
  split at h
  · split at h
    · cases h
    next b₁ file₁ hres =>
      obtain ⟨hlt, rfl, rfl⟩ := reserve_ok hres
      cases h
      exact ⟨b.newLimit, rfl, rfl, .inr ⟨rfl, hlt, rfl⟩⟩
  next hlt =>
    cases h
    exact ⟨b.state.limit, rfl, rfl, .inl ⟨rfl, Nat.not_le.mp hlt, rfl⟩⟩

theorem next_none (h : b.next file w = (none, b', file')) :
    b' = b ∧ b.state.limit ≤ b.state.next ∧
      (file' = file ∨ file' = some (contents b.newLimit)) := by
  unfold next at h
  split at h
  next hle =>
    split at h
    next e file₁ hres =>
      cases h
      refine ⟨rfl, hle, ?_⟩
      have hfile : (b.reserve file w).2 = file ∨
          (b.reserve file w).2 = some (contents b.newLimit) :=
        reserve_file
      rwa [hres] at hfile
    · cases h
  · cases h

end ConnIdBlocks

/-! ## What holds through all processes -/

/-- The numbers of one process increase from its first one, and no `DropNode` from
before it reaches them. -/
structure Life.Ordered (life : Life) : Prop where
  first_pos : 1 ≤ life.first
  increasing : life.handed.Pairwise (· < ·)
  from_first : ∀ n ∈ life.handed, life.first ≤ n
  before : ∀ d ∈ life.before, d < life.first

namespace Lives

/-- Every number handed out and every bound of a `DropNode` is below `limit`; a
leader that knows no connection of the node has the bound 0. -/
structure Under (lives : List Life) (drops : List Nat) (limit : Nat) : Prop where
  handed : ∀ life ∈ lives, ∀ n ∈ life.handed, n < limit
  drops : ∀ d ∈ drops, d = 0 ∨ d < limit

/-- The running process: its next number is above all others. -/
structure Running (node : NodeId) (lives : List Life) (drops : List Nat) (saved : Nat)
    (b : ConnIdBlocks) (life : Life) : Prop where
  node_eq : b.node = node
  block_pos : 1 ≤ b.block
  under : Under lives drops b.state.next
  first_le : life.first ≤ b.state.next
  next_le : b.state.next ≤ b.state.limit
  limit_le : b.state.limit ≤ saved

/-- A process that has its first number and no block yet. -/
structure Starting (lives : List Life) (drops : List Nat) (life : Life) : Prop where
  none_handed : life.handed = []
  first_lt : life.first < 2 ^ connSeqBits
  under : Under lives drops life.first

/-- What holds after every step; `saved` is the number in the file. -/
structure Inv (node : NodeId) (w : Lives) (saved : Nat) : Prop where
  file : w.file = some (contents saved) ∨ w.file = none ∧ saved = 0
  saved_le : saved ≤ u64Max
  under : Under w.lives w.drops saved
  running : ∀ b, w.ids = some b →
    ∃ life rest, w.lives = life :: rest ∧ Running node w.lives w.drops saved b life
  starting : w.starting = true →
    ∃ life rest, w.lives = life :: rest ∧ Starting w.lives w.drops life
  one : w.starting = true → w.ids = none
  logged : ∀ ent ∈ w.log, w.genuine node ent = true
  ordered : ∀ life ∈ w.lives, life.Ordered
  newer : w.lives.Pairwise fun life older => ∀ n ∈ older.handed, n < life.first

variable {dataDir : String} {node : NodeId} {w : Lives} {saved limit : Nat} {file : Option String}
  {b : ConnIdBlocks} {lives : List Life} {drops : List Nat}

theorem Under.mono {limit' : Nat} (h : Under lives drops limit) (hle : limit ≤ limit') :
    Under lives drops limit' :=
  ⟨fun life hlife n hn => (h.handed life hlife n hn).trans_le hle,
    fun d hd => (h.drops d hd).imp_right fun hlt => hlt.trans_le hle⟩

/-- Another bound is below the limit as well. -/
theorem Under.drop {d : Nat} (h : Under lives drops limit) (hd : d = 0 ∨ d < limit) :
    Under lives (drops ++ [d]) limit :=
  ⟨h.handed, List.forall_mem_append.mpr ⟨h.drops, List.forall_mem_singleton.mpr hd⟩⟩

/-- A new `DropNode` whose bound is below the number in the file and the next number. -/
theorem Inv.drop {d : Nat} (h : Inv node w saved)
    (hd : ∀ limit, Under w.lives w.drops limit → (∀ b, w.ids = some b → b.state.next ≤ limit) →
      d = 0 ∨ d < limit) : Inv node { w with drops := w.drops ++ [d] } saved :=
  { h with
    under := h.under.drop <| hd _ h.under fun b hb => by
      obtain ⟨_, _, _, hrun⟩ := h.running b hb
      exact hrun.next_le.trans hrun.limit_le
    running := fun b hb => by
      obtain ⟨life, rest, hlives, hrun⟩ := h.running b hb
      refine ⟨life, rest, hlives, { hrun with under := hrun.under.drop (hd _ hrun.under ?_) }⟩
      intro b' hb'
      cases (hb.symm.trans hb')
      exact le_rfl
    starting := fun hs => by
      obtain ⟨life, rest, hlives, hstart⟩ := h.starting hs
      refine ⟨life, rest, hlives, { hstart with under := hstart.under.drop (hd _ hstart.under ?_) }⟩
      intro b hb
      rw [h.one hs] at hb
      cases hb }

/-! ### Entries of the log -/

theorem genuine_connect {ent : LogEntry} (h : w.genuine node ent = true)
    {item : Nat × EngineInput} (hitem : item ∈ entryItems ent) {conn : ConnId}
    (hconn : item.2 = .connect conn) (hown : ownerOf conn = node) :
    ∃ life ∈ w.lives, ∃ n ∈ life.handed, conn = connId node n := by
  have hall := List.all_eq_true.mp h item hitem
  rw [hconn] at hall
  simpa [hown] using hall

/-- A process that hands out one more number still stands behind the log. -/
theorem genuine_mono {ent : LogEntry} {w' : Lives} (h : w.genuine node ent = true)
    (hlives : ∀ life ∈ w.lives, ∃ life' ∈ w'.lives, life.handed ⊆ life'.handed) :
    w'.genuine node ent = true := by
  refine List.all_eq_true.mpr fun item hitem => ?_
  have hall := List.all_eq_true.mp h item hitem
  split
  next conn hconn =>
    rw [hconn] at hall
    rw [Bool.or_eq_true] at hall ⊢
    refine hall.imp_right fun hany => ?_
    obtain ⟨life, hlife, hn⟩ := List.any_eq_true.mp hany
    obtain ⟨n, hmem, heq⟩ := List.any_eq_true.mp hn
    obtain ⟨life', hlife', hsub⟩ := hlives life hlife
    exact List.any_eq_true.mpr ⟨life', hlife', List.any_eq_true.mpr ⟨n, hsub hmem, heq⟩⟩
  · rfl

section

variable (h : Inv node w saved)
include h

/-- What a leader has seen of the node was handed out before. -/
theorem Inv.highest_under (sh : Shared) (applied : Nat) (hunder : Under w.lives w.drops limit) :
    ((Core.fresh sh).applyLog sh (w.log.take applied)).core.highestLocal node = 0 ∨
      ((Core.fresh sh).applyLog sh (w.log.take applied)).core.highestLocal node < limit := by
  have hhigh : Highest (· < limit) node
      ((Core.fresh sh).applyLog sh (w.log.take applied)).core := by
    refine applyLog_highest (fun k hk => ?_) fun ent hent item hitem conn hconn hown => ?_
    · have hnone : (∅ : ExtTreeMap NodeId Nat)[node]? = some k := hk
      cases hnone
    have hgen := h.logged ent (List.mem_of_mem_take hent)
    obtain ⟨life, hlife, n, hn, rfl⟩ := genuine_connect hgen hitem hconn hown
    exact (localOf_connId_le node n).trans_lt (hunder.handed life hlife n hn)
  rw [Core.highestLocal]
  cases hk : ((Core.fresh sh).applyLog sh (w.log.take applied)).core.smMeta.highestLocal[node]? with
  | none => exact .inl rfl
  | some k => exact .inr (hhigh k hk)

/-! ### The steps -/

theorem Inv.start (highest unixSecs : Nat) :
    Inv node (w.act dataDir node (.start highest unixSecs)) saved := by
  simp only [act]
  split
  · exact h
  next hidle =>
    rw [Bool.or_eq_true, not_or, Bool.not_eq_true, Bool.not_eq_true, Option.isSome_eq_false_iff,
      Option.isNone_iff_eq_none] at hidle
    have hread : readConnIds dataDir w.file = .ok (some saved) ∨
        readConnIds dataDir w.file = .ok none ∧ saved = 0 := by
      rcases h.file with hfile | ⟨hfile, hzero⟩
      · rw [hfile]
        exact .inl (readConnIds_contents dataDir h.saved_le)
      · rw [hfile]
        exact .inr ⟨rfl, hzero⟩
    split
    · exact h
    next persisted hper =>
      split
      · exact h
      next first hfirst =>
        obtain ⟨hle, hpos, hlt⟩ := firstLocal_ok hfirst
        have hsaved : saved ≤ first := by
          rcases hread with hread | ⟨-, hzero⟩
          · rw [hread] at hper
            rw [← Except.ok.inj hper] at hle
            exact hle
          · omega
        have hunder : Under w.lives w.drops first := h.under.mono hsaved
        have hnew : Life.Ordered ⟨first, w.drops, []⟩ :=
          ⟨hpos, List.Pairwise.nil, fun n hn => (nomatch hn),
            fun d hd => (hunder.drops d hd).elim (fun hzero => hzero ▸ hpos) id⟩
        have hcons : ∀ limit, Under w.lives w.drops limit →
            Under (⟨first, w.drops, []⟩ :: w.lives) w.drops limit :=
          fun limit hl => ⟨List.forall_mem_cons.mpr ⟨fun n hn => (nomatch hn), hl.handed⟩, hl.drops⟩
        exact
          { h with
            under := hcons _ h.under
            running := fun b hb => by
              rw [show w.ids = none from hidle.2] at hb
              cases hb
            starting := fun _ => ⟨_, _, rfl, rfl, hlt, hcons _ hunder⟩
            one := fun _ => hidle.2
            logged := fun ent hent => genuine_mono (h.logged ent hent)
              fun life hlife => ⟨life, List.mem_cons_of_mem _ hlife, List.Subset.refl _⟩
            ordered := List.forall_mem_cons.mpr ⟨hnew, h.ordered⟩
            newer := List.pairwise_cons.mpr ⟨hunder.handed, h.newer⟩ }

/-- No process runs, and the file names a number above all others. -/
theorem Inv.stopped {saved' : Nat}
    (hfile : file = some (contents saved') ∨ file = none ∧ saved' = 0) (hle : saved' ≤ u64Max)
    (hunder : Under w.lives w.drops saved') :
    Inv node { w with file, starting := false, ids := none } saved' :=
  { h with
    file := hfile
    saved_le := hle
    under := hunder
    running := fun _ hb => nomatch hb
    starting := fun hs => nomatch hs
    one := fun _ => rfl }

theorem Inv.opened (block : Nat) (write : Write) :
    ∃ saved', Inv node (w.act dataDir node (.open block write)) saved' := by
  simp only [act]
  split
  next life rest hstarting hlives =>
    obtain ⟨life', rest', heq, hstart⟩ := h.starting hstarting
    obtain ⟨rfl, rfl⟩ := List.cons.inj (hlives.symm.trans heq)
    -- the blocks before `reserve`
    let b : ConnIdBlocks :=
      { node, path := s!"{dataDir}/{connIdsFile}", block := max block 1
        state := ⟨life.first, life.first⟩ }
    have hlt : life.first < b.newLimit := b.lt_newLimit hstart.first_lt (le_max_right _ _)
    have hnew : Under w.lives w.drops b.newLimit := hstart.under.mono hlt.le
    split
    next ids file hopen =>
      obtain ⟨-, rfl, rfl⟩ := ConnIdBlocks.reserve_ok hopen
      exact ⟨b.newLimit,
        { h with
          file := .inl rfl
          saved_le := b.newLimit_le
          under := hnew
          running := fun b' hb' => by
            cases hb'
            exact ⟨life, rest, hlives, rfl, le_max_right _ _, hstart.under, le_rfl, hlt.le, le_rfl⟩
          starting := fun hs => nomatch hs
          one := fun hs => nomatch hs }⟩
    next e file hopen =>
      have hfile : file = w.file ∨ file = some (contents b.newLimit) := by
        have hres : (b.reserve w.file write).2 = file := congrArg Prod.snd hopen
        rw [← hres]
        exact b.reserve_file
      rw [h.one hstarting]
      rcases hfile with rfl | rfl
      · exact ⟨saved, h.stopped h.file h.saved_le h.under⟩
      · exact ⟨b.newLimit, h.stopped (.inl rfl) b.newLimit_le hnew⟩
  · exact ⟨saved, h⟩

/-- The running process hands out its next number. -/
theorem Inv.handed {life : Life} {rest : List Life} (hids : w.ids = some b)
    (hlives : w.lives = life :: rest) {saved' : Nat}
    (hfile : file = some (contents saved') ∨ file = none ∧ saved' = 0) (hle : saved' ≤ u64Max)
    (hlimit : limit ≤ saved') (hnext : b.state.next < limit) :
    Inv node
      { w with
        file
        ids := some { b with state := ⟨b.state.next + 1, limit⟩ }
        lives := { life with handed := life.handed ++ [b.state.next] } :: rest } saved' := by
  obtain ⟨life', rest', heq, hrun⟩ := h.running b hids
  obtain ⟨rfl, rfl⟩ := List.cons.inj (hlives.symm.trans heq)
  have hunder := hrun.under
  have hordered := h.ordered
  have hnewer := h.newer
  rw [hlives] at hordered hnewer
  obtain ⟨hlife, hrest⟩ := List.forall_mem_cons.mp hordered
  obtain ⟨hhead, htail⟩ := List.pairwise_cons.mp hnewer
  have hbelow : ∀ n ∈ life.handed, n < b.state.next :=
    hunder.handed life (hlives ▸ List.mem_cons_self)
  have hmore : Under ({ life with handed := life.handed ++ [b.state.next] } :: rest) w.drops
      (b.state.next + 1) := by
    refine ⟨List.forall_mem_cons.mpr ⟨List.forall_mem_append.mpr ⟨fun n hn => ?_,
      List.forall_mem_singleton.mpr (Nat.lt_succ_self _)⟩, fun l hl n hn => ?_⟩,
      fun d hd => (hunder.drops d hd).imp_right Nat.lt_succ_of_lt⟩
    · exact Nat.lt_succ_of_lt (hbelow n hn)
    · exact Nat.lt_succ_of_lt (hunder.handed l (hlives ▸ List.mem_cons_of_mem _ hl) n hn)
  have hgrown : Life.Ordered { life with handed := life.handed ++ [b.state.next] } := by
    refine ⟨hlife.first_pos, List.pairwise_append.mpr
      ⟨hlife.increasing, List.pairwise_singleton _ _,
      fun n hn => List.forall_mem_singleton.mpr (hbelow n hn)⟩, ?_, hlife.before⟩
    exact List.forall_mem_append.mpr
      ⟨hlife.from_first, List.forall_mem_singleton.mpr hrun.first_le⟩
  exact
    { file := hfile
      saved_le := hle
      under := hmore.mono (hnext.trans_le hlimit)
      running := fun b' hb' => by
        cases hb'
        exact ⟨_, _, rfl, hrun.node_eq, hrun.block_pos, hmore, Nat.le_succ_of_le hrun.first_le,
          hnext, hlimit⟩
      starting := fun hs => by
        rw [h.one hs] at hids
        cases hids
      one := fun hs => by
        rw [h.one hs] at hids
        cases hids
      logged := fun ent hent => genuine_mono (h.logged ent hent) fun l hl => by
        rw [hlives, List.mem_cons] at hl
        rcases hl with rfl | hl
        · exact ⟨_, List.mem_cons_self, List.subset_append_left _ _⟩
        · exact ⟨l, List.mem_cons_of_mem _ hl, List.Subset.refl _⟩
      ordered := List.forall_mem_cons.mpr ⟨hgrown, hrest⟩
      newer := List.pairwise_cons.mpr ⟨hhead, htail⟩ }

/-- No block could be reserved; the file may name the new limit all the same. -/
theorem Inv.refused (hids : w.ids = some b) (hfull : b.state.limit ≤ b.state.next) :
    Inv node { w with file := some (contents b.newLimit), ids := some b } b.newLimit := by
  obtain ⟨life, rest, hlives, hrun⟩ := h.running b hids
  have hle : b.state.next ≤ b.newLimit :=
    b.le_newLimit ((hrun.next_le.trans hrun.limit_le).trans h.saved_le)
  exact
    { h with
      file := .inl rfl
      saved_le := b.newLimit_le
      under := hrun.under.mono hle
      running := fun b' hb' => by
        cases hb'
        exact ⟨life, rest, hlives, { hrun with limit_le := hfull.trans hle }⟩
      one := fun hs => by
        rw [h.one hs] at hids
        cases hids }

theorem Inv.next (write : Write) :
    ∃ saved', Inv node (w.act dataDir node (.next write)) saved' := by
  simp only [act]
  split
  next b life rest hids hlives =>
    obtain ⟨_, _, _, hrun⟩ := h.running b hids
    split
    next id ids file hnext =>
      obtain ⟨limit, -, rfl, hcase⟩ := ConnIdBlocks.next_some hnext
      rcases hcase with ⟨rfl, hlt, rfl⟩ | ⟨rfl, hlt, rfl⟩
      · exact ⟨saved, h.handed hids hlives h.file h.saved_le hrun.limit_le hlt⟩
      · exact ⟨b.newLimit, h.handed hids hlives (.inl rfl) b.newLimit_le le_rfl
          (b.lt_newLimit hlt hrun.block_pos)⟩
    next ids file hnext =>
      obtain ⟨rfl, hfull, rfl | rfl⟩ := ConnIdBlocks.next_none hnext
      · rw [← hids]
        exact ⟨saved, h⟩
      · exact ⟨_, h.refused hids hfull⟩
  · exact ⟨saved, h⟩

theorem Inv.commit (ent : LogEntry) : Inv node (w.act dataDir node (.commit ent)) saved := by
  simp only [act]
  split
  next hgen =>
    exact { h with
      logged := List.forall_mem_append.mpr ⟨h.logged, List.forall_mem_singleton.mpr hgen⟩ }
  · exact h

theorem Inv.ownDrop : Inv node (w.act dataDir node .ownDrop) saved := by
  simp only [act]
  split
  next b life rest hids hlives =>
    refine h.drop fun limit _ hle => ?_
    obtain ⟨life', rest', heq, hrun⟩ := h.running b hids
    obtain ⟨rfl, rfl⟩ := List.cons.inj (hlives.symm.trans heq)
    have hfirst := hrun.first_le.trans (hle b hids)
    omega
  · exact h

theorem Inv.act (a : LifeAct) : ∃ saved', Inv node (w.act dataDir node a) saved' := by
  cases a with
  | start highest unixSecs => exact ⟨saved, h.start highest unixSecs⟩
  | «open» block write => exact h.opened block write
  | next write => exact h.next write
  | crash => exact ⟨saved, h.stopped h.file h.saved_le h.under⟩
  | commit ent => exact ⟨saved, h.commit ent⟩
  | leaderDrop sh applied =>
    exact ⟨saved, h.drop fun limit hunder _ => h.highest_under sh applied hunder⟩
  | ownDrop => exact ⟨saved, h.ownDrop⟩

end

theorem inv_run (acts : List LifeAct) : ∃ saved, Inv node (run dataDir node acts) saved := by
  have hstep : ∀ (l : List LifeAct) (w : Lives), (∃ saved, Inv node w saved) →
      ∃ saved, Inv node (l.foldl (Lives.act dataDir node) w) saved := by
    intro l
    induction l with
    | nil => exact fun w h => h
    | cons a l ih =>
      rintro w ⟨saved, h⟩
      exact ih _ (h.act a)
  refine hstep acts {} ⟨0, ?_⟩
  exact
    { file := .inr ⟨rfl, rfl⟩
      saved_le := Nat.zero_le _
      under := ⟨fun life hlife => (nomatch hlife), fun d hd => (nomatch hd)⟩
      running := fun b hb => nomatch hb
      starting := fun hs => nomatch hs
      one := fun hs => nomatch hs
      logged := fun ent hent => nomatch hent
      ordered := fun life hlife => nomatch hlife
      newer := List.Pairwise.nil }

/-- The numbers of all processes, oldest first. -/
def numbers (w : Lives) : List Nat := w.lives.reverse.flatMap (·.handed)

theorem Inv.numbers_increasing (h : Inv node w saved) : w.numbers.Pairwise (· < ·) := by
  refine List.pairwise_flatMap.mpr
    ⟨fun life hlife => (h.ordered life (List.mem_reverse.mp hlife)).increasing, ?_⟩
  rw [List.pairwise_reverse]
  refine h.newer.imp_of_mem fun {life older} hlife _ hlt n hn m hm => ?_
  exact (hlt n hn).trans_le ((h.ordered life hlife).from_first m hm)

end Lives

/-- An entry `DropNode` of the node leaves the connection as it is, in every state. -/
def Spares (node : NodeId) (upTo : Nat) (conn : ConnId) : Prop :=
  ∀ (sh : Shared) (now : Nanos) (c : Core),
    let req : Request := ⟨now, .dropNode node upTo⟩
    (c.applyRequest sh req).core.engine.conns.contains conn =
        (c.begin sh req).engine.conns.contains conn ∧
      (c.applyRequest sh req).core.smMeta.nextSeq[conn]? = c.smMeta.nextSeq[conn]?

/-- After an entry `DropNode` of the node the connection is not open, in any state. -/
def Closes (node : NodeId) (upTo : Nat) (conn : ConnId) : Prop :=
  ∀ (sh : Shared) (now : Nanos) (c : Core),
    (c.applyRequest sh ⟨now, .dropNode node upTo⟩).core.engine.conns.contains conn = false

/-- Through any number of processes of a node, numbers below `2 ^ 48` increase. No
`DropNode` from before a process started reaches its connections; its own one
closes those of the processes before it and none of its own. -/
theorem conn_numbers_increase (dataDir : String) (node : NodeId) (acts : List LifeAct)
    (hsmall : ∀ n ∈ (Lives.run dataDir node acts).numbers, n < 2 ^ connSeqBits) :
    (Lives.run dataDir node acts).numbers.Pairwise (· < ·) ∧
      ∀ newer life older, (Lives.run dataDir node acts).lives = newer ++ life :: older →
        (∀ d ∈ life.before, d < life.first ∧
          ∀ n ∈ life.handed, Spares node d (connId node n)) ∧
        (∀ n ∈ life.handed, Spares node (life.first - 1) (connId node n)) ∧
        ∀ l ∈ older, ∀ n ∈ l.handed, Closes node (life.first - 1) (connId node n) := by
  obtain ⟨saved, h⟩ : ∃ saved, Lives.Inv node (Lives.run dataDir node acts) saved :=
    Lives.inv_run acts
  refine ⟨h.numbers_increasing, fun newer life older hlives => ?_⟩
  have hmem : life ∈ (Lives.run dataDir node acts).lives := by
    rw [hlives]
    exact List.mem_append_right _ List.mem_cons_self
  have hsmall' : ∀ l ∈ (Lives.run dataDir node acts).lives, ∀ n ∈ l.handed, n < 2 ^ connSeqBits :=
    fun l hl n hn => hsmall n (List.mem_flatMap.mpr ⟨l, List.mem_reverse.mpr hl, hn⟩)
  have hordered := h.ordered life hmem
  have hspares : ∀ d, d < life.first → ∀ n ∈ life.handed, Spares node d (connId node n) := by
    intro d hd n hn sh now c
    refine dropNode_spares ?_ c
    rw [localOf_connId (hsmall' life hmem n hn)]
    exact hd.trans_le (hordered.from_first n hn)
  have holder : ∀ l ∈ older, l ∈ (Lives.run dataDir node acts).lives := fun l hl => by
    rw [hlives]
    exact List.mem_append_right _ (List.mem_cons_of_mem _ hl)
  refine ⟨fun d hd => ⟨hordered.before d hd, hspares d (hordered.before d hd)⟩,
    hspares _ (Nat.sub_lt hordered.first_pos Nat.one_pos), ?_⟩
  intro l hl n hn sh now c
  have hlt : n < life.first := by
    have hnewer := h.newer
    rw [hlives] at hnewer
    exact (List.pairwise_cons.mp (List.pairwise_append.mp hnewer).2.1).1 l hl n hn
  have hn48 := hsmall' l (holder l hl) n hn
  refine dropNode_closes (ownerOf_connId hn48 node) ?_ c
  rw [localOf_connId hn48]
  exact Nat.le_sub_one_of_lt hlt

/-- The first process crashes inside `reserve`, after the new limit got into the
file; a leader that applied its first `Connect` then drops the node. -/
def crashInReserve : List LifeAct :=
  [.start 0 0, .open 2 .done, .next .done, .ownDrop,
    .commit ⟨1, .normal ⟨5, .conn 1 (.connect (connId 1 1))⟩⟩,
    .next .done, .next (.failed true "no space left on device"), .crash,
    .leaderDrop idleNode 1, .start 0 0, .open 2 .done, .next .done, .next .done, .ownDrop]

theorem numbers_after_crash :
    ((Lives.run "data" 1 crashInReserve).lives.map fun l => (l.first, l.before, l.handed)) =
        [(5, [0, 1], [5, 6]), (1, [], [1, 2])] ∧
      ∀ newer life older, (Lives.run "data" 1 crashInReserve).lives = newer ++ life :: older →
        (∀ n ∈ life.handed, Spares 1 (life.first - 1) (connId 1 n)) ∧
        ∀ l ∈ older, ∀ n ∈ l.handed, Closes 1 (life.first - 1) (connId 1 n) :=
  ⟨by decide +kernel, fun newer life older h =>
    ((conn_numbers_increase "data" 1 crashInReserve (by decide +kernel)).2 newer life older h).2⟩

end Beanstalkd.Server
