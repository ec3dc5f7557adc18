import Mathlib.Data.Finset.Sort
import Mathlib.Data.Prod.Lex
import Beanstalkd.Lib.TreeMap

/-!
# Raft's vocabulary

The openraft types the cluster crate reads (`Vote`, `LogId`, `Membership`) and
the answers to status probes (`crates/raft/src/status.rs`). A `BTreeSet` of node
ids is a `Finset`, a `BTreeMap` an `ExtTreeMap`.

Votes are ordered as openraft orders them without its `single-term-leader`
feature: by leader id, which is the term and then the node, and then by
`committed`. That order is total.
-/

open Std

namespace Beanstalkd.Raft

abbrev NodeId := Nat

/-- `MAX_NODE_ID`. -/
def maxNodeId : NodeId := 2 ^ 16 - 1

structure Vote where
  term : Nat
  node : NodeId
  committed : Bool
  deriving DecidableEq

namespace Vote

def key (v : Vote) : Nat ×ₗ NodeId ×ₗ Bool := toLex (v.term, toLex (v.node, v.committed))

theorem key_injective : Function.Injective key := by
  intro a b h
  cases a
  cases b
  cases h
  rfl

instance : LinearOrder Vote := LinearOrder.lift' key key_injective

/-- `Vote::partial_cmp`. It always answers: leader ids are totally ordered. -/
def partialCmp (a b : Vote) : Option Ordering := some (cmp a b)

/-- `Display for Vote`. -/
def display (v : Vote) : String :=
  s!"T{v.term}-N{v.node}:" ++ if v.committed then "committed" else "uncommitted"

end Vote

structure LogId where
  term : Nat
  node : NodeId
  index : Nat
  deriving DecidableEq

/-- `Debug` of a set of node ids. -/
def showSet (s : Finset NodeId) : String :=
  "\x7b" ++ ", ".intercalate ((s.sort (· ≤ ·)).map toString) ++ "\x7d"

/-- A node's view of the membership: voter sets, two in a joint configuration,
and every node, voter or learner, with its address. -/
structure MembershipView where
  logId : Option LogId
  /-- Whether that entry is committed, as far as the node knows. -/
  committed : Bool
  configs : List (Finset NodeId)
  nodes : ExtTreeMap NodeId String

namespace MembershipView

def isJoint (m : MembershipView) : Bool := m.configs.length > 1

/-- The voters of every config. -/
def voters (m : MembershipView) : Finset NodeId := m.configs.foldr (· ∪ ·) ∅

def isMember (m : MembershipView) (id : NodeId) : Bool := m.nodes.contains id

end MembershipView

/-- The answer to a `StatusEx` probe, as far as the startup decision reads it. -/
structure NodeStatusEx where
  /-- The persisted vote (`status.vote`). -/
  vote : Option Vote
  /-- The node rejoins after data loss and does not vote yet. -/
  rejoining : Bool
  lastApplied : Option LogId
  /-- The highest node id this node knows was ever a member. -/
  highestMember : NodeId
  /-- The latest membership in the node's log, committed or not. -/
  membership : MembershipView

end Beanstalkd.Raft
