import Beanstalkd.Raft.Types

/-!
# Startup decisions

`crates/raft/src/status.rs`: what a node without usable Raft state does, from
the answers of the other nodes, and whether the answers confirm that a node was
removed. `startupDecision` follows the code's steps in their order; each early
return of the code is a branch here, with its text. The maps the code collects
from the answers are lists of their entries in key order, which is how the code
goes through them.
-/

open Std

namespace Beanstalkd.Raft

abbrev Answers := ExtTreeMap NodeId NodeStatusEx

/-- A majority of `n` voters. -/
def quorum (n : Nat) : Nat := n / 2 + 1

/-- Answers from other voters of an `n`-voter configuration that a rejoining node
needs. -/
def rejoinAnswers (n : Nat) : Nat := n - quorum n + 1

inductive Adopt where
  | tooFew
  /-- The highest vote among the answers and the local one. -/
  | vote (v : Option Vote)
  | incomparable

/-- The loop of `adopt_vote`: the highest vote so far, `none` once two of them do
not compare. -/
def highestVote (best : Option Vote) : List Vote → Option (Option Vote)
  | [] => some best
  | v :: vs =>
    match best with
    | none => highestVote (some v) vs
    | some b =>
      match v.partialCmp b with
      | some .gt => highestVote (some v) vs
      | some _ => highestVote (some b) vs
      | none => none

/-- The vote a rejoining node persists before it starts Raft. -/
def adoptVote (n : Nat) (answers : List (NodeId × Option Vote)) (localVote : Option Vote) : Adopt :=
  let votes := answers.filterMap Prod.snd
  if answers.length < rejoinAnswers n then .tooFew
  else
    match highestVote localVote votes with
    | none => .incomparable
    | some none => .vote none
    | some (some b) =>
      if (votes ++ localVote.toList).any fun v => (v.partialCmp b).isNone then .incomparable
      else .vote (some b)

inductive Startup where
  /-- Not decided: ask again. `fresh`: with new answers only. -/
  | wait (reason : String) (fresh : Bool)
  | join (voters : Finset NodeId) (highestMember : NodeId)
  | rejoin (vote : Option Vote) (membership : MembershipView)
  | refuse (reason : String)

/-- `Iterator::max_by_key`: of several maxima, the last. -/
def lastMaxBy {α : Type} (key : α → Nat) (l : List α) : Option α :=
  l.foldl (fun best x =>
    match best with
    | none => some x
    | some b => if key b ≤ key x then some x else some b) none

/-- A view that can be the cluster's current membership. -/
def MembershipView.known (m : MembershipView) : Bool :=
  m.committed && m.logId.isSome && !m.nodes.isEmpty

def MembershipView.index (m : MembershipView) : Nat := (m.logId.map LogId.index).getD 0

/-- The committed membership with the highest index among the answers. -/
def learnedMembership (answers : Answers) : Option MembershipView :=
  lastMaxBy MembershipView.index
    (((TreeMap.values answers).map NodeStatusEx.membership).filter MembershipView.known)

/-- The view is of an entry above `index`. -/
def MembershipView.newerThan (m : MembershipView) (index : Nat) : Bool :=
  m.logId.any fun l => l.index > index

def noMembership : Startup :=
  .wait "no node that answered knows a committed membership" false

/-- What becomes of a node the membership lists. -/
def decideMember (id : NodeId) (n : Nat) (p : List (NodeId × NodeStatusEx))
    (localVote : Option Vote) (m : MembershipView) : Startup :=
  match adoptVote n (p.map fun a => (a.1, a.2.vote)) localVote with
  | .vote (some v) =>
    -- the others still follow this node's previous life as their leader
    if v.committed ∧ v.node = id then
      .wait s!"the highest vote ({v.display}) is this node's own leadership" true
    else .rejoin (some v) m
  | .vote none => .rejoin none m
  | .tooFew => .wait "too few answers" false
  | .incomparable => .wait "the highest votes are incomparable" true

/-- What becomes of a node the membership does not list. -/
def decideStranger (id : NodeId) (answers : Answers) (m : MembershipView) (mIndex : Nat) :
    Startup :=
  match answers.toList.find? fun a =>
    a.2.membership.isMember id && a.2.membership.newerThan mIndex with
  | some (n, a) =>
    .wait (s!"node {n} lists this node in a membership at index {a.membership.index} that is " ++
      "not known to be committed yet") false
  | none =>
    -- From here on only nodes holding `M` itself.
    let holders := (TreeMap.values answers).filter fun a => a.membership.logId = m.logId
    let highest := (holders.map NodeStatusEx.highestMember).foldr max 0
    if highest ≥ id then
      .refuse (s!"node id {id} is not a member, and ids up to {highest} have been used: node " ++
        s!"ids are never reused (a removed node joins again only under a new id above {highest})")
    else if holders.any fun a => a.lastApplied.any fun l => l.index ≥ mIndex then
      .join m.voters highest
    else
      .wait (s!"no node that answered has applied the membership at index {mIndex} yet, so the " ++
        "highest member id it reports may be stale") false

/-- The decision of node `id` without Raft state, from the answers of other nodes
and its own persisted vote. -/
def startupDecision (id : NodeId) (answers : Answers) (localVote : Option Vote) : Startup :=
  match learnedMembership answers with
  | none => noMembership
  | some m =>
    match m.logId with
    | none => noMembership
    | some l =>
      let mIndex := l.index
      if m.isJoint then
        let configs := "[" ++ ", ".intercalate (m.configs.map showSet) ++ "]"
        .wait (s!"the membership at index {mIndex} is a joint configuration {configs}: waiting " ++
          "until it is uniform") false
      else
        let voters := m.voters
        if voters = ∅ then .wait s!"the membership at index {mIndex} has no voters" false
        else
          let others := voters.filter (· ≠ id)
          let need := rejoinAnswers voters.card
          if id ∈ voters ∧ others.card < need then
            .wait (s!"this node is the only voter {showSet voters} (membership at index " ++
              s!"{mIndex}): if this is the current membership, it cannot rejoin, since a node " ++
              "that lost its " ++
              s!"data needs at least {need} other voter to vouch for the votes it may have " ++
              "granted, and no other node holds the cluster's data; restore its data directory")
              false
          else
            let fromVoters := answers.toList.filter fun a => a.1 ∈ others
            match fromVoters.find? fun a => a.2.membership.newerThan mIndex with
            | some (n, a) =>
              .wait (s!"voter {n} reports a newer membership (index {a.membership.index}, " ++
                s!"committed: {a.membership.committed}) than the committed one at index " ++
                s!"{mIndex}: a membership change is in progress") false
            | none =>
              -- Only voters that hold `M` itself count, and none that is rejoining too.
              let p := fromVoters.filter fun a => !a.2.rejoining && a.2.membership.logId = m.logId
              if p.length < need then
                .wait (s!"{p.length} of the {need} answers needed from the current voters " ++
                  s!"{showSet others} holding the membership at index {mIndex} and not " ++
                  "rejoining themselves") false
              else if m.isMember id then decideMember id voters.card p localVote m
              else decideStranger id answers m mIndex

/-- `some reason` if the answers confirm that node `id` was removed. -/
def removalConfirmed (id : NodeId) (answers : Answers) : Option String :=
  match startupDecision id answers none with
  | .refuse reason => do
    let m ← learnedMembership answers
    let holding := answers.toList.filter fun a =>
      a.1 ∈ m.voters && !a.2.rejoining && a.2.membership.logId = m.logId
    if holding.length ≥ quorum m.voters.card then some reason else none
  | _ => none

end Beanstalkd.Raft
