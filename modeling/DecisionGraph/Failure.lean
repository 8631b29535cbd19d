import DecisionGraph.Node

/-!
# What can go wrong

Failures come in two kinds. A `Rejection` is an answer: the call was understood, the graph does not
admit it, and the caller goes on. A `Fault` breaks off the call: the caller asked about a node that
is gone, or handed over arguments that the call does not promise to handle, or an inner table was
found in disorder.

Main definitions:

* `Rejection`, `Rejection.message` — the refusals and their wording.
* `Fault`, `Fault.message` — the broken calls and their wording.
* `decrease`, `Level.descend` — steps that can fail at an end of the numbers.
-/

namespace DecisionGraph

/-- A call that the graph does not admit. -/
inductive Rejection where
  /-- The variable has no successor in the order to change places with. -/
  | lastVariable (v : Var)
  /-- The second variable does not follow the first in the order. -/
  | notAdjacent (first second : Var)
  /-- The variable is not managed. -/
  | unknownVariable (v : Var)
  /-- A live node holds the shape that another node is to take. -/
  | shapeTaken (v : Var) (low high : NodeId)
  /-- A cofactor was asked for by two variables at once. -/
  | conflictingRestriction (positive negative : Var)
deriving DecidableEq, Repr

/-- The wording of a refusal. -/
def Rejection.message : Rejection → String
  | lastVariable v => "'" ++ toString v ++ "' is the last variable in the variable order"
  | notAdjacent first second =>
    "cannot swap variables that are not adjacent: " ++ toString first ++ " and " ++ toString second
  | unknownVariable v => "unknown variable " ++ toString v
  | shapeTaken v low high =>
    "trying to replace a live node at (" ++ toString v ++ ", low = " ++ toString low ++
      ", high = " ++ toString high ++ ")"
  | conflictingRestriction positive negative =>
    "only one variable may be restricted at a time (positive " ++ toString positive ++
      ", negative " ++ toString negative ++ ")"

/-- A call that breaks off. -/
inductive Fault where
  /-- The node has been collected, or was never made. -/
  | dead (n : NodeId)
  /-- A node was to test a variable that is not managed. -/
  | unknownVariable (v : Var)
  /-- A child was to lie at or above the level of the variable. -/
  | childNotBelow (v : Var) (level : Level)
  /-- An assignment leaves variables open. -/
  | shortAssignment (covered varCount : Nat)
  /-- A place outside of a table was asked for. -/
  | outOfRange
  /-- A fresh node met a live node of its shape. -/
  | shapeTaken (v : Var) (low high : NodeId)
  /-- The unique table held another node, or none, at the shape of a node that was collected. -/
  | outOfSync (node : Node) (found : Option NodeId)
  /-- Reduction met a child before it had the child's canonical node. -/
  | notCanonical
  /-- A counter was to fall below zero. -/
  | counterBelowZero
  /-- A level was asked for beyond the last. -/
  | levelBeyondLast
  /-- There is no room for as many buckets or subtables. -/
  | noRoom
  /-- A descent went deeper than any path of an acyclic diagram. -/
  | tooDeep
deriving DecidableEq, Repr

/-- A node that a table held, spelled out. -/
private def describeFound : Option NodeId → String
  | none => "None"
  | some n => "Some(NodeId(" ++ toString n.toNat ++ "))"

/-- The wording of a broken call. -/
def Fault.message : Fault → String
  | dead n => "Node " ++ toString n ++ " is not alive"
  | unknownVariable v => "Unknown variable " ++ toString v
  | childNotBelow v level =>
    "Children of a node at " ++ toString v ++ " must lie below level " ++ toString level
  | shortAssignment covered varCount =>
    "Assignment covers " ++ toString covered ++ " of " ++ toString varCount ++ " variables"
  | outOfRange => "index out of bounds"
  | shapeTaken v low high => (Rejection.shapeTaken v low high).message
  | outOfSync node found =>
    "assertion `left == right` failed: unique table out of sync for " ++ toString node ++
      "\n  left: " ++ describeFound found ++ "\n right: " ++ describeFound (some node.id)
  | notCanonical => "no entry found for key"
  | counterBelowZero => "attempt to subtract with overflow"
  | levelBeyondLast => "attempt to add with overflow"
  | noRoom => "capacity overflow"
  | tooDeep => "descent too deep"

/-- A counter after `k` of its items are gone. -/
def decrease (count k : Nat) : Except Fault Nat :=
  if k ≤ count then .ok (count - k) else .error .counterBelowZero

namespace Level

/-- The last level: a level is numbered by a word of 64 bits. -/
def last : Level := 0xffffffffffffffff

/-- One level further from the root, for callers, who may stand at the last. The levels of a
diagram end far above it. -/
def descend (l : Level) : Except Fault Level :=
  if l < last then .ok l.next else .error .levelBeyondLast

end Level

end DecisionGraph
