import DecisionGraph.Var
import DecisionGraph.NodeId

/-!
# Nodes as seen from outside

`Branch` is what an inner node says: which variable it tests and where it goes on. `Node` is the
record of a node that callers get to read: its branch together with its number, its value if it is a
terminal, and the count of its references.
-/

namespace DecisionGraph

/-- The two children of a test. -/
structure Children where
  low : NodeId
  high : NodeId
deriving DecidableEq, Repr

/-- A test of a variable: go on to `low` if it is false and to `high` if it is true. -/
structure Branch extends Children where
  var : Var
deriving DecidableEq, Repr

/-- The record of a node. Terminals have a value and are their own children. -/
structure Node extends Branch where
  id : NodeId
  value : Option Bool
  refCount : Nat
deriving DecidableEq, Repr

namespace Node

def isTerminal (n : Node) : Bool := n.value.isSome

def isZero (n : Node) : Bool := n.value == some false

def isOne (n : Node) : Bool := n.value == some true

/-- The record of a terminal; it claims to test the variable after the last. -/
def ofTerminal (value : Bool) (varCount refCount : Nat) : Node where
  id := .terminal value
  value := some value
  var := ⟨varCount⟩
  low := .terminal value
  high := .terminal value
  refCount := refCount

/-- The record of the inner node `id`. -/
def ofBranch (id : NodeId) (b : Branch) (refCount : Nat) : Node where
  toBranch := b
  id := id
  value := none
  refCount := refCount

instance : ToString Node where
  toString n :=
    match n.value with
    | some value => toString n.id ++ ":" ++ toString value.toNat
    | none =>
      toString n.id ++ ":(" ++ toString n.var ++ ", low = " ++ toString n.low ++ ", high = " ++
        toString n.high ++ ", rc = " ++ toString n.refCount ++ ")"

end Node

end DecisionGraph
