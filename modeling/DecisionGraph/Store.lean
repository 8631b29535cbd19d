import DecisionGraph.Config
import DecisionGraph.Diagram
import DecisionGraph.VarOrder
import DecisionGraph.UniqueTable
import DecisionGraph.ComputedTable

/-!
# The store

A store holds one shared diagram, and with it the order of the variables, a count of references for
every node, the unique table by which equal shapes become one node, and the computed table.

A count is the number of edges into the node from live inner nodes, and in addition one for each
`reference` that has not been undone by `release`. A new node starts at zero.

Counts and the numbers of nodes have no bound here. Where they are words of 32 bits, the storage is
full when `2 ^ 32 - 1` numbers have been given out, those of the terminals included, and what asks
for another one breaks off; a count that has come to `2 ^ 32 - 1` stays there when one is added. All
runs are taken to stay below these limits, so the store does not check for either.

Main definitions:

* `Store.new`, `Store.make`, `Store.addVariable` — the terminals and the variables.
* `Store.addRef`, `Store.dropRef` — one reference more or less.
* `Store.cons`, `Store.consReduced` — the node of a shape.
* `Store.create` — `cons` for callers, who must name children that lie below the variable.
* `Store.node?` and the other readers.
-/

namespace DecisionGraph

/-- A shared diagram with its tables. -/
structure Store where
  diagram : Diagram
  /-- The references of each node, by its number. -/
  counts : Array Nat
  /-- The number of live inner nodes. -/
  live : Nat
  order : VarOrder
  unique : UniqueTable
  computed : ComputedTable
  config : Config

namespace Store

/-- The store of the two terminals and `varCount` variables, in the order of their indices. -/
def new (varCount : Nat) (config : Config) : Store where
  diagram := .empty
  counts := #[0, 0]
  live := 0
  order := .byIndex varCount
  unique := .empty varCount config.initialBuckets
  computed := .empty
  config := config

/-- `new` for callers, who may ask for more than there is room for. -/
def make (varCount : Nat) (config : Config) : Except Fault Store :=
  if UniqueTable.fits varCount config.initialBuckets then .ok (new varCount config)
  else .error .noRoom

/-- The number of variables. -/
def varCount (s : Store) : Nat := s.order.size

/-- The live nodes, with the two terminals, in number. -/
def liveCount (s : Store) : Nat := s.live + 2

/-- Whether a node is there. -/
def alive (s : Store) (n : NodeId) : Bool := s.diagram.alive n

/-- The references of a node. -/
def refCount (s : Store) (n : NodeId) : Nat := s.counts.getD n.toNat 0

/-! ## Variables -/

/-- Adds a variable at the bottom of the order. -/
def addVariable (s : Store) : Var × Store :=
  let v := s.order.nextVar
  (v, { s with order := s.order.push, unique := s.unique.ensure v })

/-- The level of a managed variable. -/
def level? (s : Store) (v : Var) : Option Level :=
  if s.order.knows v then some (s.order.levelOf v) else none

/-- The variable of a level. -/
def varAt (s : Store) (l : Level) : Except Fault Var :=
  match s.order.varAt? l with
  | some v => .ok v
  | none => .error .outOfRange

/-- The level of the variable that a node tests. The terminals lie below all variables. -/
def levelOf (s : Store) (n : NodeId) : Except Fault Level :=
  match n with
  | .terminal _ => .ok s.varCount
  | .inner _ => do return s.order.levelOf (← s.diagram.branch n).var

/-! ## References -/

/-- One reference more. -/
def addRef (s : Store) (n : NodeId) : Except Fault Store :=
  if s.alive n then
    .ok { s with counts := s.counts.modify n.toNat (· + 1) }
  else .error (.dead n)

/-- One reference less, if there is one, and the count that is left. -/
def dropRef (s : Store) (n : NodeId) : Except Fault (Nat × Store) :=
  if s.alive n then
    let s := { s with counts := s.counts.modify n.toNat (· - 1) }
    .ok (s.refCount n, s)
  else .error (.dead n)

/-- One reference more for each of the nodes. -/
def addRefs : List NodeId → Store → Except Fault Store
  | [], s => .ok s
  | n :: ns, s => do addRefs ns (← s.addRef n)

/-- One reference less for each of the nodes. None is collected, not even one left with none. -/
def dropRefs : List NodeId → Store → Except Fault Store
  | [], s => .ok s
  | n :: ns, s => do dropRefs ns (← s.dropRef n).2

/-- Holds a node from outside. -/
def reference (s : Store) (n : NodeId) : Except Fault (NodeId × Store) := do
  return (n, ← s.addRef n)

/-! ## Shapes -/

/-- The live node that tests `v` and goes on to `low` or `high`, made if there is none. The two
children may be the same. -/
def cons (s : Store) (v : Var) (low high : NodeId) : Except Fault (NodeId × Store) := do
  match ← s.unique.find? v ⟨low, high⟩ s.diagram.alive with
  | some n => return (n, s)
  | none =>
    let n := s.diagram.fresh
    let s := { s with
      diagram := s.diagram.push ⟨⟨low, high⟩, v⟩
      counts := s.counts.push 0
      live := s.live + 1 }
    let s ← s.addRef low
    let s ← s.addRef high
    match ← s.unique.insert v ⟨low, high⟩ n s.diagram.alive with
    | (.ok (), unique) => return (n, { s with unique := unique })
    | (.error _, _) => throw (.shapeTaken v low high)

/-- The node that tests `v` and goes on to `low` or `high`, or the one child if the test would be
idle. -/
def consReduced (s : Store) (v : Var) (low high : NodeId) : Except Fault (NodeId × Store) :=
  if low = high then .ok (low, s) else s.cons v low high

/-- The node that tests `v` and goes on to `low` or `high`, which both lie below `v`. An idle test
is made too; only `reduce` takes it out. -/
def create (s : Store) (v : Var) (low high : NodeId) : Except Fault (NodeId × Store) := do
  unless s.order.knows v do throw (.unknownVariable v)
  let level := s.order.levelOf v
  unless level < (← s.levelOf low) do throw (.childNotBelow v level)
  unless level < (← s.levelOf high) do throw (.childNotBelow v level)
  s.cons v low high

/-- `create`, held from outside at once. -/
def createHeld (s : Store) (v : Var) (low high : NodeId) : Except Fault (NodeId × Store) := do
  let (n, s) ← s.create v low high
  s.reference n

/-! ## Reading -/

/-- The record of a node, if it is alive. -/
def node? (s : Store) (n : NodeId) : Option Node :=
  match n with
  | .terminal value => some (.ofTerminal value s.varCount (s.refCount n))
  | .inner _ => (s.diagram.branch? n).map fun b => .ofBranch n b (s.refCount n)

/-- The record of a live node. -/
def node (s : Store) (n : NodeId) : Except Fault Node :=
  match s.node? n with
  | some node => .ok node
  | none => .error (.dead n)

/-- The records of all live nodes, by their numbers. -/
def nodes (s : Store) : List Node :=
  ([NodeId.zero, NodeId.one] ++ s.diagram.inners).filterMap s.node?

/-- The value of a node under values for the variables, of which there must be enough. -/
def evaluate (s : Store) (n : NodeId) (values : Array Bool) : Except Fault Bool :=
  if values.size < s.varCount then .error (.shortAssignment values.size s.varCount)
  else s.diagram.evaluate (fun v => values.getD v.index false) n

/-- The number of assignments to all variables under which a node is true. -/
def satCount (s : Store) (n : NodeId) : Except Fault Nat := s.diagram.satCount s.varCount n

/-- The number of nodes below a node, with the node itself and the terminals. -/
def size (s : Store) (n : NodeId) : Except Fault Nat := s.diagram.size n

/-- A line on how much the store holds. -/
def summary (s : Store) : String :=
  "Manager \x7b num_vars: " ++ toString s.varCount ++ ", live: " ++ toString s.live ++
    ", unique: " ++ toString s.unique.size ++ ", cache: " ++ toString s.computed.size ++ " \x7d"

end Store

end DecisionGraph
