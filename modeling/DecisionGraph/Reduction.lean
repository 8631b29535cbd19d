import DecisionGraph.Store

/-!
# Reduction

`create` makes idle tests, and through them several nodes may stand for one function. `reduce` finds
the canonical node of a root: it goes through the levels below the root from the bottom up, gives an
idle test the canonical node of its child, and makes the node of the canonical children for every
other test. Since shapes are unique, nodes with equal canonical children get one canonical node.

Within a level, new nodes are made in the order of their canonical children.

Main definitions:

* `Diagram.partLevel`, `Store.shareTests` — the idle tests of one level, and the others.
* `Store.reduce` — the canonical node of a root.
-/

namespace DecisionGraph

/-- The canonical nodes found so far. -/
abbrev Canonical := NodeMap NodeId

namespace Canonical

/-- The terminals are canonical. -/
def terminals : Canonical := (∅ : NodeMap NodeId).insert .zero .zero |>.insert .one .one

/-- The canonical node of `n`, which must have been found. -/
def get (canonical : Canonical) (n : NodeId) : Except Fault NodeId :=
  match canonical[n]? with
  | some r => .ok r
  | none => .error .notCanonical

end Canonical

/-- The tests of one level that are not idle: for each the canonical children, low and high, and the
node itself. -/
abbrev Tests := Std.TreeSet NodeTriple

/-- Parts the nodes of one level: idle tests get their child's canonical node, all others are kept
with their canonical children. -/
def Diagram.partLevel (d : Diagram) :
    List NodeId → Canonical → Tests → Except Fault (Canonical × Tests)
  | [], canonical, tests => .ok (canonical, tests)
  | n :: ns, canonical, tests => do
    let b ← d.branch n
    let low ← canonical.get b.low
    let high ← canonical.get b.high
    if low = high then d.partLevel ns (canonical.insert n low) tests
    else d.partLevel ns canonical (tests.insert ⟨low, high, n⟩)

namespace Store

/-- Those of `ns` that test a variable of level `l`. -/
def onLevel (s : Store) (l : Level) (ns : List NodeId) : List NodeId :=
  ns.filter fun n =>
    match s.diagram.branch? n with
    | some b => s.order.levelOf b.var = l
    | none => false

/-- Makes the canonical nodes of tests of `v`. -/
def shareTests (v : Var) :
    List NodeTriple → Canonical → Store → Except Fault (Canonical × Store)
  | [], canonical, s => .ok (canonical, s)
  | t :: ts, canonical, s => do
    let (r, s) ← s.cons v t.first t.second
    shareTests v ts (canonical.insert t.third r) s

/-- Finds the canonical nodes of `ns` on the levels above level `l`, from the bottom up. -/
def reduceLevels (ns : List NodeId) :
    Level → Canonical → Store → Except Fault (Canonical × Store)
  | 0, canonical, s => .ok (canonical, s)
  | l + 1, canonical, s => do
    let v ← s.varAt l
    let (canonical, tests) ← s.diagram.partLevel (s.onLevel l ns) canonical ∅
    let (canonical, s) ← shareTests v tests.toList canonical s
    reduceLevels ns l canonical s

/-- The canonical node with the function of `root`. The graph of `root` is left as it is. -/
def reduce (s : Store) (root : NodeId) : Except Fault (NodeId × Store) := do
  if root.isTerminal then return (root, s)
  let below ← s.diagram.reachable root
  let (canonical, s) ← reduceLevels below s.varCount .terminals s
  return (← canonical.get root, s)

end Store

end DecisionGraph
