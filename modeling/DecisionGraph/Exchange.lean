import DecisionGraph.Action
import DecisionGraph.Collection

/-!
# The exchange of neighbours

To exchange a variable `v` with its successor `w` in the order, only the nodes that test `v` and
have a child that tests `w` have to change. Let such a node have the low child `f₀` and the high
child `f₁`, with cofactors `f₀₀`, `f₀₁` and `f₁₀`, `f₁₁` by `w`. Since

`if v then (if w then f₁₁ else f₁₀) else (if w then f₀₁ else f₀₀)` is
`if w then (if v then f₁₁ else f₀₁) else (if v then f₁₀ else f₀₀)`,

the node can be rotated in place: it comes to test `w`, and two tests of `v` become its children.
It keeps its number and its function, so that the nodes above it need no change. Where
the two cofactors of a new child are one node, that node is the child.

Two rotated nodes of one new shape, or one whose new shape a live node has already, would break the
uniqueness of shapes. Idle tests can bring this about. The exchange is rejected then, before
anything has changed.

Main definitions:

* `Rotation`, `Store.rotations` — the nodes to rotate.
* `Store.conflict?` — the look ahead for shapes that are taken.
* `Store.swap` — the exchange.
-/

namespace DecisionGraph

/-- A node to rotate, its two children, and their cofactors by the lower variable. -/
structure Rotation where
  node : NodeId
  children : Children
  lowCofactors : Children
  highCofactors : Children
deriving DecidableEq, Repr

namespace Rotation

/-- The cofactors of the new low child. -/
def newLow (r : Rotation) : Children := ⟨r.lowCofactors.low, r.highCofactors.low⟩

/-- The cofactors of the new high child. -/
def newHigh (r : Rotation) : Children := ⟨r.lowCofactors.high, r.highCofactors.high⟩

end Rotation

/-- A child of a rotated node, foreseen: a node that is there, or one that will be made. -/
inductive Foreseen where
  | found (n : NodeId)
  | made (cofactors : Children)
deriving DecidableEq, Repr

namespace Store

/-- How to rotate `n`, if `n` is alive and one of its children tests `w`. -/
def rotation? (s : Store) (w : Var) (n : NodeId) : Except Fault (Option Rotation) :=
  match s.diagram.branch? n with
  | none => .ok none
  | some b => do
    let low ← s.diagram.cofactors w b.low
    let high ← s.diagram.cofactors w b.high
    if low = ⟨b.low, b.low⟩ ∧ high = ⟨b.high, b.high⟩ then return none
    return some ⟨n, b.toChildren, low, high⟩

/-- The nodes to rotate when `v` goes below `w`, in the order of the subtable of `v`. -/
def rotations (s : Store) (v w : Var) : Except Fault (List Rotation) := do
  let found ← (← s.unique.subtable v).nodes.mapM fun n => s.rotation? w n
  return found.filterMap id

/-- Foresees the node that tests `v` and has cofactors `k`. -/
def foresee (s : Store) (v : Var) (k : Children) : Except Fault Foreseen := do
  if k.low = k.high then return .found k.low
  match ← s.unique.find? v k s.diagram.alive with
  | some n => return .found n
  | none => return .made k

/-- Whether a live node tests `w` and has the two foreseen nodes as children. A node that is yet to
be made is nobody's child. -/
def taken (s : Store) (w : Var) : Foreseen → Foreseen → Except Fault Bool
  | .found low, .found high => do
    return (← s.unique.find? w ⟨low, high⟩ s.diagram.alive).isSome
  | _, _ => .ok false

/-- The first rotation whose new shape is taken, by a live node or by a rotation before it. -/
def conflict? (s : Store) (v w : Var) : List Rotation → List (Foreseen × Foreseen) →
    Except Fault (Option Rejection)
  | [], _ => .ok none
  | r :: rs, planned => do
    let low ← s.foresee v r.newLow
    let high ← s.foresee v r.newHigh
    if (low, high) ∈ planned ∨ (← s.taken w low high) then
      return some (.shapeTaken w r.children.low r.children.high)
    conflict? s v w rs ((low, high) :: planned)

/-- Takes the shapes of the nodes to rotate out of the unique table. -/
def withdraw (v : Var) : List Rotation → Store → Except Fault Store
  | [], s => .ok s
  | r :: rs, s => do
    let (_, unique) ← s.unique.erase v r.children
    withdraw v rs { s with unique := unique }

/-- Gives a live inner node another branch. -/
def relabel (s : Store) (n : NodeId) (b : Branch) : Except Fault Store :=
  if s.alive n then .ok { s with diagram := s.diagram.setBranch n b } else .error (.dead n)

/-- Enters a node in the unique table, unless a live node is in its way. -/
def enter (v : Var) (k : Children) (n : NodeId) : Action Unit := fun s => do
  let (result, unique) ← s.unique.insert v k n s.diagram.alive
  return (result, { s with unique := unique })

/-- Rotates one node, from a test of `v` into a test of `w`. -/
def rotate (v w : Var) (r : Rotation) : Action Unit := do
  let low ← .step fun s => s.consReduced v r.newLow.low r.newLow.high
  let high ← .step fun s => s.consReduced v r.newHigh.low r.newHigh.high
  .change fun s => s.addRef low
  .change fun s => s.addRef high
  .change fun s => s.relabel r.node ⟨⟨low, high⟩, w⟩
  enter w ⟨low, high⟩ r.node
  let _ ← .step fun s => s.release r.children.low
  let _ ← .step fun s => s.release r.children.high

/-- Rotates the nodes of a plan, one after the other. -/
def rotateAll (v w : Var) : List Rotation → Action Unit
  | [] => return ()
  | r :: rs => do
    rotate v w r
    rotateAll v w rs

/-- Lets `v`, which is on level `l`, and `w` change places in the order. -/
def reorder (s : Store) (l : Level) (v w : Var) : Except Fault Store :=
  if l.next < s.order.size ∧ s.order.knows v ∧ s.order.knows w then
    .ok { s with order := s.order.exchange l v w }
  else .error .outOfRange

/-- Why `v` and `w` cannot change places, as far as the order shows. -/
def misplaced? (s : Store) (v w : Var) : Option Rejection :=
  if !s.order.knows v then some (.unknownVariable v)
  else if !s.order.knows w then some (.unknownVariable w)
  else
    match s.order.varAt? (s.order.levelOf v).next with
    | none => some (.lastVariable v)
    | some x => if x = w then none else some (.notAdjacent v w)

/-- Exchanges `v` with its successor `w` in the order. -/
def swap (v w : Var) : Action Unit := do
  match (← .store).misplaced? v w with
  | some e => .reject e
  | none =>
    let plan ← .ask fun s => s.rotations v w
    match ← .ask fun s => s.conflict? v w plan [] with
    | some e => .reject e
    | none =>
      .change (withdraw v plan)
      rotateAll v w plan
      .change fun s => s.reorder (s.order.levelOf v) v w

end Store

end DecisionGraph
