import DecisionGraph.Store

/-!
# Collection

A node without references may be collected. It gives up its slot, its place in the unique table and
the references to its children, and children that are left without a reference go the same way.

Main definitions:

* `Store.collectFrom` — the cascade.
* `Store.release`, `Store.delete` — giving up one node.
* `Store.collectGarbage` — sweeping out every node that nothing refers to.
-/

namespace DecisionGraph

namespace Store

/-- Empties the slot of `n`, whose branch is `b`, and takes its shape out of the unique table. -/
def detach (s : Store) (n : NodeId) (b : Branch) : Except Fault Store := do
  let (found, unique) ← s.unique.erase b.var b.toChildren
  if found ≠ some n then throw (.outOfSync (.ofBranch n b (s.refCount n)) found)
  let live ← decrease s.live 1
  return { s with diagram := s.diagram.clear n, unique := unique, live := live }

/-- `n` in front of the nodes that wait, if it is an inner node with no reference left. -/
def enqueue (n : NodeId) (count : Nat) (waiting : List NodeId) : List NodeId :=
  if count = 0 ∧ !n.isTerminal then n :: waiting else waiting

/-- Collects the waiting nodes, and the nodes that lose their last reference by that. A node that is
gone already is passed over. The number of nodes collected is added to `collected`; `k` bounds the
number of nodes taken up. -/
def collectWithin : Nat → List NodeId → Nat → Store → Except Fault (Nat × Store)
  | _, [], collected, s => .ok (collected, s)
  | 0, _ :: _, _, _ => .error .tooDeep
  | k + 1, n :: waiting, collected, s =>
    match s.diagram.branch? n with
    | none =>
      if s.diagram.issued n then collectWithin k waiting collected s else .error .outOfRange
    | some b => do
      let s ← s.detach n b
      let (lowCount, s) ← s.dropRef b.low
      let (highCount, s) ← s.dropRef b.high
      collectWithin k (enqueue b.high highCount (enqueue b.low lowCount waiting)) (collected + 1) s

/-- Collects `n` and what loses its last reference by that, and tells how many nodes went. Each node
collected makes at most two more wait. -/
def collectFrom (s : Store) (n : NodeId) : Except Fault (Nat × Store) :=
  collectWithin (2 * s.diagram.depth) [n] 0 s

/-- Gives up a reference to `n`, and collects `n` if it was the last. -/
def release (s : Store) (n : NodeId) : Except Fault (Nat × Store) := do
  let (count, s) ← s.dropRef n
  if count = 0 ∧ !n.isTerminal then s.collectFrom n else return (0, s)

/-- Collects `n` if nothing refers to it. Terminals and nodes that are gone are left alone. -/
def delete (s : Store) (n : NodeId) : Except Fault (Nat × Store) :=
  if n.isTerminal ∨ !s.alive n ∨ s.refCount n ≠ 0 then .ok (0, s) else s.collectFrom n

/-- Collects each of the nodes that is still there. -/
def collectAll : List NodeId → Nat → Store → Except Fault (Nat × Store)
  | [], collected, s => .ok (collected, s)
  | n :: ns, collected, s => do
    let (k, s) ← s.collectFrom n
    collectAll ns (collected + k) s

/-- Collects every inner node without a reference, and what loses its last reference by that; then
drops what is dead from both tables. -/
def collectGarbage (s : Store) : Except Fault (Nat × Store) := do
  let idle := s.diagram.inners.filter fun n => s.refCount n = 0
  let (collected, s) ← collectAll idle 0 s
  let (_, unique) ← s.unique.removeDead s.diagram.alive
  let (_, computed) := s.computed.purge s.diagram.alive
  return (collected, { s with unique := unique, computed := computed })

end Store

end DecisionGraph
