import DecisionGraph.Failure

/-!
# The diagram

The inner nodes sit in slots. A slot is filled once, emptied when its node is collected, and not
filled again, so a node that is gone stays gone. In between, the branch of a node may change: an
exchange of neighbouring variables rotates nodes in place.

Main definitions:

* `Diagram.alive`, `Diagram.branch` — asking for nodes.
* `Diagram.push`, `Diagram.setBranch`, `Diagram.clear` — changing slots.
* `Diagram.reachable`, `Diagram.size` — what lies below a node.
* `Diagram.evaluate`, `Diagram.satCount` — the function of a node, at an assignment and in number.

Descents carry the number of calls that they may still nest. `Diagram.depth` is enough for every
descent of an acyclic diagram, since no path meets a slot twice.
-/

namespace DecisionGraph

/-- The slots of the inner nodes. -/
structure Diagram where
  slots : Array (Option Branch)
deriving DecidableEq, Repr

/-- A value for each variable. -/
abbrev Assignment := Var → Bool

/-- The nodes met by a traversal, the last one first. The set answers whether a node has been met.
-/
structure Trail where
  nodes : List NodeId
  met : NodeSet
  mem_met : ∀ n, n ∈ met ↔ n ∈ nodes

namespace Trail

def empty : Trail := ⟨[], ∅, by simp⟩

/-- The trail after one more node. -/
def push (t : Trail) (n : NodeId) : Trail where
  nodes := n :: t.nodes
  met := t.met.insert n
  mem_met m := by
    rw [Std.TreeSet.mem_insert, t.mem_met, List.mem_cons, Std.LawfulEqOrd.compare_eq_iff_eq,
      eq_comm]

end Trail

namespace Diagram

/-- No inner nodes. -/
def empty : Diagram := ⟨#[]⟩

/-- The branch of a live inner node. -/
def branch? (d : Diagram) : NodeId → Option Branch
  | .terminal _ => none
  | .inner i => d.slots.getD i none

/-- Whether a node is there: the terminals always are. -/
def alive (d : Diagram) : NodeId → Bool
  | .terminal _ => true
  | .inner i => (d.slots.getD i none).isSome

/-- The branch of an inner node, which must be alive. -/
def branch (d : Diagram) (n : NodeId) : Except Fault Branch :=
  match d.branch? n with
  | some b => .ok b
  | none => .error (.dead n)

/-- The node that the next `push` makes. -/
def fresh (d : Diagram) : NodeId := .inner d.slots.size

/-- Whether the number of a node has been given out: the node is there, or it was. -/
def issued (d : Diagram) (n : NodeId) : Bool := n.toNat < d.fresh.toNat

/-- Fills a slot of its own with `b`. -/
def push (d : Diagram) (b : Branch) : Diagram := ⟨d.slots.push (some b)⟩

/-- Gives an inner node another branch. -/
def setBranch (d : Diagram) (n : NodeId) (b : Branch) : Diagram :=
  match n with
  | .terminal _ => d
  | .inner i => ⟨d.slots.setIfInBounds i (some b)⟩

/-- Empties the slot of an inner node. -/
def clear (d : Diagram) (n : NodeId) : Diagram :=
  match n with
  | .terminal _ => d
  | .inner i => ⟨d.slots.setIfInBounds i none⟩

@[simp] theorem branch?_terminal (d : Diagram) (value : Bool) :
    d.branch? (.terminal value) = none := rfl

@[simp] theorem branch?_empty (n : NodeId) : empty.branch? n = none := by
  cases n <;> simp [branch?, empty]

theorem alive_inner (d : Diagram) (i : Nat) :
    d.alive (.inner i) = (d.branch? (.inner i)).isSome := rfl

theorem branch_eq_ok_iff {d : Diagram} {n : NodeId} {b : Branch} :
    d.branch n = .ok b ↔ d.branch? n = some b := by
  unfold branch
  split <;> simp_all

theorem branch?_push (d : Diagram) (b : Branch) (n : NodeId) :
    (d.push b).branch? n = if n = d.fresh then some b else d.branch? n := by
  cases n with
  | terminal value => simp [fresh]
  | inner i =>
    simp only [branch?, push, fresh, NodeId.inner.injEq, Array.getD_eq_getD_getElem?,
      Array.getElem?_push]
    split <;> rfl

theorem branch?_setBranch {d : Diagram} {m : NodeId} (h : (d.branch? m).isSome) (b : Branch)
    (n : NodeId) : (d.setBranch m b).branch? n = if n = m then some b else d.branch? n := by
  cases m with
  | terminal value => simp at h
  | inner j =>
    cases n with
    | terminal value => simp
    | inner i =>
      have hj : j < d.slots.size := by
        refine Nat.lt_of_not_le fun hj => ?_
        simp [branch?, hj] at h
      simp only [branch?, setBranch, NodeId.inner.injEq, Array.getD_eq_getD_getElem?,
        Array.getElem?_setIfInBounds, hj, eq_comm (a := i)]
      split <;> simp

theorem branch?_clear (d : Diagram) (m n : NodeId) :
    (d.clear m).branch? n = if n = m then none else d.branch? n := by
  cases m with
  | terminal value =>
    by_cases h : n = .terminal value
    · simp [h]
    · simp [h, clear]
  | inner j =>
    cases n with
    | terminal value => simp
    | inner i =>
      simp only [branch?, clear, NodeId.inner.injEq, Array.getD_eq_getD_getElem?,
        Array.getElem?_setIfInBounds, eq_comm (a := i)]
      split
      · split <;> rfl
      · rfl

/-- The live inner nodes, by their numbers. -/
def inners (d : Diagram) : List NodeId :=
  ((List.range d.slots.size).map NodeId.inner).filter d.alive

/-- A bound on the nesting of descents: a path meets each slot at most once and ends in a
terminal. -/
def depth (d : Diagram) : Nat := d.slots.size + 1

/-- The cofactors of `n` by a variable that nothing above `n` tests: the children of `n` if `n`
tests the variable, and otherwise `n` itself. -/
def cofactors (d : Diagram) (v : Var) (n : NodeId) : Except Fault Children :=
  match n with
  | .terminal _ => .ok ⟨n, n⟩
  | .inner _ => do
    let b ← d.branch n
    return if b.var = v then b.toChildren else ⟨n, n⟩

/-! ## What lies below a node -/

/-- Depth first, the high child before the low one, past the nodes that have been met. -/
def visit (d : Diagram) : Nat → NodeId → Trail → Except Fault Trail
  | 0, _, _ => .error .tooDeep
  | k + 1, n, trail =>
    if n ∈ trail.met then .ok trail
    else
      match n with
      | .terminal _ => .ok (trail.push n)
      | .inner _ => do
        let b ← d.branch n
        let trail ← d.visit k b.high (trail.push n)
        d.visit k b.low trail

/-- The nodes below `n`, with `n` itself, in the order in which a traversal meets them. -/
def reachable (d : Diagram) (n : NodeId) : Except Fault (List NodeId) := do
  return (← d.visit d.depth n .empty).nodes.reverse

/-- The number of nodes below `n`, with `n` itself and the terminals. -/
def size (d : Diagram) (n : NodeId) : Except Fault Nat := do
  return (← d.reachable n).length

/-! ## The function of a node -/

/-- The value of `n` under `a`, if no more than `k` inner nodes are on the way. -/
def evaluateWithin (d : Diagram) (a : Assignment) : Nat → NodeId → Except Fault Bool
  | _, .terminal value => .ok value
  | 0, .inner _ => .error .tooDeep
  | k + 1, .inner i => do
    let b ← d.branch (.inner i)
    d.evaluateWithin a k (if a b.var then b.high else b.low)

/-- The value of `n` under `a`. -/
def evaluate (d : Diagram) (a : Assignment) (n : NodeId) : Except Fault Bool :=
  d.evaluateWithin a d.depth n

/-- The share of `total` assignments under which `n` is true. A test halves the sum of its two
children, since each child is counted over all assignments and each fixes one variable. -/
def satCountWithin (d : Diagram) (total : Nat) :
    Nat → NodeId → NodeMap Nat → Except Fault (Nat × NodeMap Nat)
  | 0, _, _ => .error .tooDeep
  | _ + 1, .zero, known => .ok (0, known)
  | _ + 1, .one, known => .ok (total, known)
  | k + 1, .inner i, known =>
    match known[NodeId.inner i]? with
    | some count => .ok (count, known)
    | none => do
      let b ← d.branch (.inner i)
      let (low, known) ← d.satCountWithin total k b.low known
      let (high, known) ← d.satCountWithin total k b.high known
      let count := (low + high) / 2
      return (count, known.insert (.inner i) count)

/-- The number of assignments to `varCount` variables under which `n` is true. -/
def satCount (d : Diagram) (varCount : Nat) (n : NodeId) : Except Fault Nat := do
  return (← d.satCountWithin (Nat.pow 2 varCount) d.depth n ∅).1

end Diagram

end DecisionGraph
