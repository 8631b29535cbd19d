import DecisionGraph.Diagram

/-!
# Paths

What the traversals compute, said without them: which node is a child of which, which nodes lie
below a node, and which nodes are idle tests.

Main definitions:

* `Diagram.Child`, `Diagram.Below` — edges, and paths of any length.
* `Diagram.Idle`, `Diagram.Reduced`, `Diagram.NoIdle` — a test with one child, a node with no such
  test below it, and a diagram without any.
* `Diagram.edgesInto` — the number of edges into a node.
-/

namespace DecisionGraph

/-- How many of the two edges of a branch lead to `n`. -/
def Branch.edgesTo (b : Branch) (n : NodeId) : Nat :=
  (if b.low = n then 1 else 0) + (if b.high = n then 1 else 0)

namespace Diagram

/-- An edge from the live inner node `m` to `n`. -/
inductive Child (d : Diagram) : NodeId → NodeId → Prop where
  | low {m : NodeId} {b : Branch} (h : d.branch? m = some b) : Child d m b.low
  | high {m : NodeId} {b : Branch} (h : d.branch? m = some b) : Child d m b.high

/-- `n` is `m`, or a path leads down from `m` to `n`. -/
inductive Below (d : Diagram) (m : NodeId) : NodeId → Prop where
  | refl : Below d m m
  | step {n k : NodeId} (path : Below d m n) (edge : d.Child n k) : Below d m k

/-- A live inner node with one node as both children. -/
def Idle (d : Diagram) (n : NodeId) : Prop := ∃ b, d.branch? n = some b ∧ b.low = b.high

/-- There is no idle test below `n`. -/
def Reduced (d : Diagram) (n : NodeId) : Prop := ∀ m, d.Below n m → ¬ d.Idle m

/-- There is no idle test at all. -/
def NoIdle (d : Diagram) : Prop := ∀ n, ¬ d.Idle n

/-- The number of edges from live inner nodes to `n`. -/
def edgesInto (d : Diagram) (n : NodeId) : Nat :=
  (d.slots.toList.filterMap id).foldr (fun b count => b.edgesTo n + count) 0

theorem Below.trans {d : Diagram} {m n k : NodeId} (h : d.Below m n) (h' : d.Below n k) :
    d.Below m k := by
  induction h' with
  | refl => exact h
  | step _ edge ih => exact .step ih edge

theorem Child.below {d : Diagram} {m n : NodeId} (h : d.Child m n) : d.Below m n := .step .refl h

theorem not_child_terminal {d : Diagram} {value : Bool} {n : NodeId} :
    ¬ d.Child (.terminal value) n := by
  intro h
  cases h with
  | low h => simp [branch?] at h
  | high h => simp [branch?] at h

/-- Nothing lies below a terminal but the terminal. -/
theorem below_terminal {d : Diagram} {value : Bool} {n : NodeId}
    (h : d.Below (.terminal value) n) : n = .terminal value := by
  induction h with
  | refl => rfl
  | step _ edge ih => exact absurd (ih ▸ edge) not_child_terminal

theorem Reduced.of_below {d : Diagram} {m n : NodeId} (h : d.Reduced m) (path : d.Below m n) :
    d.Reduced n :=
  fun k below => h k (path.trans below)

theorem noIdle_iff {d : Diagram} : d.NoIdle ↔ ∀ n b, d.branch? n = some b → b.low ≠ b.high :=
  ⟨fun h n b hb heq => h n ⟨b, hb, heq⟩, fun h n ⟨b, hb, heq⟩ => h n b hb heq⟩

theorem NoIdle.reduced {d : Diagram} (h : d.NoIdle) (n : NodeId) : d.Reduced n := fun m _ => h m

theorem noIdle_empty : empty.NoIdle := noIdle_iff.mpr fun n b hb => by simp at hb

theorem reduced_terminal (d : Diagram) (value : Bool) : d.Reduced (.terminal value) := by
  rintro m below ⟨b, hb, _⟩
  rw [below_terminal below] at hb
  simp [branch?] at hb

end Diagram

end DecisionGraph
