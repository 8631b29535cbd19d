import DecisionGraph.Var

/-!
# The variable order

The order is kept both ways: the variable of each level, and the level of each variable. A variable
that is not managed lies below all others, on the level of the terminals.

Main definitions:

* `VarOrder.byIndex`, `VarOrder.push`, `VarOrder.exchange` — the orders that arise.
* `VarOrder.levelOf`, `VarOrder.varAt?` — the two directions.
-/

namespace DecisionGraph

/-- The order of the managed variables, from the top down. -/
structure VarOrder where
  /-- The variable of each level. -/
  vars : Array Var
  /-- The level of each variable. -/
  levels : Array Level
  size_levels : levels.size = vars.size
deriving DecidableEq, Repr

namespace VarOrder

/-- The order in which the first `count` variables lie by their indices. -/
def byIndex (count : Nat) : VarOrder where
  vars := (Array.range count).map Var.mk
  levels := Array.range count
  size_levels := by simp

/-- The number of variables, which is the level of the terminals too. -/
def size (o : VarOrder) : Nat := o.vars.size

/-- Whether a variable is managed. -/
def knows (o : VarOrder) (v : Var) : Bool := v.index < o.size

/-- The level of a variable. -/
def levelOf (o : VarOrder) (v : Var) : Level := o.levels.getD v.index o.size

/-- The variable of a level. -/
def varAt? (o : VarOrder) (l : Level) : Option Var := o.vars[l]?

/-- The variable that `push` adds. -/
def nextVar (o : VarOrder) : Var := ⟨o.size⟩

/-- One more variable, at the bottom. -/
def push (o : VarOrder) : VarOrder where
  vars := o.vars.push o.nextVar
  levels := o.levels.push o.size
  size_levels := by simp [o.size_levels]

/-- The order after `v`, on level `l`, and `w`, on the level below, have changed places. -/
def exchange (o : VarOrder) (l : Level) (v w : Var) : VarOrder where
  vars := (o.vars.setIfInBounds l w).setIfInBounds l.next v
  levels := (o.levels.setIfInBounds v.index l.next).setIfInBounds w.index l
  size_levels := by simp [o.size_levels]

theorem knows_iff {o : VarOrder} {v : Var} : o.knows v ↔ v.index < o.size := by
  simp [knows]

@[simp] theorem size_byIndex (count : Nat) : (byIndex count).size = count := by
  simp [byIndex, size]

@[simp] theorem size_push (o : VarOrder) : o.push.size = o.size + 1 := by
  simp [push, size]

@[simp] theorem size_exchange (o : VarOrder) (l : Level) (v w : Var) :
    (o.exchange l v w).size = o.size := by
  simp [exchange, size]

theorem varAt?_byIndex {count l : Nat} (h : l < count) : (byIndex count).varAt? l = some ⟨l⟩ := by
  simp [byIndex, varAt?, h]

theorem levelOf_byIndex {count : Nat} {v : Var} (h : v.index < count) :
    (byIndex count).levelOf v = v.index := by
  simp [byIndex, levelOf, h]

end VarOrder

end DecisionGraph
