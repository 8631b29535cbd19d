/-!
# Variables and levels

A variable keeps its name for good; a level is a place in the current variable order, counted from
the top. The two agree only until the first exchange of neighbours, so they are kept apart.
-/

namespace DecisionGraph

/-- A Boolean variable, named by its index. -/
structure Var where
  index : Nat
deriving DecidableEq, Repr

namespace Var

instance : Ord Var := ⟨compareOn Var.index⟩

instance : ToString Var := ⟨fun v => "x" ++ toString v.index⟩

end Var

/-- A place in the variable order: zero is the top, and the terminals lie at the level that equals
the number of variables. -/
abbrev Level := Nat

namespace Level

/-- One level further from the root. -/
def next (l : Level) : Level := l + 1

/-- One level closer to the root; the top level has none. -/
def prev? : Level → Option Level
  | 0 => none
  | l + 1 => some l

/-- A level as text, so that it is not taken for a variable. -/
def label (l : Level) : String := "L" ++ toString l

theorem prev?_next (l : Level) : prev? l.next = some l := rfl

end Level

end DecisionGraph
