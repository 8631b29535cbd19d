import Std.Data.TreeMap
import Std.Data.TreeSet

/-!
# Node identifiers

A node is one of the two terminals or an inner node that sits in a slot of the diagram. On paper a
node is a number: `0` and `1` are the terminals, and the inner nodes follow from `2` on. The number
fixes the order of nodes, and nothing else depends on it.

Main statements:

* `ofNat_toNat`, `toNat_ofNat` — nodes and numbers correspond one to one.
* the instances `TransOrd` and `LawfulEqOrd` — the order is total, and equal places mean equal
  nodes, so that nodes may be keys of ordered maps.
-/

namespace DecisionGraph

/-- A terminal, or the inner node of a slot. -/
inductive NodeId where
  | terminal (value : Bool)
  | inner (slot : Nat)
deriving DecidableEq, Repr

namespace NodeId

/-- The terminal that is false everywhere. -/
@[match_pattern] abbrev zero : NodeId := terminal false

/-- The terminal that is true everywhere. -/
@[match_pattern] abbrev one : NodeId := terminal true

/-- The number of a node. -/
def toNat : NodeId → Nat
  | zero => 0
  | one => 1
  | inner i => i + 2

/-- The node of a number. -/
def ofNat : Nat → NodeId
  | 0 => zero
  | 1 => one
  | i + 2 => inner i

def isTerminal : NodeId → Bool
  | terminal _ => true
  | inner _ => false

instance : ToString NodeId := ⟨fun n => "@" ++ toString n.toNat⟩

/-- Nodes are ordered by their numbers. -/
instance : Ord NodeId := ⟨compareOn toNat⟩

@[simp] theorem ofNat_toNat (n : NodeId) : ofNat n.toNat = n := by
  rcases n with (_ | _) | _ <;> rfl

@[simp] theorem toNat_ofNat (n : Nat) : (ofNat n).toNat = n := by
  match n with
  | 0 => rfl
  | 1 => rfl
  | _ + 2 => rfl

theorem toNat_injective {m n : NodeId} (h : m.toNat = n.toNat) : m = n := by
  rw [← ofNat_toNat m, h, ofNat_toNat]

instance : Std.TransOrd NodeId := inferInstanceAs (Std.TransCmp (compareOn toNat))

instance : Std.LawfulEqOrd NodeId where
  eq_of_compare h := toNat_injective (Std.LawfulEqOrd.eq_of_compare h)

end NodeId

/-- Three nodes in a row, ordered like words: by the first, then the second, then the third. -/
structure NodeTriple where
  first : NodeId
  second : NodeId
  third : NodeId
deriving DecidableEq, Repr

namespace NodeTriple

/-- The triple as a word of nodes. -/
def word (t : NodeTriple) : List NodeId := [t.first, t.second, t.third]

theorem word_injective {s t : NodeTriple} (h : s.word = t.word) : s = t := by
  cases s
  cases t
  simpa [word] using h

instance : Ord NodeTriple := ⟨compareOn word⟩

instance : Std.TransOrd NodeTriple := inferInstanceAs (Std.TransCmp (compareOn word))

instance : Std.LawfulEqOrd NodeTriple where
  eq_of_compare h := word_injective (Std.LawfulEqOrd.eq_of_compare h)

end NodeTriple

/-- A set of nodes. -/
abbrev NodeSet := Std.TreeSet NodeId

/-- A partial function on nodes. -/
abbrev NodeMap (α : Type) := Std.TreeMap NodeId α

end DecisionGraph
