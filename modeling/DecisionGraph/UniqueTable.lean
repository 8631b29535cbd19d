import DecisionGraph.UniqueTable.Subtable

/-!
# The unique table

One subtable for each variable. The bank of subtables starts with room for all variables, but at
least four, and doubles when a variable comes that it has no room for. To ask for a variable outside
of the bank is a fault.
-/

namespace DecisionGraph

/-- The live nodes by variable and children: at most one node has a given shape. -/
structure UniqueTable where
  subtables : Array Subtable
  /-- The buckets that each subtable starts with. -/
  initialBuckets : Nat
deriving DecidableEq, Repr

namespace UniqueTable

/-- The smallest bank. -/
def minBank : Nat := 4

/-- Empty subtables for the variables from `first` on. -/
def emptySubtables (first count buckets : Nat) : Array Subtable :=
  (Array.range count).map fun i => Subtable.empty ⟨first + i⟩ buckets

/-- The empty table for `varCount` variables. -/
def empty (varCount buckets : Nat) : UniqueTable where
  subtables := emptySubtables 0 (max varCount minBank) buckets
  initialBuckets := buckets

/-- The most subtables that there is room for, at 48 bytes each in a space of `2 ^ 63 - 1` bytes. -/
def maxBank : Nat := 0x7fffffffffffffff / 48

/-- Whether there is room for `varCount` variables with so many buckets each. -/
def fits (varCount buckets : Nat) : Bool :=
  max varCount minBank ≤ maxBank && buckets ≤ Subtable.maxBuckets

/-- `empty` for callers, who may ask for more than there is room for. -/
def make (varCount buckets : Nat) : Except Fault UniqueTable :=
  if fits varCount buckets then .ok (empty varCount buckets) else .error .noRoom

/-- The number of subtables. -/
def bankSize (t : UniqueTable) : Nat := t.subtables.size

/-- `size`, doubled until place `i` fits, though no more than `steps` times. -/
def doubledPast (i : Nat) : Nat → Nat → Nat
  | 0, size => size
  | steps + 1, size => if size ≤ i then doubledPast i steps (2 * size) else size

/-- Makes room for a variable. -/
def ensure (t : UniqueTable) (v : Var) : UniqueTable :=
  let size := doubledPast v.index (v.index + 1) t.bankSize
  { t with
    subtables :=
      t.subtables ++ emptySubtables t.bankSize (size - t.bankSize) t.initialBuckets }

/-- The subtable of a variable. -/
def subtable (t : UniqueTable) (v : Var) : Except Fault Subtable :=
  match t.subtables[v.index]? with
  | some sub => .ok sub
  | none => .error .outOfRange

/-- The table with another subtable for `v`. -/
def setSubtable (t : UniqueTable) (v : Var) (sub : Subtable) : UniqueTable :=
  { t with subtables := t.subtables.setIfInBounds v.index sub }

/-- The live node that tests `v` and has children `k`. -/
def find? (t : UniqueTable) (v : Var) (k : Children) (alive : NodeId → Bool) :
    Except Fault (Option NodeId) := do
  return (← t.subtable v).find? k alive

/-- Enters `n` as the node that tests `v` and has children `k`, unless a live node is in its way. -/
def insert (t : UniqueTable) (v : Var) (k : Children) (n : NodeId) (alive : NodeId → Bool) :
    Except Fault (Except Rejection Unit × UniqueTable) := do
  let (result, sub) := (← t.subtable v).insert k n alive
  return (result, t.setSubtable v sub)

/-- Takes out the entry for `v` and `k`, and tells which node was entered. -/
def erase (t : UniqueTable) (v : Var) (k : Children) :
    Except Fault (Option NodeId × UniqueTable) := do
  let (found, sub) ← (← t.subtable v).erase k
  return (found, t.setSubtable v sub)

/-- Takes the entries of dead nodes out of each of the tables, and tells how many there were. -/
def removeDeadFrom (alive : NodeId → Bool) : List Subtable → Except Fault (Nat × List Subtable)
  | [] => .ok (0, [])
  | sub :: subs => do
    let (first, sub) ← sub.removeDead alive
    let (rest, subs) ← removeDeadFrom alive subs
    return (first + rest, sub :: subs)

/-- Takes out the entries of dead nodes, and tells how many there were. -/
def removeDead (t : UniqueTable) (alive : NodeId → Bool) : Except Fault (Nat × UniqueTable) := do
  let (removed, subs) ← removeDeadFrom alive t.subtables.toList
  return (removed, { t with subtables := subs.toArray })

/-- The number of entries. -/
def size (t : UniqueTable) : Nat := t.subtables.toList.foldr (fun sub n => sub.count + n) 0

/-- Whether there is no entry. -/
def isEmpty (t : UniqueTable) : Bool := t.subtables.all Subtable.isEmpty

end UniqueTable

end DecisionGraph
