import DecisionGraph.Failure

/-!
# The nodes of one variable, by their children

A subtable finds the node that tests its variable and has given children. It is a row of buckets,
each a chain of entries. Entries do not keep their node alive: an entry may outlive its node, every
look-up asks whether the node is still alive, and `removeDead` drops the entries that are left over.

The row doubles when chains hold `highWater` entries on average and is halved when they are down to
`lowWater`, but never below the length it was made with.

Main definitions:

* `Chain.lookup`, `Chain.overwrite`, `Chain.remove` — one bucket.
* `Subtable.find?`, `Subtable.insert`, `Subtable.erase`, `Subtable.removeDead` — the table.
* `Subtable.nodes` — all nodes entered, in the order of the buckets.

Main statements:

* `Chain.lookup_append`, `Chain.lookup_overwrite`, `Chain.remove_perm` — what the changes of a chain
  do to what is found in it.
-/

namespace DecisionGraph

/-- A node entered under its children. -/
structure Entry where
  key : Children
  node : NodeId
deriving DecidableEq, Repr

/-- The entries of one bucket, in the order in which they came. -/
abbrev Chain := List Entry

namespace Chain

/-- The node of the first entry at `k`. -/
def lookup (k : Children) (c : Chain) : Option NodeId :=
  (c.find? fun e => e.key = k).map Entry.node

/-- The chain with `n` as the node of the first entry at `k`. -/
def overwrite (k : Children) (n : NodeId) : Chain → Chain
  | [] => []
  | e :: c => if e.key = k then ⟨k, n⟩ :: c else e :: overwrite k n c

/-- The chain without its first entry at `k`; the last entry moves up into the gap. -/
def remove (k : Children) : Chain → Chain
  | [] => []
  | e :: c => if e.key = k then c.getLast?.toList ++ c.dropLast else e :: remove k c

@[simp] theorem lookup_nil (k : Children) : lookup k [] = none := rfl

theorem lookup_cons (k : Children) (e : Entry) (c : Chain) :
    lookup k (e :: c) = if e.key = k then some e.node else lookup k c := by
  by_cases h : e.key = k <;> simp [lookup, h]

theorem lookup_append (k k' : Children) (n : NodeId) (c : Chain) :
    lookup k' (c ++ [⟨k, n⟩]) = (lookup k' c).or (if k = k' then some n else none) := by
  induction c with
  | nil => simp [lookup_cons]
  | cons e c ih =>
    rw [List.cons_append, lookup_cons, lookup_cons, ih]
    split <;> rfl

theorem lookup_overwrite (k k' : Children) (n : NodeId) (c : Chain) :
    lookup k' (overwrite k n c) =
      if k = k' then (lookup k c).map fun _ => n else lookup k' c := by
  induction c with
  | nil => simp [overwrite]
  | cons e c ih =>
    by_cases he : e.key = k
    · subst he
      rw [overwrite, if_pos rfl, lookup_cons, lookup_cons, lookup_cons]
      split <;> simp
    · rw [overwrite, if_neg he, lookup_cons, lookup_cons, lookup_cons, ih, if_neg he]
      by_cases hk : k = k'
      · subst hk
        simp [he]
      · simp [hk]

/-- Nothing else is lost when an entry is removed. -/
theorem remove_perm {k : Children} {n : NodeId} {c : Chain} (h : lookup k c = some n) :
    (⟨k, n⟩ :: remove k c).Perm c := by
  induction c with
  | nil => simp at h
  | cons e c ih =>
    rw [lookup_cons] at h
    by_cases he : e.key = k
    · rw [if_pos he, Option.some.injEq] at h
      subst he h
      rw [remove, if_pos rfl]
      refine .cons _ (List.perm_append_comm.trans (.of_eq ?_))
      rcases List.eq_nil_or_concat c with rfl | ⟨c, last, rfl⟩ <;> simp
    · rw [if_neg he] at h
      rw [remove, if_neg he]
      exact (List.Perm.swap _ _ _).trans ((ih h).cons e)

end Chain

/-- The nodes that test one variable, by their children. -/
structure Subtable where
  var : Var
  buckets : Array Chain
  /-- The number of entries, of live nodes and of dead ones. -/
  count : Nat
  /-- The number of buckets below which the table does not shrink. -/
  minBuckets : Nat
  minBuckets_pos : 0 < minBuckets
  minBuckets_le : minBuckets ≤ buckets.size
deriving DecidableEq, Repr

namespace Subtable

/-- The average length of chains at which a table doubles. -/
def highWater : Nat := 10

/-- The average length of chains at which a table is halved. -/
def lowWater : Nat := 2

/-- The bucket for children `k` among `size` buckets. -/
def slot (v : Var) (k : Children) (size : Nat) : Nat :=
  (17 + v.index + 23 * (k.low.toNat + 23 * k.high.toNat)) % 0x80000000 % size

theorem slot_lt (v : Var) (k : Children) {size : Nat} (h : 0 < size) : slot v k size < size :=
  Nat.mod_lt _ h

/-- No table is without buckets. -/
theorem size_pos (t : Subtable) : 0 < t.buckets.size :=
  Nat.lt_of_lt_of_le t.minBuckets_pos t.minBuckets_le

/-- The empty table with at least one bucket. -/
def empty (v : Var) (buckets : Nat) : Subtable where
  var := v
  buckets := Array.replicate (max buckets 1) []
  count := 0
  minBuckets := max buckets 1
  minBuckets_pos := by omega
  minBuckets_le := by simp

/-- The most buckets that there is room for, at 24 bytes each in a space of `2 ^ 63 - 1` bytes. -/
def maxBuckets : Nat := 0x7fffffffffffffff / 24

/-- `empty` for callers, who may ask for more buckets than there is room for. -/
def make (v : Var) (buckets : Nat) : Except Fault Subtable :=
  if buckets ≤ maxBuckets then .ok (empty v buckets) else .error .noRoom

/-- The chain in which the entry of children `k` is. -/
def chainOf (t : Subtable) (k : Children) : Chain :=
  have := slot_lt t.var k t.size_pos
  t.buckets[slot t.var k t.buckets.size]

/-- All entries, bucket by bucket. -/
def entries (t : Subtable) : List Entry := t.buckets.toList.flatten

/-- All nodes entered, bucket by bucket. -/
def nodes (t : Subtable) : List NodeId := t.entries.map Entry.node

/-- Whether there is no entry. -/
def isEmpty (t : Subtable) : Bool := t.count == 0

/-- The node entered for children `k`, alive or not. -/
def entered? (t : Subtable) (k : Children) : Option NodeId := (t.chainOf k).lookup k

/-- The live node with children `k`. -/
def find? (t : Subtable) (k : Children) (alive : NodeId → Bool) : Option NodeId :=
  (t.entered? k).filter alive

/-- The table with the chain of `k` changed by `f`. -/
def modifyChain (t : Subtable) (k : Children) (f : Chain → Chain) : Subtable :=
  { t with
    buckets := t.buckets.modify (slot t.var k t.buckets.size) f
    minBuckets_le := by simpa using t.minBuckets_le }

/-- The row with more entries, each at the end of its chain. -/
def fill (v : Var) (es : List Entry) (row : Array Chain) : Array Chain :=
  es.foldl (fun row e => row.modify (slot v e.key row.size) (· ++ [e])) row

@[simp] theorem size_fill (v : Var) (es : List Entry) (row : Array Chain) :
    (fill v es row).size = row.size := by
  induction es generalizing row with
  | nil => rfl
  | cons e es ih => exact (ih _).trans (Array.size_modify ..)

/-- The same entries in `size` buckets. They move over bucket by bucket. -/
def resize (t : Subtable) (size : Nat) (h : t.minBuckets ≤ size) : Subtable :=
  { t with
    buckets := fill t.var t.entries (Array.replicate size [])
    minBuckets_le := by simpa using h }

/-- Twice the buckets, if the chains have reached the high mark. -/
def grow (t : Subtable) : Subtable :=
  if highWater * t.buckets.size ≤ t.count then
    t.resize (2 * t.buckets.size) (by have := t.minBuckets_le; omega)
  else t

/-- Half the buckets, if the chains have come down to the low mark. -/
def shrink (t : Subtable) : Subtable :=
  if t.minBuckets < t.buckets.size ∧ t.count ≤ lowWater * t.buckets.size then
    t.resize (max (t.buckets.size / 2) t.minBuckets) (Nat.le_max_right _ _)
  else t

/-- Enters `n` for children `k`. A dead node gives way, a live one does not. Room is made first, so
that the table may have grown even if the node is refused. -/
def insert (t : Subtable) (k : Children) (n : NodeId) (alive : NodeId → Bool) :
    Except Rejection Unit × Subtable :=
  let t := t.grow
  match t.entered? k with
  | some m =>
    if m ≠ n ∧ alive m then (.error (.shapeTaken t.var k.low k.high), t)
    else (.ok (), t.modifyChain k (Chain.overwrite k n))
  | none => (.ok (), { t.modifyChain k (· ++ [⟨k, n⟩]) with count := t.count + 1 })

/-- Takes out the entry for children `k`, and tells which node was entered. -/
def erase (t : Subtable) (k : Children) : Except Fault (Option NodeId × Subtable) :=
  match t.entered? k with
  | none => .ok (none, t)
  | some n => do
    let count ← decrease t.count 1
    return (some n, { t.modifyChain k (Chain.remove k) with count := count }.shrink)

/-- The table with the entries of live nodes in their buckets. -/
def retain (t : Subtable) (alive : NodeId → Bool) : Subtable :=
  { t with
    buckets := t.buckets.map fun c => c.filter fun e => alive e.node
    minBuckets_le := by simpa using t.minBuckets_le }

/-- Takes out the entries of dead nodes, and tells how many there were. -/
def removeDead (t : Subtable) (alive : NodeId → Bool) : Except Fault (Nat × Subtable) := do
  let removed := t.entries.countP fun e => !alive e.node
  let count ← decrease t.count removed
  return (removed, { t.retain alive with count := count }.shrink)

end Subtable

end DecisionGraph
