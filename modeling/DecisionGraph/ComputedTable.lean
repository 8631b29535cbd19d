import Std.Data.ExtTreeMap
import DecisionGraph.NodeId

/-!
# The computed table

Results of synthesis by their three operands. The table keeps no node alive: a result counts only
while it is alive, and `purge` drops what has a dead node in it. Since the number of a node is never
given away again, a dead result cannot be taken for another node.
-/

namespace DecisionGraph

/-- How often the computed table had an answer, how often not, and how much it holds. -/
structure ComputedStats where
  hits : Nat
  misses : Nat
  entries : Nat
deriving DecidableEq, Repr

/-- Known results, with a tally of the questions asked. -/
structure ComputedTable where
  results : Std.ExtTreeMap NodeTriple NodeId
  hits : Nat
  misses : Nat

namespace ComputedTable

def empty : ComputedTable := ⟨∅, 0, 0⟩

/-- The number of results. -/
def size (t : ComputedTable) : Nat := t.results.size

def stats (t : ComputedTable) : ComputedStats := ⟨t.hits, t.misses, t.size⟩

/-- Forgets all results, but not the tally. -/
def clear (t : ComputedTable) : ComputedTable := { t with results := ∅ }

/-- Asks for the result of the operands `k`. A dead result is dropped and does not count. -/
def lookup (t : ComputedTable) (k : NodeTriple) (alive : NodeId → Bool) :
    Option NodeId × ComputedTable :=
  match t.results[k]? with
  | some r =>
    if alive r then (some r, { t with hits := t.hits + 1 })
    else (none, { t with results := t.results.erase k, misses := t.misses + 1 })
  | none => (none, { t with misses := t.misses + 1 })

/-- Notes `r` as the result of the operands `k`. -/
def insert (t : ComputedTable) (k : NodeTriple) (r : NodeId) : ComputedTable :=
  { t with results := t.results.insert k r }

/-- Drops every result that is dead or has a dead operand, and tells how many there were. -/
def purge (t : ComputedTable) (alive : NodeId → Bool) : Nat × ComputedTable :=
  let kept := t.results.filter fun k r =>
    alive r && alive k.first && alive k.second && alive k.third
  (t.results.size - kept.size, { t with results := kept })

end ComputedTable

end DecisionGraph
