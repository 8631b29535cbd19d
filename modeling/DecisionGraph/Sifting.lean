import DecisionGraph.Exchange
import DecisionGraph.Reduction

/-!
# Sifting

Sifting looks for a better place in the order for each variable in turn. A variable is moved down to
the bottom and then up to the top by exchanges with its neighbours, the root is measured after every
exchange, and at last the variable goes to the first level where the root was smallest. A move in
one direction ends early once the root grows beyond the bound of the settings times the best size.

All this works on the reduced root. In the meantime every node that was alive at the start is held
from outside, so that none of them is collected.

Main definitions:

* `Store.scanDown`, `Store.scanUp`, `Store.settle` — the travels of one variable.
* `Store.siftVariable` — the best place for one variable.
* `Store.sift` — the best places for all.
-/

namespace DecisionGraph

/-- What sifting did. -/
structure SiftStats where
  /-- The exchanges made. -/
  swaps : Nat
  /-- The size of the root before. -/
  initialSize : Nat
  /-- The size of the reduced root afterwards. -/
  finalSize : Nat
  /-- The smallest size met. -/
  bestSize : Nat
  /-- The variables sifted. -/
  sifted : Nat
deriving DecidableEq, Repr

namespace SiftStats

/-- The share of the size that was saved. -/
def ratio (t : SiftStats) : Float :=
  if t.initialSize = 0 then 0.0
  else 1.0 - t.finalSize.toUInt64.toFloat / t.initialSize.toUInt64.toFloat

/-- The share of the size that was saved, in hundredths. -/
def percent (t : SiftStats) : Float := t.ratio * 100.0

end SiftStats

/-- The travels of one variable. -/
structure Scan where
  /-- Where the variable is. -/
  level : Level
  /-- The first level where the root was smallest so far. -/
  best : Level
  bestSize : Nat
  /-- The size of the root after each exchange at which it was measured, the last one first. -/
  sizes : List Nat
  /-- The exchanges made. -/
  swaps : Nat
deriving DecidableEq, Repr

namespace Scan

/-- The travels before the first exchange. -/
def start (l : Level) (size : Nat) : Scan := ⟨l, l, size, [], 0⟩

/-- One exchange further, at level `l`, where the root has the given size. -/
def arrive (c : Scan) (l : Level) (size : Nat) : Scan :=
  { c with
    level := l
    best := if size < c.bestSize then l else c.best
    bestSize := if size < c.bestSize then size else c.bestSize
    sizes := size :: c.sizes
    swaps := c.swaps + 1 }

end Scan

namespace Store

/-- Exchanges the variable of level `l` with the next one. -/
def swapLevel (l : Level) : Action Unit := do
  let v ← .ask fun s => s.varAt l
  let w ← .ask fun s => s.varAt l.next
  swap v w

/-- Travels down by at most `k` levels. -/
def scanDown (root : NodeId) : Nat → Scan → Action Scan
  | 0, c => return c
  | k + 1, c => do
    swapLevel c.level
    let size ← .ask fun s => s.size root
    let d := c.arrive c.level.next size
    if c.bestSize ≤ size ∧ (← .store).config.maxGrowth.exceeded size c.bestSize then return d
    scanDown root k d

/-- Travels up by at most `k` levels, to the top. Growth counts only above the level `start`. -/
def scanUp (root : NodeId) (start : Level) : Nat → Scan → Action Scan
  | 0, c => return c
  | k + 1, c => do
    swapLevel k
    let size ← .ask fun s => s.size root
    let d := c.arrive k size
    if k < start ∧ c.bestSize ≤ size ∧ (← .store).config.maxGrowth.exceeded size c.bestSize then
      return d
    scanUp root start k d

/-- Exchanges the variable of level `l` with the next `k` ones. -/
def moveDown : Nat → Level → Action Unit
  | 0, _ => return ()
  | k + 1, l => do
    swapLevel l
    moveDown k l.next

/-- Exchanges the variable of level `l` with the `k` ones before it. -/
def moveUp : Nat → Level → Action Unit
  | 0, _ => return ()
  | k + 1, l => do
    swapLevel (l - 1)
    moveUp k (l - 1)

/-- Goes to the best level. -/
def settle (c : Scan) : Action Scan := do
  moveDown (c.best - c.level) c.level
  moveUp (c.level - c.best) c.level
  return { c with level := c.best, swaps := c.swaps + (c.best - c.level) + (c.level - c.best) }

/-- Moves a variable to the first level where `root` was smallest, of those it came to. -/
def siftVariable (root : NodeId) (v : Var) : Action Scan := do
  let start := (← .store).order.levelOf v
  let size ← .ask fun s => s.size root
  let below := (← .store).varCount - start.next
  let c ← scanDown root below (.start start size)
  let c ← scanUp root start c.level c
  settle c

/-- Sifts each of the variables, and keeps account of it. -/
def siftVariables (root : NodeId) : List Var → SiftStats → Action SiftStats
  | [], stats => return stats
  | v :: vs, stats => do
    let c ← siftVariable root v
    siftVariables root vs
      { stats with
        swaps := stats.swaps + c.swaps
        bestSize := min stats.bestSize c.bestSize
        sifted := stats.sifted + 1 }

/-- Sifts every variable, by their indices, on the reduced root, and tells which node that is. If an
exchange is rejected, the variables keep the places they have come to. -/
def sift (root : NodeId) : Action (NodeId × SiftStats) := fun s => do
  let initialSize ← s.size root
  let pinned := s.diagram.inners
  let s ← addRefs pinned s
  let (reduced, s) ← s.reduce root
  let s ← s.addRef reduced
  let bestSize ← s.size reduced
  let vars := (List.range s.varCount).map Var.mk
  match ← siftVariables reduced vars ⟨0, initialSize, 0, bestSize, 0⟩ s with
  | (.error e, s) =>
    let (_, s) ← if reduced = root then s.dropRef reduced else s.release reduced
    return (.error e, ← dropRefs pinned s)
  | (.ok stats, s) =>
    let s ← dropRefs pinned s
    let (_, s) ← s.dropRef reduced
    return (.ok (reduced, { stats with finalSize := ← s.size reduced }), s)

end Store

end DecisionGraph
