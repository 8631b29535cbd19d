import DecisionGraph.Sifting
import DecisionGraph.Synthesis

/-!
# Calls

The calls that change a store, as data, so that what clients do is a list of them.

Main definitions:

* `Call`, `Answer` — a call and what it tells.
* `Store.perform` — what a call does.
* `Store.performAll` — what a list of calls does, if none breaks off.
-/

namespace DecisionGraph

/-- A call that changes the store. -/
inductive Call where
  | create (v : Var) (low high : NodeId)
  | createHeld (v : Var) (low high : NodeId)
  | addVariable
  | ite (f g h : NodeId)
  | and (f g : NodeId)
  | or (f g : NodeId)
  | xor (f g : NodeId)
  | implies (f g : NodeId)
  | negate (f : NodeId)
  | restrict (f : NodeId) (positive negative : Option Var)
  | reduce (f : NodeId)
  | swap (v w : Var)
  | sift (f : NodeId)
  | reference (f : NodeId)
  | release (f : NodeId)
  | delete (f : NodeId)
  | collectGarbage
deriving DecidableEq, Repr

/-- What a call tells. -/
inductive Answer where
  | node (n : NodeId)
  | var (v : Var)
  | done
  /-- How many nodes were collected. -/
  | collected (count : Nat)
  | sifted (root : NodeId) (stats : SiftStats)
deriving DecidableEq, Repr

namespace Store

/-- A step that cannot be rejected, with its result as the answer. -/
def answer {α : Type} (f : α → Answer) (step : Except Fault (α × Store)) :
    Except Fault (Except Rejection Answer × Store) := do
  let (a, s) ← step
  return (.ok (f a), s)

/-- A step that may be rejected, with its result as the answer. -/
def answerOr {α : Type} (f : α → Answer) (step : Except Fault (Except Rejection α × Store)) :
    Except Fault (Except Rejection Answer × Store) := do
  let (result, s) ← step
  return (result.map f, s)

/-- What a call does. -/
def perform (s : Store) : Call → Except Fault (Except Rejection Answer × Store)
  | .create v low high => answer .node (s.create v low high)
  | .createHeld v low high => answer .node (s.createHeld v low high)
  | .addVariable => answer .var (.ok s.addVariable)
  | .ite f g h => answer .node (s.ite f g h)
  | .and f g => answer .node (s.and f g)
  | .or f g => answer .node (s.or f g)
  | .xor f g => answer .node (s.xor f g)
  | .implies f g => answer .node (s.implies f g)
  | .negate f => answer .node (s.negate f)
  | .restrict f positive negative => answerOr .node (restrict f positive negative s)
  | .reduce f => answer .node (s.reduce f)
  | .swap v w => answerOr (fun _ => .done) (swap v w s)
  | .sift f => answerOr (fun r => .sifted r.1 r.2) (sift f s)
  | .reference f => answer .node (s.reference f)
  | .release f => answer .collected (s.release f)
  | .delete f => answer .collected (s.delete f)
  | .collectGarbage => answer .collected s.collectGarbage

/-- What the calls of a list do, one after the other. A call that is rejected does not end the list;
one that breaks off does. -/
def performAll : List Call → Store → Except Fault Store
  | [], s => .ok s
  | c :: cs, s => do performAll cs (← s.perform c).2

end Store

end DecisionGraph
