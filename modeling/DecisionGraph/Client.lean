import DecisionGraph.Call
import DecisionGraph.Path

/-!
# Clients

A client works on one store and remembers what it holds: the references that it has taken and not
given back. It keeps to the contract of the store: it names live nodes, tests known variables above
their children, and gives back what it holds, though it may also release a node that has no
reference at all.

Main definitions:

* `Call.operands`, `Call.AvoidsIdle` — the nodes that a call names, and calls that do not ask for an
  idle test.
* `Client.Permits` — the calls that keep to the contract.
* `Client.Step`, `Client.Reachable` — what such calls lead to.
-/

namespace DecisionGraph

/-- The nodes that a call names. -/
def Call.operands : Call → List NodeId
  | create _ low high => [low, high]
  | createHeld _ low high => [low, high]
  | addVariable => []
  | ite f g h => [f, g, h]
  | and f g => [f, g]
  | or f g => [f, g]
  | xor f g => [f, g]
  | implies f g => [f, g]
  | negate f => [f]
  | restrict f _ _ => [f]
  | reduce f => [f]
  | swap _ _ => []
  | sift f => [f]
  | reference f => [f]
  | release f => [f]
  | delete f => [f]
  | collectGarbage => []

/-- The call does not ask for a test with one node as both children. -/
def Call.AvoidsIdle : Call → Prop
  | create _ low high => low ≠ high
  | createHeld _ low high => low ≠ high
  | _ => True

instance : DecidablePred Call.AvoidsIdle
  | .create _ low high => inferInstanceAs (Decidable (low ≠ high))
  | .createHeld _ low high => inferInstanceAs (Decidable (low ≠ high))
  | .addVariable | .ite _ _ _ | .and _ _ | .or _ _ | .xor _ _ | .implies _ _ | .negate _
  | .restrict _ _ _ | .reduce _ | .swap _ _ | .sift _ | .reference _ | .release _ | .delete _
  | .collectGarbage => .isTrue trivial

/-- A store, and how often the client holds each node. -/
structure Client where
  store : Store
  held : NodeId → Nat

namespace Client

/-- A client with a new store. -/
def start (varCount : Nat) (config : Config) : Client := ⟨.new varCount config, fun _ => 0⟩

/-- `v` is known, and both nodes lie strictly below it. -/
def Testable (s : Store) (v : Var) (low high : NodeId) : Prop :=
  s.order.knows v ∧ ∀ n ∈ [low, high], ∃ l, s.levelOf n = .ok l ∧ s.order.levelOf v < l

/-- What the contract asks of a call besides live nodes. -/
def Obligation (c : Client) : Call → Prop
  | .create v low high => Testable c.store v low high
  | .createHeld v low high => Testable c.store v low high
  | .release n => 0 < c.held n ∨ c.store.refCount n = 0
  | _ => True

/-- A call that keeps to the contract. -/
def Permits (c : Client) (call : Call) : Prop :=
  (∀ n ∈ call.operands, c.store.alive n) ∧ c.Obligation call

/-- What the client holds after a call. -/
def heldAfter (held : NodeId → Nat) : Call → Except Rejection Answer → NodeId → Nat
  | .createHeld _ _ _, .ok (.node n), m => if m = n then held m + 1 else held m
  | .reference n, _, m => if m = n then held m + 1 else held m
  | .release n, _, m => if m = n then held m - 1 else held m
  | _, _, m => held m

/-- A permitted call leads from one client to the next. -/
inductive Step : Client → Client → Prop where
  | call {c : Client} {call : Call} {result : Except Rejection Answer} {s : Store}
      (permitted : c.Permits call) (performed : c.store.perform call = .ok (result, s)) :
      Step c ⟨s, heldAfter c.held call result⟩

/-- What permitted calls can lead to. -/
inductive Reachable : Client → Prop where
  | start (varCount : Nat) (config : Config) : Reachable (start varCount config)
  | step {c d : Client} (reached : Reachable c) (step : Step c d) : Reachable d

end Client

end DecisionGraph
