import DecisionGraph.Action

/-!
# Synthesis

Every connective is a case of if-then-else:

* `f ∧ g` is `ite f g 0`, and `f ∨ g` is `ite f 1 g`;
* `f ⊕ g` is `ite f (¬ g) g`, and `f → g` is `ite f g 1`.

If-then-else is expanded by the variable on the smallest level among the three operands, so that it
is right under any order. A node made here is never an idle test. Results are kept in the computed
table, where the complement of `f` stands as `ite f 0 1`.

Main definitions:

* `Store.restrictWithin`, `Store.negateWithin`, `Store.iteWithin` — the recursions, with a bound on
  the calls that stand inside each other.
* `Store.cofactors` — both cofactors by the variable that if-then-else expands.
* `Store.restrict`, `Store.negate`, `Store.ite` and the connectives — the same with a bound that is
  always enough.
-/

namespace DecisionGraph

namespace Store

/-- Asks the computed table for a live result. -/
def consult (s : Store) (k : NodeTriple) : Option NodeId × Store :=
  let (result, computed) := s.computed.lookup k s.diagram.alive
  (result, { s with computed := computed })

/-- Notes a result in the computed table. -/
def remember (s : Store) (k : NodeTriple) (r : NodeId) : Store :=
  { s with computed := s.computed.insert k r }

/-! ## Cofactors by any variable -/

/-- The cofactor of `n` by `v` at `value`, with at most `k` calls inside each other. A node below
`v` is its own cofactor. -/
def restrictWithin (v : Var) (value : Bool) :
    Nat → NodeId → NodeMap NodeId → Store → Except Fault (NodeId × NodeMap NodeId × Store)
  | 0, _, _, _ => .error .tooDeep
  | _ + 1, .terminal b, known, s => .ok (.terminal b, known, s)
  | k + 1, .inner i, known, s => do
    let n := NodeId.inner i
    let b ← s.diagram.branch n
    if b.var = v then return (if value then b.high else b.low, known, s)
    if s.order.levelOf v < s.order.levelOf b.var then return (n, known, s)
    match known[n]? with
    | some r => return (r, known, s)
    | none =>
      let (low, known, s) ← restrictWithin v value k b.low known s
      let (high, known, s) ← restrictWithin v value k b.high known s
      let (r, s) ← s.consReduced b.var low high
      return (r, known.insert n r, s)

/-- The cofactor of `n` by `v` at `value`. -/
def cofactor (n : NodeId) (v : Var) (value : Bool) : Action NodeId := do
  if (← .store).order.knows v then
    .step fun s => do
      let (r, _, s) ← restrictWithin v value s.diagram.depth n ∅ s
      return (r, s)
  else .reject (.unknownVariable v)

/-- The two cofactors of `n` by `v`, each with at most `k` calls inside each other. What has been found
on the way to the first is passed on to the second, though it is about the other value. So this is
right only where nothing is found on the way, as by a variable on the level of `n` or above. -/
def cofactorsWithin (k : Nat) (s : Store) (v : Var) (n : NodeId) :
    Except Fault (Children × Store) := do
  let (low, known, s) ← restrictWithin v false k n ∅ s
  let (high, _, s) ← restrictWithin v true k n known s
  return (⟨low, high⟩, s)

/-- The cofactors of `n` by a variable on its level or above. -/
def cofactors (s : Store) (v : Var) (n : NodeId) : Except Fault (Children × Store) :=
  cofactorsWithin s.diagram.depth s v n

/-- The cofactor of `n` by one variable: by `positive` at true or by `negative` at false. With
neither, `n` itself. -/
def restrict (n : NodeId) : Option Var → Option Var → Action NodeId
  | some p, some q => .reject (.conflictingRestriction p q)
  | some v, none => cofactor n v true
  | none, some v => cofactor n v false
  | none, none => return n

/-! ## Complement and if-then-else -/

/-- The complement of a node, with at most `k` calls inside each other. -/
def negateWithin : Nat → NodeId → Store → Except Fault (NodeId × Store)
  | 0, _, _ => .error .tooDeep
  | _ + 1, .terminal b, s => .ok (.terminal !b, s)
  | k + 1, .inner i, s =>
    let key : NodeTriple := ⟨.inner i, .zero, .one⟩
    match s.consult key with
    | (some r, s) => .ok (r, s)
    | (none, s) => do
      let b ← s.diagram.branch (.inner i)
      let (low, s) ← negateWithin k b.low s
      let (high, s) ← negateWithin k b.high s
      let (r, s) ← s.consReduced b.var low high
      return (r, s.remember key r)

/-- The node that agrees with `g` where `f` is true and with `h` elsewhere, with at most `k` calls
inside each other. -/
def iteWithin : Nat → NodeId → NodeId → NodeId → Store → Except Fault (NodeId × Store)
  | 0, _, _, _, _ => .error .tooDeep
  | k + 1, f, g, h, s =>
    if g = .one ∧ h = .zero then .ok (f, s)
    else if g = .zero ∧ h = .one then negateWithin k f s
    else if f = .one then .ok (g, s)
    else if f = .zero then .ok (h, s)
    else if g = h then .ok (g, s)
    else
      let key : NodeTriple := ⟨f, g, h⟩
      match s.consult key with
      | (some r, s) => .ok (r, s)
      | (none, s) => do
        let top := min (min (← s.levelOf f) (← s.levelOf g)) (← s.levelOf h)
        let v ← s.varAt top
        let (f', s) ← s.cofactors v f
        let (g', s) ← s.cofactors v g
        let (h', s) ← s.cofactors v h
        let (high, s) ← iteWithin k f'.high g'.high h'.high s
        let (low, s) ← iteWithin k f'.low g'.low h'.low s
        let (r, s) ← s.consReduced v low high
        return (r, s.remember key r)

/-- The node that agrees with `g` where `f` is true and with `h` elsewhere. Each call inside another
goes down from one of the three operands at least. -/
def ite (s : Store) (f g h : NodeId) : Except Fault (NodeId × Store) :=
  iteWithin (3 * s.diagram.depth) f g h s

/-- The complement. -/
def negate (s : Store) (f : NodeId) : Except Fault (NodeId × Store) :=
  negateWithin s.diagram.depth f s

/-- The conjunction. -/
def and (s : Store) (f g : NodeId) : Except Fault (NodeId × Store) := s.ite f g .zero

/-- The disjunction. -/
def or (s : Store) (f g : NodeId) : Except Fault (NodeId × Store) := s.ite f .one g

/-- The exclusive disjunction. -/
def xor (s : Store) (f g : NodeId) : Except Fault (NodeId × Store) := do
  let (notG, s) ← s.negate g
  s.ite f notG g

/-- The implication. -/
def implies (s : Store) (f g : NodeId) : Except Fault (NodeId × Store) := s.ite f g .one

end Store

end DecisionGraph
