import DecisionGraph.Proofs.Edges

/-!
# What a node means

A node has a value under each assignment, and variables occur in it: those tested by it or below it.
Both are said by rules and not by a traversal, so that they can be followed through every change of
the diagram. There are three changes: a diagram grows by nodes over old ones, it shrinks to a closed
part, and the branch of a node is replaced by one with the same meaning.

* `Value.unique`, `Value.extends`, `Value.shrink` — values under growth and shrinking.
* `Unfolds` — a node that stands for a shape: the node of the shape, or the one child.
* `Evolves` — nodes never come back; those that stay keep their values and their variables, and no
  idle test comes below them. All changes of a diagram are of this kind (`Grows.evolves`,
  `Shrinks.evolves`, `Matches.evolves`), one after the other too (`Evolves.trans`).
-/

namespace DecisionGraph

namespace Diagram

/-- The value of a node under an assignment. -/
inductive Value (d : Diagram) (a : Assignment) : NodeId → Bool → Prop where
  | terminal (value : Bool) : Value d a (.terminal value) value
  | step {n : NodeId} {b : Branch} {value : Bool} (h : d.branch? n = some b)
      (next : Value d a (if a b.var then b.high else b.low) value) : Value d a n value

/-- The variables tested by a node or below it. -/
inductive Occurs (d : Diagram) : NodeId → Var → Prop where
  | here {n : NodeId} {b : Branch} (h : d.branch? n = some b) : Occurs d n b.var
  | low {n : NodeId} {b : Branch} {v : Var} (h : d.branch? n = some b) (below : Occurs d b.low v) :
      Occurs d n v
  | high {n : NodeId} {b : Branch} {v : Var} (h : d.branch? n = some b)
      (below : Occurs d b.high v) : Occurs d n v

/-- The children of live nodes are alive. -/
def Closed (d : Diagram) : Prop :=
  ∀ n b, d.branch? n = some b → d.alive b.low ∧ d.alive b.high

/-- Different nodes have different branches. -/
def Distinct (d : Diagram) : Prop := ∀ m n b, d.branch? m = some b → d.branch? n = some b → m = n

/-- Every live node of `d` has the same branch in `d'`. -/
def Extends (d d' : Diagram) : Prop := ∀ n b, d.branch? n = some b → d'.branch? n = some b

variable {d d' d'' : Diagram} {a : Assignment} {b : Branch} {m n : NodeId} {v : Var} {x y : Bool}
  {k : Children}

theorem Closed.child (h : d.Closed) (hb : d.branch? n = some b) (x : Bool) :
    d.alive (if x then b.high else b.low) := by
  cases x
  · exact (h n b hb).1
  · exact (h n b hb).2

theorem Child.exists_branch (h : d.Child m n) :
    ∃ b, d.branch? m = some b ∧ (n = b.low ∨ n = b.high) := by
  cases h with
  | low hb => exact ⟨_, hb, Or.inl rfl⟩
  | high hb => exact ⟨_, hb, Or.inr rfl⟩

theorem child_iff (hb : d.branch? m = some b) : d.Child m n ↔ n = b.low ∨ n = b.high := by
  constructor
  · intro h
    obtain ⟨b', hb', hn⟩ := h.exists_branch
    rw [hb, Option.some.injEq] at hb'
    exact hb' ▸ hn
  · rintro (rfl | rfl)
    · exact .low hb
    · exact .high hb

theorem child_iff_exists :
    d.Child m n ↔ ∃ b, ∃ x : Bool, d.branch? m = some b ∧ n = if x then b.high else b.low := by
  constructor
  · intro h
    cases h with
    | low hb => exact ⟨_, false, hb, rfl⟩
    | high hb => exact ⟨_, true, hb, rfl⟩
  · rintro ⟨b, _ | _, hb, rfl⟩
    · exact .low hb
    · exact .high hb

theorem Child.alive (h : d.Child m n) : d.alive m := by
  obtain ⟨b, hb, -⟩ := h.exists_branch
  exact alive_of_branch? hb

theorem Closed.alive_of_child (hc : d.Closed) (h : d.Child m n) : d.alive n := by
  obtain ⟨b, hb, rfl | rfl⟩ := h.exists_branch
  · exact (hc m b hb).1
  · exact (hc m b hb).2

theorem Extends.refl (d : Diagram) : d.Extends d := fun _ _ h => h

theorem Extends.trans (h : d.Extends d') (h' : d'.Extends d'') : d.Extends d'' :=
  fun n b hb => h' n b (h n b hb)

theorem Extends.alive (h : d.Extends d') (ha : d.alive n) : d'.alive n := by
  rw [alive_iff] at ha ⊢
  exact ha.imp_right fun ⟨b, hb⟩ => ⟨b, h n b hb⟩

/-- A live node of the smaller diagram has in it the branch that it has in the larger. -/
theorem Extends.branch?_eq (h : d.Extends d') (ha : d.alive n) : d.branch? n = d'.branch? n := by
  rcases alive_iff.mp ha with ht | ⟨b, hb⟩
  · cases n with
    | terminal value => rfl
    | inner i => cases ht
  · rw [hb, h n b hb]

theorem Extends.branch?_eq_none (h : d.Extends d') (hn : d'.branch? n = none) :
    d.branch? n = none :=
  Option.eq_none_iff_forall_ne_some.mpr fun b hb => by
    rw [h n b hb] at hn
    cases hn

theorem extends_push (d : Diagram) (b : Branch) : d.Extends (d.push b) := by
  intro n b' hb'
  rw [branch?_push, if_neg]
  · exact hb'
  · rintro rfl
    rw [branch?_fresh] at hb'
    cases hb'

theorem clear_extends (d : Diagram) (n : NodeId) : (d.clear n).Extends d := by
  intro m b hb
  rw [branch?_clear] at hb
  split at hb
  · cases hb
  · exact hb

theorem alive_clear_of_ne (d : Diagram) (h : m ≠ n) : (d.clear n).alive m = d.alive m := by
  cases m with
  | terminal value => rfl
  | inner i => rw [alive_inner, alive_inner, branch?_clear, if_neg h]

/-- What is in `d'` and not in `d` is no idle test, and has the property `P`. -/
def Gains (d d' : Diagram) (P : NodeId → Prop) : Prop :=
  ∀ m b, d'.branch? m = some b → d.branch? m = some b ∨ b.low ≠ b.high ∧ P m

section Gains

variable {P Q : NodeId → Prop}

theorem Gains.refl (d : Diagram) (P : NodeId → Prop) : d.Gains d P := fun _ _ hb => Or.inl hb

theorem Gains.mono (h : d.Gains d' P) (hPQ : ∀ m, P m → Q m) : d.Gains d' Q :=
  fun m b hb => (h m b hb).imp_right (And.imp_right (hPQ m))

theorem Gains.trans (h : d.Gains d' P) (h' : d'.Gains d'' P) : d.Gains d'' P := by
  intro m b hb
  rcases h' m b hb with hb | hm
  · exact h m b hb
  · exact Or.inr hm

theorem Gains.noIdle (h : d.Gains d' P) (hd : d.NoIdle) : d'.NoIdle := by
  rw [noIdle_iff] at hd ⊢
  intro m b hb
  rcases h m b hb with hb | ⟨hne, -⟩
  · exact hd m b hb
  · exact hne

end Gains

/-- With more nodes, there are no fewer edges. -/
theorem Extends.edgesInto_le (h : d.Extends d') (n : NodeId) : d.edgesInto n ≤ d'.edgesInto n := by
  rw [edgesInto_eq_total, edgesInto_eq_total]
  refine weigh_le _ fun i o ho hne => ?_
  cases o with
  | none => exact absurd rfl hne
  | some b => exact getElem?_slots (h _ b (branch?_of_slots ho))

/-- What lies below a node is the node itself, or lies below one of its children. -/
theorem Below.of_branch? (hb : d.branch? m = some b) (h : d.Below m n) :
    n = m ∨ d.Below b.low n ∨ d.Below b.high n := by
  induction h with
  | refl => exact Or.inl rfl
  | step _ edge ih =>
    rcases ih with rfl | h | h
    · rcases (child_iff hb).mp edge with rfl | rfl
      · exact Or.inr (Or.inl .refl)
      · exact Or.inr (Or.inr .refl)
    · exact Or.inr (Or.inl (.step h edge))
    · exact Or.inr (Or.inr (.step h edge))

theorem Below.extends (h : d.Below m n) (he : d.Extends d') : d'.Below m n := by
  induction h with
  | refl => exact .refl
  | step _ edge ih =>
    cases edge with
    | low hb => exact .step ih (.low (he _ _ hb))
    | high hb => exact .step ih (.high (he _ _ hb))

theorem Below.shrink (h : d.Below m n) (he : d'.Extends d) (hc : d'.Closed) (ha : d'.alive m) :
    d'.Below m n ∧ d'.alive n := by
  induction h with
  | refl => exact ⟨.refl, ha⟩
  | step _ edge ih =>
    obtain ⟨hbelow, ha⟩ := ih
    cases edge with
    | low hb =>
      have hb' := (he.branch?_eq ha).trans hb
      exact ⟨.step hbelow (.low hb'), (hc _ _ hb').1⟩
    | high hb =>
      have hb' := (he.branch?_eq ha).trans hb
      exact ⟨.step hbelow (.high hb'), (hc _ _ hb').2⟩

/-- In a smaller diagram there are no more idle tests. -/
theorem Extends.reduced (he : d'.Extends d) (h : d.Reduced n) : d'.Reduced n :=
  fun m hm ⟨b, hb, heq⟩ => h m (hm.extends he) ⟨b, he m b hb, heq⟩

theorem Extends.noIdle (he : d'.Extends d) (h : d.NoIdle) : d'.NoIdle :=
  fun m ⟨b, hb, heq⟩ => h m ⟨b, he m b hb, heq⟩

/-- In a larger diagram, nothing more lies below the old nodes. -/
theorem Reduced.extends (h : d.Reduced n) (he : d.Extends d') (hc : d.Closed) (ha : d.alive n) :
    d'.Reduced n := by
  rintro m hm ⟨b, hb, heq⟩
  obtain ⟨hm, ha⟩ := hm.shrink he hc ha
  exact h m hm ⟨b, (he.branch?_eq ha).trans hb, heq⟩

/-! ## Values -/

theorem Value.of_branch? (hb : d.branch? n = some b) (h : d.Value a n x) :
    d.Value a (if a b.var then b.high else b.low) x := by
  cases h with
  | terminal => simp at hb
  | step hb' next =>
    rw [hb, Option.some.injEq] at hb'
    subst hb'
    exact next

@[simp] theorem value_terminal_iff : d.Value a (.terminal y) x ↔ x = y := by
  constructor
  · intro h
    cases h with
    | terminal => rfl
    | step hb => simp at hb
  · rintro rfl
    exact .terminal x

theorem Value.unique (h : d.Value a n x) (h' : d.Value a n y) : x = y := by
  induction h with
  | terminal => exact (value_terminal_iff.mp h').symm
  | step hb _ ih => exact ih (h'.of_branch? hb)

theorem Value.extends (h : d.Value a n x) (he : d.Extends d') : d'.Value a n x := by
  induction h with
  | terminal => exact .terminal _
  | step hb _ ih => exact .step (he _ _ hb) ih

theorem Value.shrink (h : d.Value a n x) (he : d'.Extends d) (hc : d'.Closed) (ha : d'.alive n) :
    d'.Value a n x := by
  induction h with
  | terminal => exact .terminal _
  | @step n b x hb _ ih =>
    have hb' : d'.branch? n = some b := (he.branch?_eq ha).trans hb
    exact .step hb' (ih (hc.child hb' _))

/-- A value depends only on the variables that occur in the node. -/
theorem Value.congr {a' : Assignment} (h : d.Value a n x) (heq : ∀ v, d.Occurs n v → a v = a' v) :
    d.Value a' n x := by
  induction h with
  | terminal => exact .terminal _
  | @step n b x hb _ ih =>
    refine .step hb ?_
    rw [← heq b.var (.here hb)]
    refine ih fun v hv => heq v ?_
    split at hv
    · exact .high hb hv
    · exact .low hb hv

theorem value_iff_of_branch? (hb : d.branch? n = some b) :
    d.Value a n x ↔ d.Value a (if a b.var then b.high else b.low) x :=
  ⟨fun h => h.of_branch? hb, fun h => .step hb h⟩

theorem Occurs.of_branch? (hb : d.branch? n = some b) (h : d.Occurs n v) :
    v = b.var ∨ d.Occurs b.low v ∨ d.Occurs b.high v := by
  cases h with
  | here hb' =>
    rw [hb, Option.some.injEq] at hb'
    exact Or.inl (by rw [hb'])
  | low hb' below =>
    rw [hb, Option.some.injEq] at hb'
    exact Or.inr (Or.inl (hb' ▸ below))
  | high hb' below =>
    rw [hb, Option.some.injEq] at hb'
    exact Or.inr (Or.inr (hb' ▸ below))

theorem not_occurs_terminal {value : Bool} : ¬ d.Occurs (.terminal value) v := by
  intro h
  cases h <;> simp_all

theorem Occurs.extends (h : d.Occurs n v) (he : d.Extends d') : d'.Occurs n v := by
  induction h with
  | here hb => exact .here (he _ _ hb)
  | low hb _ ih => exact .low (he _ _ hb) ih
  | high hb _ ih => exact .high (he _ _ hb) ih

theorem Occurs.shrink (h : d.Occurs n v) (he : d'.Extends d) (hc : d'.Closed) (ha : d'.alive n) :
    d'.Occurs n v := by
  induction h with
  | here hb => exact .here ((he.branch?_eq ha).trans hb)
  | low hb _ ih =>
    have hb' := (he.branch?_eq ha).trans hb
    exact .low hb' (ih (hc _ _ hb').1)
  | high hb _ ih =>
    have hb' := (he.branch?_eq ha).trans hb
    exact .high hb' (ih (hc _ _ hb').2)

theorem occurs_iff_of_branch? (hb : d.branch? n = some b) :
    d.Occurs n v ↔ v = b.var ∨ d.Occurs b.low v ∨ d.Occurs b.high v := by
  refine ⟨fun h => h.of_branch? hb, ?_⟩
  rintro (rfl | h | h)
  · exact .here hb
  · exact .low hb h
  · exact .high hb h

theorem Occurs.of_below (h : d.Occurs n v) (path : d.Below m n) : d.Occurs m v := by
  induction path with
  | refl => exact h
  | step _ edge ih =>
    cases edge with
    | low hb => exact ih (.low hb h)
    | high hb => exact ih (.high hb h)

/-- A variable occurs in a node if and only if it is tested below it. -/
theorem occurs_iff_exists_below :
    d.Occurs n v ↔ ∃ m b, d.Below n m ∧ d.branch? m = some b ∧ b.var = v := by
  constructor
  · intro h
    induction h with
    | here hb => exact ⟨_, _, .refl, hb, rfl⟩
    | low hb _ ih =>
      obtain ⟨m, b, hbelow, hm, hv⟩ := ih
      exact ⟨m, b, (Child.low hb).below.trans hbelow, hm, hv⟩
    | high hb _ ih =>
      obtain ⟨m, b, hbelow, hm, hv⟩ := ih
      exact ⟨m, b, (Child.high hb).below.trans hbelow, hm, hv⟩
  · rintro ⟨m, b, hbelow, hm, rfl⟩
    exact (Occurs.here hm).of_below hbelow

/-! ## Standing for a shape -/

/-- `n` stands for a test of `v` with cofactors `k`: it is that test, or the one cofactor. -/
def Unfolds (d : Diagram) (v : Var) (n : NodeId) (k : Children) : Prop :=
  k.low = k.high ∧ n = k.low ∨ k.low ≠ k.high ∧ d.branch? n = some ⟨k, v⟩

theorem Unfolds.value_iff (h : d.Unfolds v n k) (a : Assignment) (x : Bool) :
    d.Value a n x ↔ d.Value a (if a v then k.high else k.low) x := by
  rcases h with ⟨heq, rfl⟩ | ⟨-, hb⟩
  · rw [← heq, ite_self]
  · exact value_iff_of_branch? hb

theorem Unfolds.occurs_iff (h : d.Unfolds v n k) (x : Var) :
    d.Occurs n x ↔ (x = v ∧ k.low ≠ k.high) ∨ d.Occurs k.low x ∨ d.Occurs k.high x := by
  rcases h with ⟨heq, rfl⟩ | ⟨hne, hb⟩
  · rw [← heq]
    simp
  · rw [occurs_iff_of_branch? hb]
    simp [hne]

/-- A node stands for one shape, among those whose cofactors do not test `v`. -/
theorem Unfolds.unique {k' : Children} (h : d.Unfolds v n k) (h' : d.Unfolds v n k')
    (hk : ∀ b, d.branch? k.low = some b → b.var ≠ v)
    (hk' : ∀ b, d.branch? k'.low = some b → b.var ≠ v) : k = k' := by
  rcases h with ⟨heq, rfl⟩ | ⟨-, hb⟩
  · rcases h' with ⟨heq', hlow⟩ | ⟨-, hb'⟩
    · cases k
      cases k'
      simp_all
    · exact absurd rfl (hk _ hb')
  · rcases h' with ⟨-, rfl⟩ | ⟨-, hb'⟩
    · exact absurd rfl (hk' _ hb)
    · rw [hb, Option.some.injEq] at hb'
      exact congrArg Branch.toChildren hb'

/-- A shape is stood for by one node. -/
theorem Unfolds.node_unique (hd : d.Distinct) (h : d.Unfolds v m k) (h' : d.Unfolds v n k) :
    m = n := by
  rcases h with ⟨heq, rfl⟩ | ⟨hne, hb⟩
  · rcases h' with ⟨-, rfl⟩ | ⟨hne', -⟩
    · rfl
    · exact absurd heq hne'
  · rcases h' with ⟨heq', -⟩ | ⟨-, hb'⟩
    · exact absurd heq' hne
    · exact hd _ _ _ hb hb'

theorem Unfolds.of_branch?_eq (h : d.Unfolds v n k) (hn : d'.branch? n = d.branch? n) :
    d'.Unfolds v n k := by
  rcases h with h | ⟨hne, hb⟩
  · exact Or.inl h
  · exact Or.inr ⟨hne, hn.trans hb⟩

theorem Unfolds.extends (h : d.Unfolds v n k) (he : d.Extends d') : d'.Unfolds v n k :=
  h.imp_right fun ⟨hne, hb⟩ => ⟨hne, he _ _ hb⟩

theorem Unfolds.reduced (h : d.Unfolds v n k) (hlow : d.Reduced k.low) (hhigh : d.Reduced k.high) :
    d.Reduced n := by
  rcases h with ⟨-, rfl⟩ | ⟨hne, hb⟩
  · exact hlow
  · intro m hm
    rcases hm.of_branch? hb with rfl | hm | hm
    · rintro ⟨b', hb', heq⟩
      rw [hb, Option.some.injEq] at hb'
      subst hb'
      exact hne heq
    · exact hlow m hm
    · exact hhigh m hm

theorem Unfolds.below (h : d.Unfolds v n k) : d.Below n k.low ∧ d.Below n k.high := by
  rcases h with ⟨heq, rfl⟩ | ⟨-, hb⟩
  · exact ⟨.refl, heq ▸ .refl⟩
  · exact ⟨(Child.low hb).below, (Child.high hb).below⟩

/-! ## Evolution -/

/-- From `d` to `d'`, no node comes back, the nodes that stay mean the same, and no idle test comes
below them. -/
structure Evolves (d d' : Diagram) : Prop where
  fresh_le : d.fresh.toNat ≤ d'.fresh.toNat
  gone : ∀ n, n.toNat < d.fresh.toNat → d'.alive n → d.alive n
  value : ∀ n, d.alive n → d'.alive n → ∀ a x, d.Value a n x ↔ d'.Value a n x
  occurs : ∀ n, d.alive n → d'.alive n → ∀ v, d.Occurs n v ↔ d'.Occurs n v
  reduced : ∀ n, d.alive n → d'.alive n → d.Reduced n → d'.Reduced n

theorem Evolves.refl (d : Diagram) : d.Evolves d where
  fresh_le := Nat.le_refl _
  gone _ _ h := h
  value _ _ _ _ _ := Iff.rfl
  occurs _ _ _ _ := Iff.rfl
  reduced _ _ _ h := h

/-- A node alive before and after was alive in between. -/
theorem Evolves.alive_between (h : d.Evolves d') (h' : d'.Evolves d'') (ha : d.alive n)
    (ha' : d''.alive n) : d'.alive n :=
  h'.gone n (Nat.lt_of_lt_of_le (toNat_lt_fresh ha) h.fresh_le) ha'

theorem Evolves.issued (h : d.Evolves d') (hn : d.issued n) : d'.issued n :=
  issued_iff.mpr (Nat.lt_of_lt_of_le (issued_iff.mp hn) h.fresh_le)

/-- A node that is gone does not come back. -/
theorem Evolves.branch?_eq_none (h : d.Evolves d') (hn : d.issued n) (hgone : d.branch? n = none) :
    d'.branch? n = none := by
  cases n with
  | terminal value => rfl
  | inner i =>
    refine Option.eq_none_iff_forall_ne_some.mpr fun b hb => ?_
    obtain ⟨b', hb'⟩ := exists_branch (h.gone _ (issued_iff.mp hn) (alive_of_branch? hb))
    rw [hgone] at hb'
    cases hb'

theorem Evolves.trans (h : d.Evolves d') (h' : d'.Evolves d'') : d.Evolves d'' where
  fresh_le := Nat.le_trans h.fresh_le h'.fresh_le
  gone n hn ha := h.gone n hn (h'.gone n (Nat.lt_of_lt_of_le hn h.fresh_le) ha)
  value n ha ha' a x := by
    have hmid := h.alive_between h' ha ha'
    exact (h.value n ha hmid a x).trans (h'.value n hmid ha' a x)
  occurs n ha ha' v := by
    have hmid := h.alive_between h' ha ha'
    exact (h.occurs n ha hmid v).trans (h'.occurs n hmid ha' v)
  reduced n ha ha' hn := by
    have hmid := h.alive_between h' ha ha'
    exact h'.reduced n hmid ha' (h.reduced n ha hmid hn)

/-- Growth: all old nodes stay, and the new ones have new numbers, of which none is wasted. -/
structure Grows (d d' : Diagram) : Prop where
  subset : d.Extends d'
  fresh_le : d.fresh.toNat ≤ d'.fresh.toNat
  gone : ∀ n, n.toNat < d.fresh.toNat → d'.alive n → d.alive n
  issued : ∀ n, d'.issued n → d.issued n ∨ d'.alive n

theorem Grows.refl (d : Diagram) : d.Grows d :=
  ⟨.refl d, Nat.le_refl _, fun _ _ h => h, fun _ => Or.inl⟩

theorem Grows.trans (h : d.Grows d') (h' : d'.Grows d'') : d.Grows d'' where
  subset := h.subset.trans h'.subset
  fresh_le := Nat.le_trans h.fresh_le h'.fresh_le
  gone n hn ha := h.gone n hn (h'.gone n (Nat.lt_of_lt_of_le hn h.fresh_le) ha)
  issued n hn := by
    rcases h'.issued n hn with hn | ha
    · exact (h.issued n hn).imp_right h'.subset.alive
    · exact Or.inr ha

theorem issued_push {b : Branch} : (d.push b).issued n ↔ d.issued n ∨ n = d.fresh := by
  have hfresh : (d.push b).fresh.toNat = d.fresh.toNat + 1 := by simp [fresh, push, NodeId.toNat]
  have hnum : n = d.fresh ↔ n.toNat = d.fresh.toNat :=
    ⟨fun h => by rw [h], fun h => NodeId.toNat_injective h⟩
  rw [issued_iff, issued_iff, hfresh, hnum]
  omega

theorem grows_push (d : Diagram) (b : Branch) : d.Grows (d.push b) where
  subset := extends_push d b
  fresh_le := by simp [fresh, push, NodeId.toNat]
  gone n hn ha := by
    rw [alive_iff] at ha ⊢
    apply ha.imp_right
    rintro ⟨b', hb'⟩
    rw [branch?_push, if_neg] at hb'
    · exact ⟨b', hb'⟩
    · rintro rfl
      exact Nat.lt_irrefl _ hn
  issued n hn := by
    refine (issued_push.mp hn).imp_right fun hfresh => alive_of_branch? (b := b) ?_
    rw [branch?_push, if_pos hfresh]

theorem Grows.evolves (h : d.Grows d') (hc : d.Closed) : d.Evolves d' where
  fresh_le := h.fresh_le
  gone := h.gone
  value _ ha _ _ _ := ⟨fun hx => hx.extends h.subset, fun hx => hx.shrink h.subset hc ha⟩
  occurs _ ha _ _ := ⟨fun hv => hv.extends h.subset, fun hv => hv.shrink h.subset hc ha⟩
  reduced _ ha _ hn := hn.extends h.subset hc ha

/-- Shrinking: some nodes go, and no number is given out. -/
structure Shrinks (d d' : Diagram) : Prop where
  subset : d'.Extends d
  fresh_eq : d'.fresh.toNat = d.fresh.toNat

theorem Shrinks.refl (d : Diagram) : d.Shrinks d := ⟨.refl d, rfl⟩

theorem Shrinks.trans (h : d.Shrinks d') (h' : d'.Shrinks d'') : d.Shrinks d'' :=
  ⟨h'.subset.trans h.subset, h'.fresh_eq.trans h.fresh_eq⟩

theorem Shrinks.issued_eq (h : d.Shrinks d') (n : NodeId) : d'.issued n = d.issued n := by
  rw [issued, issued, h.fresh_eq]

theorem shrinks_clear (d : Diagram) (n : NodeId) : d.Shrinks (d.clear n) where
  subset := clear_extends d n
  fresh_eq := by cases n <;> simp [clear, fresh, NodeId.toNat]

/-- The inner nodes that are not in the other diagram. -/
def gone (d d' : Diagram) : List NodeId := d.inners.filter fun n => !d'.alive n

theorem mem_gone_iff : n ∈ d.gone d' ↔ (∃ b, d.branch? n = some b) ∧ ¬ d'.alive n := by
  rw [gone, List.mem_filter, mem_inners_iff, Bool.not_eq_true', Bool.not_eq_true]

/-- The nodes that are gone and those that are left are the nodes that were there. -/
theorem Shrinks.length_gone (h : d.Shrinks d') :
    (d.gone d').length + d'.inners.length = d.inners.length := by
  have hleft : (d.inners.filter d'.alive).Perm d'.inners := by
    refine (List.perm_ext_iff_of_nodup (d.inners_nodup.filter _) d'.inners_nodup).mpr fun n => ?_
    rw [List.mem_filter, mem_inners_iff, mem_inners_iff]
    constructor
    · rintro ⟨⟨b, hb⟩, ha⟩
      exact ⟨b, (h.subset.branch?_eq ha).trans hb⟩
    · rintro ⟨b, hb⟩
      exact ⟨⟨b, h.subset n b hb⟩, alive_of_branch? hb⟩
  rw [← hleft.length_eq, d.inners.length_eq_countP_add_countP d'.alive, Nat.add_comm,
    List.countP_eq_length_filter, List.countP_eq_length_filter]
  simp only [gone, Bool.not_eq_true, Bool.decide_eq_false]

theorem Shrinks.evolves (h : d.Shrinks d') (hc : d'.Closed) : d.Evolves d' where
  fresh_le := Nat.le_of_eq h.fresh_eq.symm
  gone _ _ ha := h.subset.alive ha
  value _ _ ha _ _ := ⟨fun hx => hx.shrink h.subset hc ha, fun hx => hx.extends h.subset⟩
  occurs _ _ ha _ := ⟨fun hv => hv.shrink h.subset hc ha, fun hv => hv.extends h.subset⟩
  reduced _ _ _ hn := h.subset.reduced hn

@[simp] theorem alive_setBranch (hm : (d.branch? m).isSome) (b' : Branch) (n : NodeId) :
    (d.setBranch m b').alive n = d.alive n := by
  cases n with
  | terminal value => rfl
  | inner i =>
    rw [alive_inner, alive_inner, branch?_setBranch hm]
    split
    · rename_i hi
      rw [hi, hm]
      rfl
    · rfl

@[simp] theorem fresh_setBranch (d : Diagram) (m : NodeId) (b' : Branch) :
    (d.setBranch m b').fresh = d.fresh := by
  cases m <;> simp [setBranch, fresh]

/-! ## Another branch -/

/-- Two branches that mean the same. -/
structure Matches (d : Diagram) (b b' : Branch) : Prop where
  value : ∀ a x, d.Value a (if a b.var then b.high else b.low) x ↔
    d.Value a (if a b'.var then b'.high else b'.low) x
  occurs : ∀ v, (v = b.var ∨ d.Occurs b.low v ∨ d.Occurs b.high v) ↔
    (v = b'.var ∨ d.Occurs b'.low v ∨ d.Occurs b'.high v)

theorem Matches.symm {b' : Branch} (h : d.Matches b b') : d.Matches b' b :=
  ⟨fun a x => (h.value a x).symm, fun v => (h.occurs v).symm⟩

theorem setBranch_setBranch (hb : d.branch? m = some b) (b' : Branch) :
    (d.setBranch m b').setBranch m b = d := by
  cases m with
  | terminal value => rfl
  | inner i =>
    have hslot := getElem?_slots hb
    rw [Array.getElem?_toList] at hslot
    have hlt := slot_lt hb
    refine congrArg Diagram.mk (Array.ext_getElem? fun j => ?_)
    simp only [setBranch, Array.getElem?_setIfInBounds, Array.size_setIfInBounds, hlt, if_true]
    split
    · subst i
      exact hslot.symm
    · rfl

theorem Value.setBranch (hb : d.branch? m = some b) {b' : Branch}
    (hm : (d.setBranch m b').Matches b b') (h : d.Value a n x) :
    (d.setBranch m b').Value a n x := by
  have hbranch := branch?_setBranch (m := m) (by rw [hb]; rfl) b'
  induction h with
  | terminal => exact .terminal _
  | @step n b₀ x hb₀ _ ih =>
    by_cases hnm : n = m
    · subst hnm
      rw [hb, Option.some.injEq] at hb₀
      subst hb₀
      exact .step (by rw [hbranch, if_pos rfl]) ((hm.value a x).mp ih)
    · exact .step (by rw [hbranch, if_neg hnm, hb₀]) ih

theorem Occurs.setBranch (hb : d.branch? m = some b) {b' : Branch}
    (hm : (d.setBranch m b').Matches b b') (h : d.Occurs n v) : (d.setBranch m b').Occurs n v := by
  have hbranch := branch?_setBranch (m := m) (by rw [hb]; rfl) b'
  have hself : (d.setBranch m b').branch? m = some b' := by rw [hbranch, if_pos rfl]
  have hinto : ∀ w, w = b.var ∨ (d.setBranch m b').Occurs b.low w ∨
      (d.setBranch m b').Occurs b.high w → (d.setBranch m b').Occurs m w :=
    fun w hw => (occurs_iff_of_branch? hself).mpr ((hm.occurs w).mp hw)
  induction h with
  | @here n b₀ hb₀ =>
    by_cases hnm : n = m
    · subst hnm
      rw [hb, Option.some.injEq] at hb₀
      subst hb₀
      exact hinto _ (Or.inl rfl)
    · exact .here (by rw [hbranch, if_neg hnm, hb₀])
  | @low n b₀ v hb₀ _ ih =>
    by_cases hnm : n = m
    · subst hnm
      rw [hb, Option.some.injEq] at hb₀
      subst hb₀
      exact hinto v (Or.inr (Or.inl ih))
    · exact .low (by rw [hbranch, if_neg hnm, hb₀]) ih
  | @high n b₀ v hb₀ _ ih =>
    by_cases hnm : n = m
    · subst hnm
      rw [hb, Option.some.injEq] at hb₀
      subst hb₀
      exact hinto v (Or.inr (Or.inr ih))
    · exact .high (by rw [hbranch, if_neg hnm, hb₀]) ih

/-- A branch is replaced by one that means the same before and after, and brings no idle test. -/
theorem Matches.evolves {b' : Branch} (hm : d.Matches b b') (hb : d.branch? m = some b)
    (hm' : (d.setBranch m b').Matches b b')
    (hr : ∀ n, d.Reduced n → (d.setBranch m b').Reduced n) : d.Evolves (d.setBranch m b') := by
  have hsome : (d.branch? m).isSome := by rw [hb]; rfl
  have hself : (d.setBranch m b').branch? m = some b' := by
    rw [branch?_setBranch hsome, if_pos rfl]
  have hback := setBranch_setBranch hb b'
  have hmatches : ((d.setBranch m b').setBranch m b).Matches b' b := hback.symm ▸ hm.symm
  refine ⟨Nat.le_of_eq (by rw [fresh_setBranch]),
    fun n _ ha => by rwa [alive_setBranch hsome] at ha,
    fun n _ _ a x => ⟨fun h => h.setBranch hb hm', fun h => ?_⟩,
    fun n _ _ v => ⟨fun h => h.setBranch hb hm', fun h => ?_⟩, fun n _ _ => hr n⟩
  · have := h.setBranch hself hmatches
    rwa [hback] at this
  · have := h.setBranch hself hmatches
    rwa [hback] at this

end Diagram

end DecisionGraph
