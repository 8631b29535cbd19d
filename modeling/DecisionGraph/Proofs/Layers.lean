import DecisionGraph.Proofs.Meaning
import DecisionGraph.Proofs.VarOrder
import DecisionGraph.Proofs.Outcome

/-!
# Layered diagrams

In a layered diagram every child lies strictly below its parent in the order of the variables. So
every descent ends, and a bound on its length is a rank: a number that falls whenever a level is
gone down. `height` is a rank that does not exceed the number of slots, which is why the bounds that
descents start with are enough.

* `Ranks`, `ranks_height`, `height_le` — ranks, and one that is below `Diagram.depth`.
* `Occurs.levelIn_le` — what occurs in a node lies at its level or below.
* `evaluateWithin_gives`, `evaluate_eq_ok_iff` — the traversal finds the value.
* `cofactorsOf`, `value_cofactorsOf`, `occurs_cofactorsOf` — the cofactors of a node by a variable.
* `splits_cofactorsOf` — the same if the variable lies at the level of the node or above.
* `visit_gives`, `reachable_gives`, `size_gives` — the traversal meets what lies below, once.
* `satCountWithin_gives`, `satCount_gives` — the count ends.
-/

namespace DecisionGraph

/-- The assignment with another value for one variable. -/
def Assignment.set (a : Assignment) (v : Var) (value : Bool) : Assignment :=
  fun w => if w = v then value else a w

namespace Diagram

/-- The level of a node. The terminals lie below all variables. -/
def levelIn (d : Diagram) (o : VarOrder) (n : NodeId) : Nat :=
  match d.branch? n with
  | some b => o.levelOf b.var
  | none => o.size

/-- Children lie strictly below their parent. -/
def Layered (d : Diagram) (o : VarOrder) : Prop :=
  ∀ n b, d.branch? n = some b →
    o.levelOf b.var < d.levelIn o b.low ∧ o.levelOf b.var < d.levelIn o b.high

/-- The variables tested are managed. -/
def Knows (d : Diagram) (o : VarOrder) : Prop := ∀ n b, d.branch? n = some b → o.knows b.var

variable {d d' : Diagram} {o : VarOrder} {a : Assignment} {b : Branch} {m n : NodeId} {v : Var}

theorem levelIn_of_branch? (h : d.branch? n = some b) : d.levelIn o n = o.levelOf b.var := by
  simp only [levelIn, h]

theorem Extends.levelIn_eq (h : d.Extends d') (ha : d.alive n) :
    d'.levelIn o n = d.levelIn o n := by
  simp only [levelIn, h.branch?_eq ha]

theorem Knows.levelIn_lt (hk : d.Knows o) (ho : o.Lawful) (h : d.branch? n = some b) :
    d.levelIn o n < o.size := by
  rw [levelIn_of_branch? h]
  exact ho.levelOf_lt (hk n b h)

theorem Layered.child (hl : d.Layered o) (h : d.branch? n = some b) (x : Bool) :
    d.levelIn o n < d.levelIn o (if x then b.high else b.low) := by
  rw [levelIn_of_branch? h]
  cases x
  · exact (hl n b h).1
  · exact (hl n b h).2

theorem Layered.lt_of_child (hl : d.Layered o) (h : d.Child m n) :
    d.levelIn o m < d.levelIn o n := by
  cases h with
  | low hb => exact hl.child hb false
  | high hb => exact hl.child hb true

/-- What occurs in a node lies at its level or below. -/
theorem Occurs.levelIn_le (h : d.Occurs n v) (hl : d.Layered o) : d.levelIn o n ≤ o.levelOf v := by
  induction h with
  | here hb => exact Nat.le_of_eq (levelIn_of_branch? hb)
  | low hb _ ih => exact Nat.le_trans (Nat.le_of_lt (hl.child hb false)) ih
  | high hb _ ih => exact Nat.le_trans (Nat.le_of_lt (hl.child hb true)) ih

/-- A variable does not occur in what lies below it. -/
theorem Layered.ne_of_occurs (hl : d.Layered o) (hv : o.levelOf v < d.levelIn o n) {w : Var}
    (h : d.Occurs n w) : w ≠ v := by
  rintro rfl
  exact Nat.lt_irrefl _ (Nat.lt_of_lt_of_le hv (h.levelIn_le hl))

/-- The value of a variable that does not occur does not matter. -/
theorem value_set_iff_of_not_occurs (hv : ¬ d.Occurs n v) {value x : Bool} :
    d.Value (a.set v value) n x ↔ d.Value a n x := by
  have hsame : ∀ w, d.Occurs n w → a.set v value w = a w := by
    intro w hw
    refine if_neg ?_
    rintro rfl
    exact hv hw
  exact ⟨fun h => h.congr hsame, fun h => h.congr fun w hw => (hsame w hw).symm⟩

/-- The value of a variable does not matter below its level. -/
theorem value_set_iff (hl : d.Layered o) (hv : o.levelOf v < d.levelIn o n) {value x : Bool} :
    d.Value (a.set v value) n x ↔ d.Value a n x :=
  value_set_iff_of_not_occurs fun h => hl.ne_of_occurs hv h rfl

theorem Occurs.knows (h : d.Occurs n v) (hk : d.Knows o) : o.knows v := by
  induction h with
  | here hb => exact hk _ _ hb
  | low _ _ ih => exact ih
  | high _ _ ih => exact ih

/-- A node lies below a level if all that occurs in it does. -/
theorem lt_levelIn_of_occurs {l : Nat} (hl : l < o.size)
    (h : ∀ v, d.Occurs n v → l < o.levelOf v) : l < d.levelIn o n := by
  unfold levelIn
  split
  · rename_i b hb
    exact h _ (.here hb)
  · exact hl

theorem exists_branch_of_levelIn_lt (h : d.levelIn o n < o.size) : ∃ b, d.branch? n = some b := by
  cases hb : d.branch? n with
  | none => simp [levelIn, hb] at h
  | some b => exact ⟨b, rfl⟩

/-- The node tests the variable of its level. -/
theorem Knows.var_eq (hk : d.Knows o) (ho : o.Lawful) (hb : d.branch? n = some b)
    (h : d.levelIn o n = o.levelOf v) : b.var = v := by
  rw [levelIn_of_branch? hb] at h
  exact ho.levelOf_injective (hk n b hb) h

/-! ## Cofactors -/

/-- The children of `n` if it tests `v`, and otherwise `n` itself twice. -/
def cofactorsOf (d : Diagram) (v : Var) (n : NodeId) : Children :=
  match d.branch? n with
  | some b => if b.var = v then b.toChildren else ⟨n, n⟩
  | none => ⟨n, n⟩

theorem cofactors_eq (ha : d.alive n) : d.cofactors v n = .ok (d.cofactorsOf v n) := by
  cases n with
  | terminal value => rfl
  | inner i =>
    obtain ⟨b, hb⟩ := exists_branch ha
    simp only [cofactors, branch_eq_ok_iff.mpr hb, cofactorsOf, hb]
    rfl

theorem cofactorsOf_of_var (hb : d.branch? n = some b) : d.cofactorsOf b.var n = b.toChildren := by
  simp [cofactorsOf, hb]

theorem cofactorsOf_of_ne (h : ∀ b, d.branch? n = some b → b.var ≠ v) :
    d.cofactorsOf v n = ⟨n, n⟩ := by
  unfold cofactorsOf
  split
  · rename_i b hb
    exact if_neg (h b hb)
  · rfl

/-- A node below a variable does not test it. -/
theorem var_ne_of_lt (h : o.levelOf v < d.levelIn o n) :
    ∀ b, d.branch? n = some b → b.var ≠ v := by
  intro b hb hvar
  rw [levelIn_of_branch? hb, hvar] at h
  exact Nat.lt_irrefl _ h

/-- A node below a variable is its own cofactor. -/
theorem cofactorsOf_of_lt (h : o.levelOf v < d.levelIn o n) : d.cofactorsOf v n = ⟨n, n⟩ :=
  cofactorsOf_of_ne (var_ne_of_lt h)

/-- A node tests the variable, or it is its own cofactor. -/
theorem cofactorsOf_cases (d : Diagram) (v : Var) (n : NodeId) :
    (∃ b, d.branch? n = some b ∧ b.var = v ∧ d.cofactorsOf v n = b.toChildren) ∨
      (∀ b, d.branch? n = some b → b.var ≠ v) ∧ d.cofactorsOf v n = ⟨n, n⟩ := by
  by_cases h : ∃ b, d.branch? n = some b ∧ b.var = v
  · obtain ⟨b, hb, rfl⟩ := h
    exact Or.inl ⟨b, hb, rfl, cofactorsOf_of_var hb⟩
  · have hne : ∀ b, d.branch? n = some b → b.var ≠ v := fun b hb hv => h ⟨b, hb, hv⟩
    exact Or.inr ⟨hne, cofactorsOf_of_ne hne⟩

theorem Closed.alive_cofactorsOf (hc : d.Closed) (ha : d.alive n) :
    d.alive (d.cofactorsOf v n).low ∧ d.alive (d.cofactorsOf v n).high := by
  rcases d.cofactorsOf_cases v n with ⟨b, hb, -, hcof⟩ | ⟨-, hcof⟩
  · rw [hcof]
    exact hc n b hb
  · rw [hcof]
    exact ⟨ha, ha⟩

theorem value_cofactorsOf (d : Diagram) (a : Assignment) (v : Var) (n : NodeId) (x : Bool) :
    d.Value a n x ↔
      d.Value a (if a v then (d.cofactorsOf v n).high else (d.cofactorsOf v n).low) x := by
  rcases d.cofactorsOf_cases v n with ⟨b, hb, rfl, hcof⟩ | ⟨-, hcof⟩
  · rw [hcof, value_iff_of_branch? hb]
  · rw [hcof]
    simp

theorem occurs_cofactorsOf (d : Diagram) (v : Var) (n : NodeId) (x : Var) :
    d.Occurs n x ↔ (x = v ∧ ∃ b, d.branch? n = some b ∧ b.var = v) ∨
      d.Occurs (d.cofactorsOf v n).low x ∨ d.Occurs (d.cofactorsOf v n).high x := by
  rcases d.cofactorsOf_cases v n with ⟨b, hb, rfl, hcof⟩ | ⟨hne, hcof⟩
  · rw [hcof, occurs_iff_of_branch? hb]
    simp [hb]
  · rw [hcof]
    constructor
    · exact fun h => Or.inr (Or.inl h)
    · rintro (⟨-, b, hb, hv⟩ | h | h)
      · exact absurd hv (hne b hb)
      · exact h
      · exact h

theorem below_cofactorsOf (d : Diagram) (w : Var) (n : NodeId) :
    d.Below n (d.cofactorsOf w n).low ∧ d.Below n (d.cofactorsOf w n).high := by
  rcases d.cofactorsOf_cases w n with ⟨b, hb, -, hcof⟩ | ⟨-, hcof⟩
  · rw [hcof]
    exact ⟨(Child.low hb).below, (Child.high hb).below⟩
  · rw [hcof]
    exact ⟨.refl, .refl⟩

theorem Reduced.cofactorsOf (h : d.Reduced n) (w : Var) :
    d.Reduced (d.cofactorsOf w n).low ∧ d.Reduced (d.cofactorsOf w n).high :=
  (d.below_cofactorsOf w n).imp h.of_below h.of_below

/-- A node that is no idle test of the variable stands for the test of its cofactors. -/
theorem unfolds_cofactorsOf (h : ∀ b, d.branch? n = some b → b.var = v → b.low ≠ b.high) :
    d.Unfolds v n (d.cofactorsOf v n) := by
  rcases d.cofactorsOf_cases v n with ⟨b, hb, rfl, hcof⟩ | ⟨-, hcof⟩
  · rw [hcof]
    exact Or.inr ⟨h b hb rfl, hb⟩
  · rw [hcof]
    exact Or.inl ⟨rfl, rfl⟩

/-- The cofactors of a node lie on its level or below. -/
theorem Layered.levelIn_cofactorsOf_le (hl : d.Layered o) (v : Var) (n : NodeId) :
    d.levelIn o n ≤ d.levelIn o (d.cofactorsOf v n).low ∧
      d.levelIn o n ≤ d.levelIn o (d.cofactorsOf v n).high := by
  rcases d.cofactorsOf_cases v n with ⟨b, hb, -, hcof⟩ | ⟨-, hcof⟩
  · rw [hcof]
    exact ⟨Nat.le_of_lt (hl.child hb false), Nat.le_of_lt (hl.child hb true)⟩
  · rw [hcof]
    exact ⟨Nat.le_refl _, Nat.le_refl _⟩

theorem Extends.cofactorsOf_eq (h : d.Extends d') (ha : d.alive n) :
    d'.cofactorsOf v n = d.cofactorsOf v n := by
  simp only [cofactorsOf, h.branch?_eq ha]

/-- `n` is `c.high` where `v` is true and `c.low` elsewhere, and both lie below `v`. -/
structure Splits (d : Diagram) (o : VarOrder) (v : Var) (n : NodeId) (c : Children) : Prop where
  alive_low : d.alive c.low
  alive_high : d.alive c.high
  lt_low : o.levelOf v < d.levelIn o c.low
  lt_high : o.levelOf v < d.levelIn o c.high
  value : ∀ a x, d.Value a n x ↔ d.Value a (if a v then c.high else c.low) x
  occurs_low : ∀ w, d.Occurs c.low w → d.Occurs n w
  occurs_high : ∀ w, d.Occurs c.high w → d.Occurs n w

theorem Splits.value_low {c : Children} (hs : d.Splits o v n c) (hl : d.Layered o) {x : Bool} :
    d.Value (a.set v false) n x ↔ d.Value a c.low x := by
  rw [hs.value, Assignment.set, if_pos rfl]
  exact value_set_iff hl hs.lt_low

theorem Splits.value_high {c : Children} (hs : d.Splits o v n c) (hl : d.Layered o) {x : Bool} :
    d.Value (a.set v true) n x ↔ d.Value a c.high x := by
  rw [hs.value, Assignment.set, if_pos rfl]
  exact value_set_iff hl hs.lt_high

theorem splits_cofactorsOf (hc : d.Closed) (hl : d.Layered o) (ho : o.Lawful) (hv : o.knows v)
    (ha : d.alive n) (hle : o.levelOf v ≤ d.levelIn o n) :
    d.Splits o v n (d.cofactorsOf v n) := by
  have hvalue := fun a x => d.value_cofactorsOf a v n x
  have hoccurs := fun w => d.occurs_cofactorsOf v n w
  rcases d.cofactorsOf_cases v n with ⟨b, hb, rfl, hcof⟩ | ⟨hne, hcof⟩
  · obtain ⟨hlow, hhigh⟩ := hc n b hb
    obtain ⟨hllow, hlhigh⟩ := hl n b hb
    rw [hcof] at hvalue hoccurs ⊢
    exact ⟨hlow, hhigh, hllow, hlhigh, hvalue, fun w hw => (hoccurs w).mpr (Or.inr (Or.inl hw)),
      fun w hw => (hoccurs w).mpr (Or.inr (Or.inr hw))⟩
  · have hlt : o.levelOf v < d.levelIn o n := by
      apply Nat.lt_of_le_of_ne hle
      intro heq
      obtain ⟨b, hb⟩ := exists_branch_of_levelIn_lt (heq ▸ ho.levelOf_lt hv)
      rw [levelIn_of_branch? hb] at heq
      exact hne b hb (ho.levelOf_injective hv heq).symm
    rw [hcof] at hvalue ⊢
    exact ⟨ha, ha, hlt, hlt, hvalue, fun _ hw => hw, fun _ hw => hw⟩

/-! ## Ranks -/

/-- A number that falls whenever a descent goes down a level. -/
def Ranks (d : Diagram) (o : VarOrder) (rank : NodeId → Nat) : Prop :=
  ∀ n b m, d.branch? n = some b → d.levelIn o n < d.levelIn o m → rank m < rank n

/-- It falls from a node to its children. -/
theorem Ranks.children {rank : NodeId → Nat} (hr : d.Ranks o rank) (hl : d.Layered o)
    (hb : d.branch? n = some b) : rank b.low < rank n ∧ rank b.high < rank n :=
  ⟨hr n b _ hb (hl.child hb false), hr n b _ hb (hl.child hb true)⟩

/-- The number of live inner nodes on the level of `n` and below. -/
def height (d : Diagram) (o : VarOrder) (n : NodeId) : Nat :=
  d.inners.countP fun m => d.levelIn o n ≤ d.levelIn o m

theorem height_le (d : Diagram) (o : VarOrder) (n : NodeId) : d.height o n ≤ d.slots.size :=
  Nat.le_trans List.countP_le_length d.length_inners_le

theorem ranks_height (d : Diagram) (o : VarOrder) : d.Ranks o (d.height o) := by
  intro n b m hb hlt
  have hn : n ∈ d.inners := mem_inners_iff.mpr ⟨b, hb⟩
  have hperm := List.perm_cons_erase hn
  simp only [height, hperm.countP_eq, List.countP_cons]
  have hle : (d.inners.erase n).countP (fun k => decide (d.levelIn o m ≤ d.levelIn o k)) ≤
      (d.inners.erase n).countP (fun k => decide (d.levelIn o n ≤ d.levelIn o k)) := by
    apply List.countP_mono_left
    intro k _ hk
    simp only [decide_eq_true_eq] at hk ⊢
    omega
  rw [if_neg (by simpa using hlt), if_pos (by simp)]
  omega

/-! ## Values of live nodes -/

section Value

variable {rank : NodeId → Nat} (hc : d.Closed) (hl : d.Layered o) (hr : d.Ranks o rank)

include hc hl hr

theorem evaluateWithin_gives {k : Nat} (ha : d.alive n) (hk : rank n ≤ k) :
    Gives (d.evaluateWithin a k n) (d.Value a n) := by
  induction k generalizing n with
  | zero =>
    cases n with
    | terminal value => exact gives_ok (.terminal value)
    | inner i =>
      obtain ⟨b, hb⟩ := exists_branch ha
      have := (hr.children hl hb).1
      omega
  | succ k ih =>
    cases n with
    | terminal value => exact gives_ok (.terminal value)
    | inner i =>
      obtain ⟨b, hb⟩ := exists_branch ha
      have hchild := hr _ b _ hb (hl.child hb (a b.var))
      obtain ⟨x, hx, hvalue⟩ := ih (hc.child hb (a b.var)) (by omega)
      refine ⟨x, ?_, .step hb hvalue⟩
      simp [evaluateWithin, branch_eq_ok_iff.mpr hb, hx, bind, Except.bind]

theorem exists_value (a : Assignment) (ha : d.alive n) : ∃ x, d.Value a n x := by
  obtain ⟨x, -, hx⟩ := evaluateWithin_gives (a := a) hc hl hr ha (Nat.le_refl _)
  exact ⟨x, hx⟩

end Value

/-- The traversal finds the value of a live node. -/
theorem evaluate_eq_ok_iff (hc : d.Closed) (hl : d.Layered o) (ha : d.alive n) {x : Bool} :
    d.evaluate a n = .ok x ↔ d.Value a n x := by
  have hle := d.height_le o n
  obtain ⟨y, hy, hvalue⟩ := evaluateWithin_gives (a := a) hc hl (ranks_height d o) ha
    (k := d.depth) (by simp only [depth]; omega)
  rw [evaluate, hy, Except.ok.injEq]
  exact ⟨fun h => h ▸ hvalue, fun h => hvalue.unique h⟩

/-! ## What lies below -/

theorem Below.alive (hc : d.Closed) (h : d.Below m n) (ha : d.alive m) : d.alive n := by
  induction h with
  | refl => exact ha
  | step _ edge _ => exact hc.alive_of_child edge

/-- A traversal from `n` after the trail `t`: it goes on with nodes below `n`, and with the children
of every node that it adds. -/
structure Visited (d : Diagram) (n : NodeId) (t t' : Trail) : Prop where
  mem : n ∈ t'.nodes
  old : ∀ m ∈ t.nodes, m ∈ t'.nodes
  below : ∀ m ∈ t'.nodes, m ∈ t.nodes ∨ d.Below n m
  nodup : t.nodes.Nodup → t'.nodes.Nodup
  children : ∀ m ∈ t'.nodes, m ∉ t.nodes → ∀ k, d.Child m k → k ∈ t'.nodes

theorem visited_met {t : Trail} (h : n ∈ t.nodes) : d.Visited n t t where
  mem := h
  old _ hm := hm
  below _ hm := Or.inl hm
  nodup h := h
  children _ hm hm' := absurd hm hm'

theorem visited_terminal {t : Trail} {value : Bool} (h : NodeId.terminal value ∉ t.nodes) :
    d.Visited (.terminal value) t (t.push (.terminal value)) where
  mem := List.mem_cons_self
  old _ hm := List.mem_cons_of_mem _ hm
  below m hm := by
    rcases List.mem_cons.mp hm with rfl | hm
    · exact Or.inr .refl
    · exact Or.inl hm
  nodup hn := List.nodup_cons.mpr ⟨h, hn⟩
  children m hm hm' k hk := by
    rcases List.mem_cons.mp hm with rfl | hm
    · exact absurd hk not_child_terminal
    · exact absurd hm hm'

/-- A node is visited by visiting its high child and then its low child. -/
theorem Visited.branch {t t' t'' : Trail} (hb : d.branch? n = some b) (h : n ∉ t.nodes)
    (hhigh : d.Visited b.high (t.push n) t') (hlow : d.Visited b.low t' t'') :
    d.Visited n t t'' where
  mem := hlow.old _ (hhigh.old _ List.mem_cons_self)
  old m hm := hlow.old _ (hhigh.old _ (List.mem_cons_of_mem _ hm))
  below m hm := by
    rcases hlow.below m hm with hm | hm
    · rcases hhigh.below m hm with hm | hm
      · rcases List.mem_cons.mp hm with rfl | hm
        · exact Or.inr .refl
        · exact Or.inl hm
      · exact Or.inr ((Child.high hb).below.trans hm)
    · exact Or.inr ((Child.low hb).below.trans hm)
  nodup hn := hlow.nodup (hhigh.nodup (List.nodup_cons.mpr ⟨h, hn⟩))
  children m hm hm' k hk := by
    by_cases hmid : m ∈ t'.nodes
    · by_cases hpush : m ∈ (t.push n).nodes
      · rcases List.mem_cons.mp hpush with rfl | hpush
        · rcases (child_iff hb).mp hk with rfl | rfl
          · exact hlow.mem
          · exact hlow.old _ hhigh.mem
        · exact absurd hpush hm'
      · exact hlow.old _ (hhigh.children m hmid hpush k hk)
    · exact hlow.children m hm hmid k hk

theorem visit_gives {rank : NodeId → Nat} (hc : d.Closed) (hl : d.Layered o) (hr : d.Ranks o rank)
    {k : Nat} {t : Trail} (ha : d.alive n) (hk : rank n < k) :
    Gives (d.visit k n t) (d.Visited n t) := by
  induction k generalizing n t with
  | zero => omega
  | succ k ih =>
    rw [visit.eq_def]
    dsimp only
    split
    · rename_i hmet
      exact gives_ok (visited_met ((t.mem_met n).mp hmet))
    · rename_i hmet
      have hmet : n ∉ t.nodes := fun h => hmet ((t.mem_met n).mpr h)
      cases n with
      | terminal value => exact gives_ok (visited_terminal hmet)
      | inner i =>
        obtain ⟨b, hb⟩ := exists_branch ha
        obtain ⟨hlow, hhigh⟩ := hr.children hl hb
        apply gives_bind_of_eq (branch_eq_ok_iff.mpr hb)
        apply gives_bind (ih (hc _ _ hb).2 (by omega))
        intro t' ht'
        apply gives_mono (ih (hc _ _ hb).1 (by omega))
        intro t'' ht''
        exact ht'.branch hb hmet ht''

/-- The count ends, whatever is known before. -/
theorem satCountWithin_gives {rank : NodeId → Nat} (hc : d.Closed) (hl : d.Layered o)
    (hr : d.Ranks o rank) (total : Nat) {k : Nat} {known : NodeMap Nat} (ha : d.alive n)
    (hk : rank n < k) : Gives (d.satCountWithin total k n known) fun _ => True := by
  induction k generalizing n known with
  | zero => omega
  | succ k ih =>
    cases n with
    | terminal value => cases value <;> exact gives_ok trivial
    | inner i =>
      obtain ⟨b, hb⟩ := exists_branch ha
      obtain ⟨hlow, hhigh⟩ := hr.children hl hb
      unfold satCountWithin
      split
      · exact gives_ok trivial
      · apply gives_bind_of_eq (branch_eq_ok_iff.mpr hb)
        refine gives_bind (ih (hc _ _ hb).1 (by omega)) fun _ _ => ?_
        exact gives_bind (ih (hc _ _ hb).2 (by omega)) fun _ _ => gives_pure trivial

theorem satCountWithin_depth_gives (hc : d.Closed) (hl : d.Layered o) (total : Nat)
    (ha : d.alive n) : Gives (d.satCountWithin total d.depth n ∅) fun _ => True := by
  have hle := d.height_le o n
  exact satCountWithin_gives hc hl (ranks_height d o) total ha (by simp only [depth]; omega)

theorem satCount_gives (hc : d.Closed) (hl : d.Layered o) (varCount : Nat) (ha : d.alive n) :
    Gives (d.satCount varCount n) fun _ => True :=
  gives_bind (satCountWithin_depth_gives hc hl _ ha) fun _ _ => gives_pure trivial

/-- The traversal lists what lies below a live node, each node once. -/
theorem reachable_gives (hc : d.Closed) (hl : d.Layered o) (ha : d.alive n) :
    Gives (d.reachable n) fun ns => ns.Nodup ∧ ∀ m, m ∈ ns ↔ d.Below n m := by
  have hle := d.height_le o n
  refine gives_bind (visit_gives hc hl (ranks_height d o) ha (by simp only [depth]; omega))
    fun t ht => gives_pure ⟨?_, fun m => ?_⟩
  · exact (List.reverse_perm _).nodup_iff.mpr (ht.nodup List.nodup_nil)
  · rw [List.mem_reverse]
    constructor
    · intro hm
      rcases ht.below m hm with h | h
      · cases h
      · exact h
    · intro hm
      induction hm with
      | refl => exact ht.mem
      | step _ edge ih => exact ht.children _ ih (by simp [Trail.empty]) _ edge

theorem size_gives (hc : d.Closed) (hl : d.Layered o) (ha : d.alive n) :
    Gives (d.size n) fun k => ∃ ns : List NodeId, ns.Nodup ∧ (∀ m, m ∈ ns ↔ d.Below n m) ∧
      k = ns.length :=
  gives_bind (reachable_gives hc hl ha) fun ns ⟨hnodup, hmem⟩ =>
    gives_pure ⟨ns, hnodup, hmem, rfl⟩

end Diagram

end DecisionGraph
