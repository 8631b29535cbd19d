import DecisionGraph.Path

/-!
# Sums over the slots

The number of edges into a node and the number of live inner nodes are sums over the slots. A sum
changes only by what is put into one slot and what is taken out.

* `Diagram.total_push`, `Diagram.total_setBranch`, `Diagram.total_clear` — any sum over the slots.
* `Diagram.edgesInto_push`, ... and `Diagram.length_inners_push`, ... — the two sums.
* `Diagram.edgesTo_le_edgesInto` — a child has an edge into it.
-/

namespace DecisionGraph

theorem Branch.edgesTo_pos_iff {b : Branch} {n : NodeId} :
    0 < b.edgesTo n ↔ b.low = n ∨ b.high = n := by
  simp only [edgesTo]
  by_cases hl : b.low = n <;> by_cases hh : b.high = n <;> simp [hl, hh]

namespace Diagram

variable {d : Diagram} {b b' : Branch} {m n : NodeId}

/-! ## Live nodes -/

theorem alive_of_branch? (h : d.branch? n = some b) : d.alive n := by
  cases n with
  | terminal value => rfl
  | inner i => rw [alive_inner, h]; rfl

theorem isTerminal_of_branch? (h : d.branch? n = some b) : n.isTerminal = false := by
  cases n with
  | terminal value => simp at h
  | inner i => rfl

@[simp] theorem alive_terminal (d : Diagram) (value : Bool) : d.alive (.terminal value) := rfl

theorem exists_branch {i : Nat} (h : d.alive (.inner i)) : ∃ b, d.branch? (.inner i) = some b :=
  Option.isSome_iff_exists.mp h

theorem alive_iff : d.alive n ↔ n.isTerminal ∨ ∃ b, d.branch? n = some b := by
  cases n with
  | terminal value => simp [NodeId.isTerminal]
  | inner i => simp [NodeId.isTerminal, alive_inner, Option.isSome_iff_exists]

/-- What is alive in one diagram and not in another is an inner node. -/
theorem exists_branch_of_not_alive {d' : Diagram} (ha : d'.alive n) (hdead : ¬ d.alive n) :
    ∃ b, d'.branch? n = some b := by
  cases n with
  | terminal value => exact absurd rfl hdead
  | inner i => exact exists_branch ha

theorem slot_lt {i : Nat} (h : d.branch? (.inner i) = some b) : i < d.slots.size := by
  apply Nat.lt_of_not_le
  intro hle
  simp [branch?, hle] at h

/-- The number of a live node is below that of the next node to be made. -/
theorem toNat_lt_fresh (h : d.alive n) : n.toNat < d.fresh.toNat := by
  cases n with
  | terminal value => cases value <;> simp [NodeId.toNat, fresh]
  | inner i =>
    obtain ⟨b, hb⟩ := exists_branch h
    have := slot_lt hb
    simp only [NodeId.toNat, fresh]
    omega

theorem issued_iff : d.issued n ↔ n.toNat < d.fresh.toNat := decide_eq_true_iff

theorem issued_of_alive (h : d.alive n) : d.issued n := issued_iff.mpr (toNat_lt_fresh h)

theorem fresh_dead (d : Diagram) : d.alive d.fresh = false := by
  simp [alive, fresh]

theorem branch?_fresh (d : Diagram) : d.branch? d.fresh = none := by
  simp [branch?, fresh]

theorem mem_inners_iff : n ∈ d.inners ↔ ∃ b, d.branch? n = some b := by
  simp only [inners, List.mem_filter, List.mem_map, List.mem_range]
  constructor
  · rintro ⟨⟨i, -, rfl⟩, h⟩
    exact exists_branch h
  · rintro ⟨b, h⟩
    cases n with
    | terminal value => simp at h
    | inner i => exact ⟨⟨i, slot_lt h, rfl⟩, alive_of_branch? h⟩

theorem inners_nodup (d : Diagram) : d.inners.Nodup := by
  apply List.Nodup.sublist List.filter_sublist
  refine List.Pairwise.map _ (fun i j hij heq => hij ?_) List.nodup_range
  simpa using heq

theorem length_inners_le (d : Diagram) : d.inners.length ≤ d.slots.size := by
  have h := List.length_filter_le d.alive ((List.range d.slots.size).map NodeId.inner)
  simpa [inners] using h

/-! ## Sums -/

/-- The sum of a weight over a list. -/
def weigh {α : Type} (weight : α → Nat) : List α → Nat
  | [] => 0
  | x :: xs => weight x + weigh weight xs

theorem weigh_append {α : Type} (weight : α → Nat) (xs ys : List α) :
    weigh weight (xs ++ ys) = weigh weight xs + weigh weight ys := by
  induction xs with
  | nil => simp [weigh]
  | cons x xs ih =>
    rw [List.cons_append, weigh, weigh, ih]
    omega

theorem weigh_set {α : Type} (weight : α → Nat) {xs : List α} {i : Nat} {x : α}
    (h : xs[i]? = some x) (y : α) :
    weigh weight (xs.set i y) + weight x = weigh weight xs + weight y := by
  induction xs generalizing i with
  | nil => simp at h
  | cons z xs ih =>
    cases i with
    | zero =>
      rw [List.getElem?_cons_zero, Option.some.injEq] at h
      subst h
      simp only [List.set_cons_zero, weigh]
      omega
    | succ i =>
      have hrest := ih (by simpa using h)
      simp only [List.set_cons_succ, weigh]
      omega

/-- A sum is not smaller if no item that weighs something is lost. -/
theorem weigh_le {α : Type} (weight : α → Nat) {xs ys : List α}
    (h : ∀ (i : Nat) x, xs[i]? = some x → weight x ≠ 0 → ys[i]? = some x) :
    weigh weight xs ≤ weigh weight ys := by
  induction xs generalizing ys with
  | nil => exact Nat.zero_le _
  | cons x xs ih =>
    have hrest : weigh weight xs ≤ weigh weight ys.tail := ih fun i z hz hne => by
      rw [List.getElem?_tail]
      exact h (i + 1) z (by simpa using hz) hne
    have hfirst : weight x ≠ 0 → ys.head? = some x := fun hne => by
      rw [List.head?_eq_getElem?]
      exact h 0 x rfl hne
    cases ys with
    | nil =>
      have hx : weight x = 0 := Decidable.by_contra fun hne => by simpa using hfirst hne
      simpa [weigh, hx] using hrest
    | cons y ys =>
      rw [weigh, weigh]
      by_cases hx : weight x = 0
      · simp only [List.tail_cons] at hrest
        omega
      · obtain rfl : y = x := by simpa using hfirst hx
        exact Nat.add_le_add_left hrest _

/-- A sum that is not zero has an item that weighs something. -/
theorem exists_of_weigh_pos {α : Type} (weight : α → Nat) {xs : List α}
    (h : 0 < weigh weight xs) : ∃ (i : Nat) (x : α), xs[i]? = some x ∧ 0 < weight x := by
  induction xs with
  | nil => exact absurd h (Nat.lt_irrefl 0)
  | cons x xs ih =>
    by_cases hx : 0 < weight x
    · exact ⟨0, x, rfl, hx⟩
    · obtain ⟨i, y, hi, hy⟩ := ih (by rw [weigh] at h; omega)
      exact ⟨i + 1, y, by simpa using hi, hy⟩

/-- The sum of a weight over all slots. -/
def total (d : Diagram) (weight : Option Branch → Nat) : Nat := weigh weight d.slots.toList

theorem getElem?_slots {i : Nat} (h : d.branch? (.inner i) = some b) :
    d.slots.toList[i]? = some (some b) := by
  have hlt := slot_lt h
  simpa [branch?, hlt] using h

theorem branch?_of_slots {i : Nat} (h : d.slots.toList[i]? = some (some b)) :
    d.branch? (.inner i) = some b := by
  rw [Array.getElem?_toList] at h
  simp [branch?, h]

variable (weight : Option Branch → Nat)

theorem total_push (d : Diagram) (b : Branch) :
    (d.push b).total weight = d.total weight + weight (some b) := by
  rw [total, push, Array.toList_push, weigh_append]
  rfl

theorem total_setBranch (h : d.branch? n = some b) (b' : Branch) :
    (d.setBranch n b').total weight + weight (some b) = d.total weight + weight (some b') := by
  cases n with
  | terminal value => simp at h
  | inner i =>
    have := weigh_set weight (getElem?_slots h) (some b')
    simpa only [total, setBranch, Array.toList_setIfInBounds] using this

theorem total_clear (h : d.branch? n = some b) :
    (d.clear n).total weight + weight (some b) = d.total weight + weight none := by
  cases n with
  | terminal value => simp at h
  | inner i =>
    have := weigh_set weight (getElem?_slots h) none
    simpa only [total, clear, Array.toList_setIfInBounds] using this

theorem le_total (hnone : weight none = 0) (h : d.branch? n = some b) :
    weight (some b) ≤ d.total weight := by
  have hclear := total_clear weight h
  omega

/-! ## Edges -/

/-- How many of the edges from a slot lead to `n`. -/
def edgeWeight (n : NodeId) : Option Branch → Nat
  | some b => b.edgesTo n
  | none => 0

theorem edgesInto_eq_total (d : Diagram) (n : NodeId) : d.edgesInto n = d.total (edgeWeight n) := by
  simp only [edgesInto, total]
  induction d.slots.toList with
  | nil => rfl
  | cons o slots ih =>
    rw [weigh, ← ih]
    cases o with
    | none => simp [edgeWeight]
    | some b => simp [edgeWeight]

theorem edgesInto_push (d : Diagram) (b : Branch) (n : NodeId) :
    (d.push b).edgesInto n = d.edgesInto n + b.edgesTo n := by
  rw [edgesInto_eq_total, edgesInto_eq_total, total_push]
  rfl

theorem edgesInto_setBranch (h : d.branch? m = some b) (b' : Branch) (n : NodeId) :
    (d.setBranch m b').edgesInto n + b.edgesTo n = d.edgesInto n + b'.edgesTo n := by
  rw [edgesInto_eq_total, edgesInto_eq_total]
  exact total_setBranch (edgeWeight n) h b'

theorem edgesInto_clear (h : d.branch? m = some b) (n : NodeId) :
    (d.clear m).edgesInto n + b.edgesTo n = d.edgesInto n := by
  rw [edgesInto_eq_total, edgesInto_eq_total]
  exact total_clear (edgeWeight n) h

theorem edgesTo_le_edgesInto (h : d.branch? m = some b) (n : NodeId) :
    b.edgesTo n ≤ d.edgesInto n := by
  rw [edgesInto_eq_total]
  exact le_total (edgeWeight n) rfl h

theorem edgesInto_pos (h : d.Child m n) : 0 < d.edgesInto n := by
  cases h with
  | low hb =>
    exact Nat.lt_of_lt_of_le (Branch.edgesTo_pos_iff.mpr (Or.inl rfl)) (edgesTo_le_edgesInto hb _)
  | high hb =>
    exact Nat.lt_of_lt_of_le (Branch.edgesTo_pos_iff.mpr (Or.inr rfl)) (edgesTo_le_edgesInto hb _)

/-- A node with an edge into it has a parent. -/
theorem exists_parent (h : 0 < d.edgesInto n) : ∃ m, d.Child m n := by
  rw [edgesInto_eq_total] at h
  obtain ⟨i, o, ho, hpos⟩ := exists_of_weigh_pos _ h
  cases o with
  | none => exact absurd hpos (Nat.lt_irrefl 0)
  | some b =>
    have hb := branch?_of_slots ho
    rcases Branch.edgesTo_pos_iff.mp hpos with rfl | rfl
    · exact ⟨_, .low hb⟩
    · exact ⟨_, .high hb⟩

@[simp] theorem edgesInto_empty (n : NodeId) : Diagram.empty.edgesInto n = 0 := rfl

/-! ## Live nodes in number -/

/-- One for a filled slot. -/
def liveWeight : Option Branch → Nat
  | some _ => 1
  | none => 0

theorem length_inners (d : Diagram) : d.inners.length = d.total liveWeight := by
  have hslots : d.slots.toList = (List.range d.slots.size).map fun i => d.slots.getD i none := by
    apply List.ext_getElem (by simp)
    intro i hi _
    simp only [Array.length_toList] at hi
    simp [hi]
  simp only [inners, total]
  rw [hslots]
  induction List.range d.slots.size with
  | nil => rfl
  | cons i is ih =>
    rw [List.map_cons, List.map_cons, weigh, ← ih, List.filter_cons]
    cases hi : d.slots.getD i none with
    | none => simp [alive, hi, liveWeight]
    | some b => simp [alive, hi, liveWeight, Nat.add_comm]

theorem length_inners_push (d : Diagram) (b : Branch) :
    (d.push b).inners.length = d.inners.length + 1 := by
  rw [length_inners, length_inners, total_push]
  rfl

theorem length_inners_setBranch (h : d.branch? n = some b) (b' : Branch) :
    (d.setBranch n b').inners.length = d.inners.length := by
  rw [length_inners, length_inners]
  have := total_setBranch liveWeight h b'
  simp only [liveWeight] at this
  omega

theorem length_inners_clear (h : d.branch? n = some b) :
    (d.clear n).inners.length + 1 = d.inners.length := by
  rw [length_inners, length_inners]
  exact total_clear liveWeight h

end Diagram

end DecisionGraph
