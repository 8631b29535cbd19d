import Mathlib.Data.List.Nodup
import Mathlib.Data.List.Perm.Subperm
import Mathlib.Tactic.Choose
import DecisionGraph.Proofs.Invariant

/-!
# One node for each function

Where shapes are unique and no idle test lies below two nodes, the nodes are the same if their
functions are: both are split by the variable of the highest level, their cofactors have the same
functions and lie on lower levels, and a node without idle tests is determined by its cofactors.

So the size of such a node depends on nothing but its function and the order. It is the least size
there is: whatever lies below a node has its like below every other node with the same function, in
this diagram or in another one with the same order, and different nodes have different likes.

* `Alike`, `Alike.splits` — nodes with the same function, and their cofactors.
* `Ordered.eq_of_alike` — nodes with the same function are the same.
* `Alike.exists_below` — what lies below one node has its like below the other.
* `Valid.size_le`, `Valid.size_eq` — sizes.
* `Valid.alike_iff_evaluate` — functions as the traversal shows them.
-/

namespace DecisionGraph

namespace Diagram

/-- The diagram is layered by a lawful order of the variables that it tests. -/
structure Ordered (d : Diagram) (o : VarOrder) : Prop where
  closed : d.Closed
  layered : d.Layered o
  knows : d.Knows o
  lawful : o.Lawful

/-- `m` in `d` has the function that `n` has in `d'`. -/
def Alike (d : Diagram) (m : NodeId) (d' : Diagram) (n : NodeId) : Prop :=
  ∀ a x, d.Value a m x ↔ d'.Value a n x

variable {d d' d'' : Diagram} {o : VarOrder} {v : Var} {b : Branch} {k m n : NodeId}
  {c c' : Children}

theorem Alike.symm (h : d.Alike m d' n) : d'.Alike n d m := fun a x => (h a x).symm

theorem Alike.trans (h : d.Alike m d' n) (h' : d'.Alike n d'' k) : d.Alike m d'' k :=
  fun a x => (h a x).trans (h' a x)

/-- Nodes with the same function have cofactors with the same functions. -/
theorem Alike.splits (h : d.Alike m d' n) (hm : d.Splits o v m c) (hn : d'.Splits o v n c')
    (hl : d.Layered o) (hl' : d'.Layered o) :
    d.Alike c.low d' c'.low ∧ d.Alike c.high d' c'.high := by
  constructor
  · intro a x
    rw [← hm.value_low hl, ← hn.value_low hl']
    exact h _ x
  · intro a x
    rw [← hm.value_high hl, ← hn.value_high hl']
    exact h _ x

theorem Ordered.splits (h : d.Ordered o) (hv : o.knows v) (ha : d.alive n)
    (hle : o.levelOf v ≤ d.levelIn o n) : d.Splits o v n (d.cofactorsOf v n) :=
  splits_cofactorsOf h.closed h.layered h.lawful hv ha hle

theorem Ordered.exists_terminal (h : d.Ordered o) (ha : d.alive n) (hn : o.size ≤ d.levelIn o n) :
    ∃ value, n = .terminal value := by
  cases n with
  | terminal value => exact ⟨value, rfl⟩
  | inner i =>
    obtain ⟨b, hb⟩ := exists_branch ha
    exact absurd hn (Nat.not_le_of_lt (h.knows.levelIn_lt h.lawful hb))

/-- A node with no idle test below it stands for its cofactors, by whatever variable. -/
theorem Reduced.unfolds (h : d.Reduced n) (v : Var) : d.Unfolds v n (d.cofactorsOf v n) :=
  unfolds_cofactorsOf fun b hb _ heq => h n .refl ⟨b, hb, heq⟩

/-! ## Equality -/

/-- Nodes on the last `k` levels. -/
theorem Ordered.eq_of_alike_within (h : d.Ordered o) (hd : d.Distinct) (k : Nat)
    (hm : d.alive m) (hn : d.alive n) (hrm : d.Reduced m) (hrn : d.Reduced n)
    (halike : d.Alike m d n) (hlm : o.size - k ≤ d.levelIn o m) (hln : o.size - k ≤ d.levelIn o n) :
    m = n := by
  induction k generalizing m n with
  | zero =>
    obtain ⟨x, rfl⟩ := h.exists_terminal hm hlm
    obtain ⟨y, rfl⟩ := h.exists_terminal hn hln
    have hx := (halike (fun _ => false) x).mp (.terminal x)
    rw [value_terminal_iff] at hx
    rw [hx]
  | succ k ih =>
    by_cases hk : k < o.size
    · have hlt : o.size - (k + 1) < o.size := by omega
      obtain ⟨v, hv⟩ := VarOrder.varAt?_isSome hlt
      have hlevel : (o.levelOf v : Nat) = o.size - (k + 1) := h.lawful.levelOf_of_varAt? hv
      have hknows := h.lawful.knows_of_varAt? hv
      have hsm := h.splits hknows hm (hlevel ▸ hlm)
      have hsn := h.splits hknows hn (hlevel ▸ hln)
      have hdown : ∀ c, o.levelOf v < d.levelIn o c → o.size - k ≤ d.levelIn o c := by
        intro c hc
        have hc : o.size - (k + 1) < d.levelIn o c := hlevel ▸ hc
        omega
      obtain ⟨hlow, hhigh⟩ := halike.splits hsm hsn h.layered h.layered
      obtain ⟨hrmlow, hrmhigh⟩ := hrm.cofactorsOf v
      obtain ⟨hrnlow, hrnhigh⟩ := hrn.cofactorsOf v
      have hlow := ih hsm.alive_low hsn.alive_low hrmlow hrnlow hlow
        (hdown _ hsm.lt_low) (hdown _ hsn.lt_low)
      have hhigh := ih hsm.alive_high hsn.alive_high hrmhigh hrnhigh hhigh
        (hdown _ hsm.lt_high) (hdown _ hsn.lt_high)
      have hcofactors : d.cofactorsOf v m = d.cofactorsOf v n := by
        cases hcm : d.cofactorsOf v m
        cases hcn : d.cofactorsOf v n
        simp_all
      exact (hrm.unfolds v).node_unique hd (hcofactors ▸ hrn.unfolds v)
    · exact ih hm hn hrm hrn halike (by omega) (by omega)

/-- Nodes with the same function and no idle test below them are the same. -/
theorem Ordered.eq_of_alike (h : d.Ordered o) (hd : d.Distinct) (hm : d.alive m) (hn : d.alive n)
    (hrm : d.Reduced m) (hrn : d.Reduced n) (halike : d.Alike m d n) : m = n :=
  h.eq_of_alike_within hd o.size hm hn hrm hrn halike (by omega) (by omega)

/-- Nodes with the same function are the same where they lie below one with no idle test below
it. -/
theorem Ordered.eq_of_alike_below {k' : NodeId} (h : d.Ordered o) (hd : d.Distinct)
    (hm : d.alive m) (hr : d.Reduced m) (hk : d.Below m k) (hk' : d.Below m k')
    (halike : d.Alike k d k') : k = k' :=
  h.eq_of_alike hd (hk.alive h.closed hm) (hk'.alive h.closed hm) (hr.of_below hk)
    (hr.of_below hk') halike

/-! ## What lies below -/

/-- Where a node lies above another with the same function, its children have that function too. -/
theorem Alike.children (halike : d.Alike m d' n) (h : d.Ordered o) (h' : d'.Ordered o)
    (hm : d.alive m) (hb : d'.branch? n = some b) (hlt : o.levelOf b.var < d.levelIn o m) :
    d.Alike m d' b.low ∧ d.Alike m d' b.high := by
  have hknows := h'.knows n b hb
  have hsm := h.splits hknows hm (Nat.le_of_lt hlt)
  have hsn := h'.splits hknows (alive_of_branch? hb) (Nat.le_of_eq (levelIn_of_branch? hb).symm)
  rw [cofactorsOf_of_lt hlt] at hsm
  rw [cofactorsOf_of_var hb] at hsn
  exact halike.splits hsm hsn h.layered h'.layered

/-- A child of a node has its like below every node with the function of its parent. -/
theorem Alike.exists_child (h : d.Ordered o) (h' : d'.Ordered o) (hb : d.branch? m = some b)
    (hn : d'.alive n) (halike : d.Alike m d' n) :
    (∃ n', d'.Below n n' ∧ d'.alive n' ∧ d.Alike b.low d' n') ∧
      ∃ n', d'.Below n n' ∧ d'.alive n' ∧ d.Alike b.high d' n' := by
  have hm := alive_of_branch? hb
  have hlevel : d.levelIn o m = o.levelOf b.var := levelIn_of_branch? hb
  induction hk : o.size - d'.levelIn o n using Nat.strongRecOn generalizing n with
  | ind k ih =>
    by_cases hle : o.levelOf b.var ≤ d'.levelIn o n
    · have hsm := h.splits (h.knows m b hb) hm (Nat.le_of_eq hlevel.symm)
      have hsn := h'.splits (h.knows m b hb) hn hle
      rw [cofactorsOf_of_var hb] at hsm
      obtain ⟨hlow, hhigh⟩ := halike.splits hsm hsn h.layered h'.layered
      obtain ⟨hblow, hbhigh⟩ := d'.below_cofactorsOf b.var n
      exact ⟨⟨_, hblow, hsn.alive_low, hlow⟩, ⟨_, hbhigh, hsn.alive_high, hhigh⟩⟩
    · -- `n` tests a variable that does not occur in `m`, so its low child has the function too
      have hlt : d'.levelIn o n < o.levelOf b.var := Nat.lt_of_not_le hle
      have hsize := h.knows.levelIn_lt h.lawful hb
      rw [hlevel] at hsize
      obtain ⟨b', hb'⟩ := exists_branch_of_levelIn_lt (Nat.lt_trans hlt hsize)
      have hlevel' : d'.levelIn o n = o.levelOf b'.var := levelIn_of_branch? hb'
      obtain ⟨hlow, -⟩ := halike.children h h' hm hb' (by rwa [← hlevel', hlevel])
      have hchild : d'.Below n b'.low := (Child.low hb').below
      have hdown : d'.levelIn o n < d'.levelIn o b'.low := hlevel' ▸ h'.layered.child hb' false
      obtain ⟨⟨n₁, hb₁, ha₁, h₁⟩, ⟨n₂, hb₂, ha₂, h₂⟩⟩ :=
        ih (o.size - d'.levelIn o b'.low) (by omega) (h'.closed n b' hb').1 hlow rfl
      exact ⟨⟨n₁, hchild.trans hb₁, ha₁, h₁⟩, ⟨n₂, hchild.trans hb₂, ha₂, h₂⟩⟩

/-- What lies below a node has its like below every node with the same function. -/
theorem Alike.exists_below (halike : d.Alike m d' n) (h : d.Ordered o) (h' : d'.Ordered o)
    (hn : d'.alive n) (hk : d.Below m k) :
    ∃ n', d'.Below n n' ∧ d'.alive n' ∧ d.Alike k d' n' := by
  induction hk with
  | refl => exact ⟨n, .refl, hn, halike⟩
  | step _ edge ih =>
    obtain ⟨n', hbelow, ha, halike'⟩ := ih
    cases edge with
    | low hb =>
      obtain ⟨⟨n₁, hb₁, ha₁, h₁⟩, -⟩ := Alike.exists_child h h' hb ha halike'
      exact ⟨n₁, hbelow.trans hb₁, ha₁, h₁⟩
    | high hb =>
      obtain ⟨-, ⟨n₂, hb₂, ha₂, h₂⟩⟩ := Alike.exists_child h h' hb ha halike'
      exact ⟨n₂, hbelow.trans hb₂, ha₂, h₂⟩

/-- No node with the same function has less below it than one with no idle test below it. -/
theorem Alike.length_le (halike : d.Alike m d' n) (h : d.Ordered o) (h' : d'.Ordered o)
    (hd : d.Distinct) (hm : d.alive m) (hn : d'.alive n) (hr : d.Reduced m) {ms ns : List NodeId}
    (hnodup : ms.Nodup) (hms : ∀ k ∈ ms, d.Below m k) (hns : ∀ k, d'.Below n k → k ∈ ns) :
    ms.length ≤ ns.length := by
  choose! like hbelow _ hlike using fun k (hk : d.Below m k) => halike.exists_below h h' hn hk
  have hinjective : ∀ k ∈ ms, ∀ k' ∈ ms, like k = like k' → k = k' :=
    fun k hk k' hk' heq => h.eq_of_alike_below hd hm hr (hms k hk) (hms k' hk')
      ((hlike k (hms k hk)).trans (heq ▸ (hlike k' (hms k' hk')).symm))
  have hsubset : ms.map like ⊆ ns := by
    intro k hk
    obtain ⟨k', hk', rfl⟩ := List.mem_map.mp hk
    exact hns _ (hbelow k' (hms k' hk'))
  have hle := ((List.Nodup.map_on hinjective hnodup).subperm hsubset).length_le
  rwa [List.length_map] at hle

end Diagram

namespace Store

variable {s t : Store} {held held' : Holding} {m n f g : NodeId}

theorem Valid.ordered (h : s.Valid held) : s.diagram.Ordered s.order :=
  ⟨h.closed, h.layered, h.sound.knows, h.lawful⟩

/-! ## Sizes -/

/-- A node with no idle test below it is not larger than another with the same function. -/
theorem Valid.size_le (hs : s.Valid held) (ht : t.Valid held') (ho : t.order = s.order)
    (hm : s.diagram.alive m) (hn : t.diagram.alive n) (hr : s.diagram.Reduced m)
    (halike : s.diagram.Alike m t.diagram n) :
    ∃ i j, s.size m = .ok i ∧ t.size n = .ok j ∧ i ≤ j := by
  obtain ⟨i, hi, ms, hnodup, hms, rfl⟩ := Diagram.size_gives hs.closed hs.layered hm
  obtain ⟨j, hj, ns, -, hns, rfl⟩ := Diagram.size_gives ht.closed ht.layered hn
  exact ⟨_, _, hi, hj, halike.length_le hs.ordered (ho ▸ ht.ordered) hs.distinct hm hn hr hnodup
    (fun k => (hms k).mp) fun k => (hns k).mpr⟩

/-- The size of a node with no idle test below it depends on its function and the order. -/
theorem Valid.size_eq (hs : s.Valid held) (ht : t.Valid held') (ho : t.order = s.order)
    (hm : s.diagram.alive m) (hn : t.diagram.alive n) (hr : s.diagram.Reduced m)
    (hr' : t.diagram.Reduced n) (halike : s.diagram.Alike m t.diagram n) :
    s.size m = t.size n := by
  obtain ⟨i, j, hi, hj, hle⟩ := hs.size_le ht ho hm hn hr halike
  obtain ⟨j', i', hj', hi', hle'⟩ := ht.size_le hs ho.symm hn hm hr' halike.symm
  rw [hi, Except.ok.injEq] at hi'
  rw [hj, Except.ok.injEq] at hj'
  rw [hi, hj, Except.ok.injEq]
  omega

/-! ## Functions as the traversal shows them -/

/-- Nodes with the same function have the same values. -/
theorem Valid.evaluate_of_alike (hs : s.Valid held) (ht : t.Valid held')
    (hm : s.diagram.alive m) (hn : t.diagram.alive n) (halike : s.diagram.Alike m t.diagram n)
    {values : Array Bool} (hvalues : s.varCount ≤ values.size)
    (hvalues' : t.varCount ≤ values.size) :
    ∃ x, s.evaluate m values = .ok x ∧ t.evaluate n values = .ok x := by
  obtain ⟨x, hx⟩ := hs.exists_value hm (assignmentOf values)
  exact ⟨x, (hs.evaluate_eq_ok_iff hm hvalues).mpr hx,
    (ht.evaluate_eq_ok_iff hn hvalues').mpr ((halike _ x).mp hx)⟩

/-- A traversal gives the same values for two nodes if and only if they have the same function. -/
theorem Valid.alike_iff_evaluate (h : s.Valid held) (hf : s.diagram.alive f)
    (hg : s.diagram.alive g) :
    s.diagram.Alike f s.diagram g ↔
      ∀ values : Array Bool, values.size = s.varCount →
        s.evaluate f values = s.evaluate g values := by
  constructor
  · intro halike values hsize
    have hsize := Nat.le_of_eq hsize.symm
    obtain ⟨x, hx, hx'⟩ := h.evaluate_of_alike h hf hg halike hsize hsize
    rw [hx, hx']
  · intro heq a x
    -- the values of the known variables under `a`
    let values : Array Bool := Array.ofFn fun i : Fin s.varCount => a ⟨i⟩
    have hsize : values.size = s.varCount := Array.size_ofFn
    have hle := Nat.le_of_eq hsize.symm
    have hvalue : ∀ n, s.diagram.Value a n x ↔ s.diagram.Value (assignmentOf values) n x := by
      intro n
      have hsame : ∀ v, s.diagram.Occurs n v → a v = assignmentOf values v := by
        intro v hv
        have hlt : v.index < s.varCount := VarOrder.knows_iff.mp (hv.knows h.sound.knows)
        have hget : values[v.index]? = some (a v) := by
          rw [Array.getElem?_ofFn, dif_pos hlt]
        simp only [assignmentOf, Array.getD_eq_getD_getElem?, hget, Option.getD_some]
      exact ⟨fun hx => hx.congr hsame, fun hx => hx.congr fun v hv => (hsame v hv).symm⟩
    rw [hvalue, hvalue, ← h.evaluate_eq_ok_iff hf hle, ← h.evaluate_eq_ok_iff hg hle, heq _ hsize]

end Store

end DecisionGraph
