import Mathlib.Logic.Equiv.Basic
import DecisionGraph.Proofs.Runs

/-!
# What an exchange touches

Every rotation gives up two children and may start a cascade, while later rotations still need what
lies below. Where the cascades end cannot be seen from one of them. It is seen from the stores
before and after all rotations: both are valid, and nothing is left without references that had one.

A node that is no test of `w` lies below one that is held or that nothing refers to, and such a node
stays. On the way down from it, nodes that are not rotated have their edges as before; and where a
test of `w` below a rotated node is gone, its children are cofactors of the rotation, which the new
tests of `v` lead to. So no such node goes. A test of `w` goes only if nothing else than tests of
`v` refers to it; and if it is referred to, but only by such tests, it cannot stay, since after the
exchange nothing has an edge to it.

* `Swapped` — an exchange of neighbours, seen from its rotations.
* `Swapped.alive_of_not_testOf`, `Swapped.not_alive_iff` — which nodes stay, and which go.
* `Swapped.refCount_pos` — no count comes down to zero.
* `Footprint`, `Swapped.footprint` — what the exchange does to the store.
-/

namespace DecisionGraph

namespace Diagram

/-- `n` is a test of `v`. -/
def TestOf (d : Diagram) (v : Var) (n : NodeId) : Prop := ∃ b, d.branch? n = some b ∧ b.var = v

variable {d : Diagram} {o : VarOrder} {v w : Var} {k : Children} {m n : NodeId} {b : Branch}

theorem testOf_iff (hb : d.branch? n = some b) : d.TestOf v n ↔ b.var = v := by
  simp only [TestOf, hb, Option.some.injEq, exists_eq_left']

theorem levelIn_of_testOf (h : d.TestOf v n) : d.levelIn o n = o.levelOf v := by
  obtain ⟨b, hb, rfl⟩ := h
  exact levelIn_of_branch? hb

/-- The parents of a test of a variable do not test it. -/
theorem Layered.not_testOf_of_child (hl : d.Layered o) (h : d.Child m n) (hn : d.TestOf v n) :
    ¬ d.TestOf v m := by
  intro hm
  have hlt := hl.lt_of_child h
  rw [levelIn_of_testOf hm, levelIn_of_testOf hn] at hlt
  exact Nat.lt_irrefl _ hlt

/-- The nodes to rotate are the tests of `v` over tests of `w`. -/
theorem exists_rotates_iff :
    (∃ r, d.Rotates v w r ∧ r.node = n) ↔
      d.TestOf v n ∧ ∃ m, d.Child n m ∧ d.TestOf w m := by
  constructor
  · rintro ⟨r, hr, rfl⟩
    obtain ⟨m, b, hm, hb, hvar⟩ := hr.tested
    exact ⟨⟨_, hr.branch?, rfl⟩, m, (child_iff hr.branch?).mpr hm, b, hb, hvar⟩
  · rintro ⟨⟨b, hb, rfl⟩, m, hchild, b', hb', hvar⟩
    exact ⟨⟨n, b.toChildren, d.cofactorsOf w b.low, d.cofactorsOf w b.high⟩,
      ⟨hb, rfl, rfl, m, b', (child_iff hb).mp hchild, hb', hvar⟩, rfl⟩

/-- Where a node stands for a test, edges lead to both of its cofactors. -/
theorem Unfolds.exists_parent (h : d.Unfolds v n k) (hn : d.Child m n) :
    (∃ p, d.Child p k.low) ∧ ∃ p, d.Child p k.high := by
  rcases h with ⟨heq, rfl⟩ | ⟨-, hb⟩
  · exact ⟨⟨m, hn⟩, m, heq ▸ hn⟩
  · exact ⟨⟨n, .low hb⟩, n, .high hb⟩

end Diagram

namespace Store

variable {s t : Store} {l : Nat} {v w : Var} {held : Holding} {plan : List Rotation}
  {k m n p : NodeId} {b : Branch} {r : Rotation}

/-- `n` is a test of `w`, and something refers to it, but nothing else than tests of `v`. -/
structure OnlyBelow (s : Store) (held : Holding) (v w : Var) (n : NodeId) : Prop where
  testOf : s.diagram.TestOf w n
  referred : 0 < s.refCount n
  unheld : held n = 0
  parents : ∀ p, s.diagram.Child p n → s.diagram.TestOf v p

/-- From `s` to `t` the neighbours `v` and `w` have changed places, by the rotations of a plan. -/
structure Swapped (s : Store) (held : Holding) (l : Nat) (v w : Var) (plan : List Rotation)
    (t : Store) : Prop extends Turns s v w (s.Carried l) plan t where
  before : s.Valid held
  after : t.Valid held
  adjacent : s.order.Adjacent l v w
  mem_plan_iff : ∀ r, r ∈ plan ↔ s.diagram.Rotates v w r
  spares : s.Spares t
  order : t.order = s.order.exchange l v w

/-! ## Which nodes stay -/

section Swapped

variable (h : s.Swapped held l v w plan t)

include h

theorem Swapped.mem_nodes_iff : n ∈ plan.map Rotation.node ↔
    s.diagram.TestOf v n ∧ ∃ m, s.diagram.Child n m ∧ s.diagram.TestOf w m := by
  simp only [List.mem_map, h.mem_plan_iff, Diagram.exists_rotates_iff]

theorem Swapped.not_mem_of_testOf (hn : s.diagram.TestOf w n) : n ∉ plan.map Rotation.node := by
  intro hmem
  obtain ⟨b, hb, rfl⟩ := (h.mem_nodes_iff.mp hmem).1
  exact h.adjacent.ne ((Diagram.testOf_iff hb).mp hn)

/-- What is held stays, and so does what nothing has referred to. -/
theorem Swapped.alive_of_standing (hn : 0 < held n ∨ s.Loose n) : t.diagram.alive n := by
  rcases hn with hheld | ⟨⟨b, hb⟩, hzero⟩
  · exact h.after.sound.alive_of_held hheld
  · by_cases hmem : n ∈ plan.map Rotation.node
    · obtain ⟨r, hr, rfl⟩ := List.mem_map.mp hmem
      obtain ⟨low, high, hb', -⟩ := h.rotated r hr
      exact Diagram.alive_of_branch? hb'
    · exact Diagram.alive_of_branch? (h.kept n b hb hmem fun hin =>
        absurd hzero (Nat.ne_of_gt hin.referred))

/-- After the exchange, edges lead to the cofactors of the old children of a rotated node. -/
theorem Swapped.parent_of_cofactor (hn : n ∈ plan.map Rotation.node) (hm : s.diagram.Child n m) :
    (∃ p, t.diagram.Child p (s.diagram.cofactorsOf w m).low) ∧
      ∃ p, t.diagram.Child p (s.diagram.cofactorsOf w m).high := by
  obtain ⟨r, hr, rfl⟩ := List.mem_map.mp hn
  obtain ⟨low, high, hb, hlow, hhigh⟩ := h.rotated r hr
  have hrotates := (h.mem_plan_iff r).mp hr
  have hnewLow := hlow.exists_parent (Diagram.Child.low hb)
  have hnewHigh := hhigh.exists_parent (Diagram.Child.high hb)
  rcases (Diagram.child_iff hrotates.branch?).mp hm with rfl | rfl
  · rw [← hrotates.lowCofactors]
    exact ⟨hnewLow.1, hnewHigh.1⟩
  · rw [← hrotates.highCofactors]
    exact ⟨hnewLow.2, hnewHigh.2⟩

/-- An edge from a node that stays, and is not rotated, stays. -/
theorem Swapped.child_of_child (hp : t.diagram.alive p) (hmem : p ∉ plan.map Rotation.node)
    (hchild : s.diagram.Child p n) : t.diagram.Child p n := by
  obtain ⟨b, hb, hn⟩ := hchild.exists_branch
  exact (Diagram.child_iff ((h.branch?_eq hmem (Diagram.alive_of_branch? hb) hp).trans hb)).mpr hn

/-- Below a node that stays there are nodes that stay, and tests of `w` with children that stay. -/
theorem Swapped.alive_below (hm : t.diagram.alive m) (hbelow : s.diagram.Below m n) :
    t.diagram.alive n ∨
      s.diagram.TestOf w n ∧ ∀ k, s.diagram.Child n k → t.diagram.alive k := by
  induction hbelow with
  | refl => exact Or.inl hm
  | @step p n _ hchild ih =>
    rcases ih with hp | ⟨-, hchildren⟩
    · by_cases hmem : p ∈ plan.map Rotation.node
      · obtain ⟨⟨q, hlow⟩, q', hhigh⟩ := h.parent_of_cofactor hmem hchild
        rcases s.diagram.cofactorsOf_cases w n with ⟨b, hb, rfl, hcof⟩ | ⟨-, hcof⟩
        · rw [hcof] at hlow hhigh
          refine Or.inr ⟨⟨b, hb, rfl⟩, fun k hk => ?_⟩
          rcases (Diagram.child_iff hb).mp hk with rfl | rfl
          · exact h.after.closed.alive_of_child hlow
          · exact h.after.closed.alive_of_child hhigh
        · rw [hcof] at hlow
          exact Or.inl (h.after.closed.alive_of_child hlow)
      · exact Or.inl (h.after.closed.alive_of_child (h.child_of_child hp hmem hchild))
    · exact Or.inl (hchildren n hchild)

/-- No node goes but tests of `w`. -/
theorem Swapped.alive_of_not_testOf (ha : s.diagram.alive n) (hn : ¬ s.diagram.TestOf w n) :
    t.diagram.alive n := by
  rcases Diagram.alive_iff.mp ha with hterminal | ⟨b, hb⟩
  · exact Diagram.alive_iff.mpr (Or.inl hterminal)
  · obtain ⟨m, hm, hbelow⟩ := h.before.exists_standing hb
    exact (h.alive_below (h.alive_of_standing hm) hbelow).resolve_right fun hno => hn hno.1

/-! ## Which nodes go -/

theorem Swapped.levelOf_upper : (t.order.levelOf v : Nat) = l + 1 :=
  h.order ▸ h.adjacent.levelOf_exchange_upper

theorem Swapped.levelOf_lower : (t.order.levelOf w : Nat) = l :=
  h.order ▸ h.adjacent.levelOf_exchange_lower

/-- After the exchange, no edge leads to a test of `w` that only tests of `v` have referred to. -/
theorem Swapped.not_child_of_onlyBelow (hn : s.OnlyBelow held v w n) (ha : t.diagram.alive n) :
    ¬ t.diagram.Child p n := by
  intro hchild
  obtain ⟨b, hb, hvar⟩ := hn.testOf
  obtain ⟨b', hb', hchild'⟩ := hchild.exists_branch
  have hvars : b'.var = v ∨ b'.var = w := by
    rcases h.old_or_var hb' with hb' | hvar'
    · exact Or.inl ((Diagram.testOf_iff hb').mp
        (hn.parents p ((Diagram.child_iff hb').mpr hchild')))
    · exact hvar'
  -- a parent lies above level `l`, where neither `v` nor `w` is now
  have hlevel : t.diagram.levelIn t.order n = l := by
    rw [Diagram.levelIn_of_branch? ((h.branch?_eq (h.not_mem_of_testOf hn.testOf)
      (Diagram.alive_of_branch? hb) ha).trans hb), hvar, h.levelOf_lower]
  have hlt := h.after.layered.lt_of_child hchild
  rw [hlevel, Diagram.levelIn_of_branch? hb'] at hlt
  rcases hvars with hvar' | hvar'
  · rw [hvar', h.levelOf_upper] at hlt
    exact absurd hlt (Nat.not_lt.mpr (Nat.le_succ l))
  · rw [hvar', h.levelOf_lower] at hlt
    exact Nat.lt_irrefl l hlt

/-- A node goes if it is a test of `w` that is referred to, and only by tests of `v`. -/
theorem Swapped.not_alive_iff (ha : s.diagram.alive n) :
    ¬ t.diagram.alive n ↔ s.OnlyBelow held v w n := by
  constructor
  · intro hdead
    have htest : s.diagram.TestOf w n :=
      Classical.not_not.mp fun hno => hdead (h.alive_of_not_testOf ha hno)
    obtain ⟨b, hb, hvar⟩ := htest
    have hstanding : ¬ (0 < held n ∨ s.Loose n) := fun hn => hdead (h.alive_of_standing hn)
    rw [not_or] at hstanding
    refine ⟨⟨b, hb, hvar⟩, Nat.pos_of_ne_zero fun hzero => hstanding.2 ⟨⟨b, hb⟩, hzero⟩,
      Nat.eq_zero_of_not_pos hstanding.1, fun p hchild => ?_⟩
    refine Classical.not_not.mp fun hno => hdead ?_
    have hp : t.diagram.alive p := h.alive_of_not_testOf hchild.alive
      (h.before.layered.not_testOf_of_child hchild ⟨b, hb, hvar⟩)
    exact h.after.closed.alive_of_child (h.child_of_child hp
      (fun hmem => hno (h.mem_nodes_iff.mp hmem).1) hchild)
  · intro hn ha'
    obtain ⟨b, hb, hvar⟩ := hn.testOf
    have hloose : ¬ t.Loose n := fun hloose =>
      absurd (h.spares n hloose).2 (Nat.ne_of_gt hn.referred)
    have hinner : !n.isTerminal := by rw [Diagram.isTerminal_of_branch? hb, Bool.not_false]
    obtain ⟨p, hchild⟩ :=
      Diagram.exists_parent (h.after.edgesInto_pos ha' hinner hn.unheld hloose)
    exact h.not_child_of_onlyBelow hn ha' hchild

/-! ## Counts -/

/-- A node to which an edge has led, and that is no test of `w`, has an edge into it again. -/
theorem Swapped.exists_parent (hchild : s.diagram.Child p n) (hn : ¬ s.diagram.TestOf w n) :
    ∃ q, t.diagram.Child q n := by
  have hself : s.diagram.cofactorsOf w n = ⟨n, n⟩ :=
    Diagram.cofactorsOf_of_ne fun b hb hvar => hn ⟨b, hb, hvar⟩
  by_cases hmem : p ∈ plan.map Rotation.node
  · have hparent := (h.parent_of_cofactor hmem hchild).1
    rwa [hself] at hparent
  · by_cases hp : t.diagram.alive p
    · exact ⟨p, h.child_of_child hp hmem hchild⟩
    · -- the parent is gone: it has been a child of a rotated node
      obtain ⟨b, hb, hbn⟩ := hchild.exists_branch
      have honly := (h.not_alive_iff (Diagram.alive_of_branch? hb)).mp hp
      have hedges := honly.referred
      rw [h.before.sound.counted, honly.unheld, Nat.add_zero] at hedges
      obtain ⟨q, hq⟩ := Diagram.exists_parent hedges
      have hparents := h.parent_of_cofactor
        (h.mem_nodes_iff.mpr ⟨honly.parents q hq, p, hq, honly.testOf⟩) hq
      have hvar := (Diagram.testOf_iff hb).mp honly.testOf
      rw [← hvar, Diagram.cofactorsOf_of_var hb] at hparents
      rcases hbn with rfl | rfl
      · exact hparents.1
      · exact hparents.2

/-- No node that stays loses its last reference. -/
theorem Swapped.refCount_pos (ha : t.diagram.alive n) (hn : 0 < s.refCount n) :
    0 < t.refCount n := by
  rcases Diagram.alive_iff.mp ha with hterminal | hb
  · have hno : ¬ s.diagram.TestOf w n := by
      rintro ⟨b, hb, -⟩
      rw [Diagram.isTerminal_of_branch? hb] at hterminal
      cases hterminal
    rw [h.before.sound.counted] at hn
    by_cases hheld : 0 < held n
    · rw [h.after.sound.counted]
      exact Nat.add_pos_right _ hheld
    · have hedges : 0 < s.diagram.edgesInto n := by omega
      obtain ⟨p, hp⟩ := Diagram.exists_parent hedges
      obtain ⟨q, hq⟩ := h.exists_parent hp hno
      exact h.after.sound.refCount_pos_of_child hq
  · exact Nat.pos_of_ne_zero fun hzero =>
      absurd (h.spares n ⟨hb, hzero⟩).2 (Nat.ne_of_gt hn)

/-- A new node is a test of `v`. It has been made for a rotation, which refers to it. -/
theorem Swapped.created (hissued : t.diagram.issued n) (hnew : ¬ s.diagram.issued n) :
    ∃ b, t.diagram.branch? n = some b ∧ b.var = v ∧ b.low ≠ b.high ∧ 0 < t.refCount n := by
  have hdead : ¬ s.diagram.alive n := mt Diagram.issued_of_alive hnew
  have ha : t.diagram.alive n := (h.issued n hissued).resolve_left hnew
  obtain ⟨b, hb⟩ := Diagram.exists_branch_of_not_alive ha hdead
  obtain ⟨hvar, hne⟩ := h.new n b hdead hb
  exact ⟨b, hb, hvar, hne, Nat.pos_of_ne_zero fun hzero =>
    hdead (h.spares n ⟨⟨b, hb⟩, hzero⟩).alive⟩

/-! ## The order -/

theorem Swapped.varAt?_eq (m : Level) :
    t.order.varAt? m = (s.order.varAt? m).map (Equiv.swap v w) := by
  have ho := h.adjacent
  rw [h.order, VarOrder.varAt?_exchange ho.upper ho.lower]
  by_cases hm : m = l
  · rw [if_pos hm, hm, ho.upper, Option.map_some, Equiv.swap_apply_left]
  · by_cases hm' : m = l + 1
    · rw [if_neg hm, if_pos hm', hm', ho.lower, Option.map_some, Equiv.swap_apply_right]
    · rw [if_neg hm, if_neg hm']
      refine (Option.map_id_apply.symm.trans (Option.map_congr fun x hx => ?_))
      have hlevel := ho.lawful.levelOf_of_varAt? hx
      refine (Equiv.swap_apply_of_ne_of_ne ?_ ?_).symm
      · rintro rfl
        exact hm (hlevel.symm.trans ho.levelOf_upper)
      · rintro rfl
        exact hm' (hlevel.symm.trans ho.levelOf_lower)

theorem Swapped.levelOf_eq (x : Var) :
    t.order.levelOf x = s.order.levelOf (Equiv.swap v w x) := by
  have ho := h.adjacent
  rw [h.order, ho.lawful.levelOf_exchange ho.upper ho.lower]
  by_cases hv : x = v
  · rw [if_pos hv, hv, Equiv.swap_apply_left]
    exact ho.levelOf_lower.symm
  · by_cases hw : x = w
    · rw [if_neg hv, if_pos hw, hw, Equiv.swap_apply_right]
      exact ho.levelOf_upper.symm
    · rw [if_neg hv, if_neg hw, Equiv.swap_apply_of_ne_of_ne hv hw]

end Swapped

/-! ## The exchange -/

/-- From `s` to `t`, `v` and `w` have changed places, and of nodes that do not test them nothing has
been touched. Tests of `v` over tests of `w` are tests of `w` now; the other tests of the two
variables are what they were, but for tests of `w` that only tests of `v` have referred to, which
are gone. What is new are tests of `v` that are referred to, and nothing has lost its last
reference. -/
structure Footprint (s : Store) (held : Holding) (v w : Var) (t : Store) : Prop where
  varAt? : ∀ m, t.order.varAt? m = (s.order.varAt? m).map (Equiv.swap v w)
  levelOf : ∀ x, t.order.levelOf x = s.order.levelOf (Equiv.swap v w x)
  gone_iff : ∀ n, s.alive n → (¬ t.alive n ↔ s.OnlyBelow held v w n)
  others : ∀ n b, s.diagram.branch? n = some b → b.var ≠ v → b.var ≠ w →
    t.diagram.branch? n = some b
  subtables : ∀ x, x ≠ v → x ≠ w → t.unique.subtable x = s.unique.subtable x
  upper : ∀ n, s.diagram.TestOf v n → (∀ m, s.diagram.Child n m → ¬ s.diagram.TestOf w m) →
    t.diagram.branch? n = s.diagram.branch? n
  lower : ∀ n, s.diagram.TestOf w n → t.alive n → t.diagram.branch? n = s.diagram.branch? n
  rotated : ∀ n m, s.diagram.TestOf v n → s.diagram.Child n m → s.diagram.TestOf w m →
    t.diagram.TestOf w n
  created : ∀ n, t.diagram.issued n → ¬ s.diagram.issued n →
    ∃ b, t.diagram.branch? n = some b ∧ b.var = v ∧ b.low ≠ b.high ∧ 0 < t.refCount n
  alive_of_issued : ∀ n, s.diagram.issued n → t.alive n → s.alive n
  refCount_pos : ∀ n, t.alive n → 0 < s.refCount n → 0 < t.refCount n

theorem Swapped.footprint (h : s.Swapped held l v w plan t) : s.Footprint held v w t where
  varAt? := h.varAt?_eq
  levelOf := h.levelOf_eq
  gone_iff n := h.not_alive_iff
  others n b hb hv hw := by
    have ha := Diagram.alive_of_branch? hb
    have hmem : n ∉ plan.map Rotation.node := fun hmem =>
      hv ((Diagram.testOf_iff hb).mp (h.mem_nodes_iff.mp hmem).1)
    exact (h.branch?_eq hmem ha (h.alive_of_not_testOf ha
      (mt (Diagram.testOf_iff hb).mp hw))).trans hb
  subtables x hv hw := by
    refine h.subtables x hv hw fun n b hb hgone => ?_
    have hdead : ¬ t.diagram.alive n := fun ha => by
      rcases Diagram.alive_iff.mp ha with hterminal | ⟨b', hb'⟩
      · rw [Diagram.isTerminal_of_branch? hb] at hterminal
        cases hterminal
      · rw [hgone] at hb'
        cases hb'
    have htest := ((h.not_alive_iff (Diagram.alive_of_branch? hb)).mp hdead).testOf
    exact (Diagram.testOf_iff hb).mp htest ▸ hw.symm
  upper n hn hchildren := by
    obtain ⟨b, hb, rfl⟩ := hn
    have ha := Diagram.alive_of_branch? hb
    have hmem : n ∉ plan.map Rotation.node := fun hmem => by
      obtain ⟨-, m, hchild, hm⟩ := h.mem_nodes_iff.mp hmem
      exact hchildren m hchild hm
    exact h.branch?_eq hmem ha (h.alive_of_not_testOf ha
      (mt (Diagram.testOf_iff hb).mp h.adjacent.ne))
  lower n hn ha := by
    obtain ⟨b, hb, hvar⟩ := hn
    exact h.branch?_eq (h.not_mem_of_testOf ⟨b, hb, hvar⟩) (Diagram.alive_of_branch? hb) ha
  rotated n m hn hchild hm := by
    obtain ⟨r, hr, rfl⟩ := List.mem_map.mp (h.mem_nodes_iff.mpr ⟨hn, m, hchild, hm⟩)
    obtain ⟨low, high, hb, -⟩ := h.rotated r hr
    exact ⟨_, hb, rfl⟩
  created n := h.created
  alive_of_issued n hn := h.evolves.gone n (Diagram.issued_iff.mp hn)
  refCount_pos n := h.refCount_pos

/-- An exchange that succeeds has been planned, and the look ahead has found no conflict. -/
theorem planned_of_swap (hrun : Store.swap v w s = .ok (.ok (), t)) :
    s.misplaced? v w = none ∧
      ∃ plan, s.rotations v w = .ok plan ∧ s.conflict? v w plan [] = .ok none := by
  unfold Store.swap at hrun
  rw [Action.store_bind] at hrun
  cases hplace : s.misplaced? v w with
  | some e =>
    rw [hplace] at hrun
    cases hrun
  | none =>
    rw [hplace] at hrun
    obtain ⟨plan, hplan, hrun⟩ := Action.of_ask hrun
    obtain ⟨conflict, hconflict, hrun⟩ := Action.of_ask hrun
    cases conflict with
    | some e => cases hrun
    | none => exact ⟨rfl, plan, hplan, hconflict⟩

/-- An exchange that succeeds is one by rotations. -/
theorem Valid.swapped (h : s.Valid held) (hrun : Store.swap v w s = .ok (.ok (), t)) :
    ∃ plan, s.Swapped held (s.order.levelOf v) v w plan t := by
  obtain ⟨hplace, plan, hplan, hfree⟩ := planned_of_swap hrun
  have ho := misplaced?_eq_none hplace h.lawful
  obtain ⟨-, hvalid, hspares, horder, hturns⟩ := (h.swap_of_free hplace hplan hfree).of_eq hrun
  have hrotates := ((h.rotations_gives (ho.lawful.knows_of_varAt? ho.upper) w).of_eq hplan).2
  exact ⟨plan, hturns, h, hvalid, ho, hrotates, hspares, horder⟩

end Store

namespace Client

variable {c : Client} {v w : Var} {t : Store}

/-- An exchange touches the two variables alone, and takes just what nothing needs any more, in
every reachable state. -/
theorem swap_footprint (hc : Reachable c) (hrun : Store.swap v w c.store = .ok (.ok (), t)) :
    c.store.Footprint c.held v w t := by
  obtain ⟨plan, hswapped⟩ := hc.valid.swapped hrun
  exact hswapped.footprint

/-- Two tests of the lower variable lie below the node `2`. The one that is held stays, and the
other goes. Of the new children, one is there already, and one is made. -/
theorem swap_footprint_collects : ∃ c t,
    (start 2 ⟨1, ⟨0⟩⟩).after [.createHeld ⟨1⟩ .zero .one, .create ⟨1⟩ .one .zero,
      .createHeld ⟨0⟩ (.inner 0) (.inner 1), .createHeld ⟨0⟩ .zero .one] = some c ∧
    Store.swap ⟨0⟩ ⟨1⟩ c.store = .ok (.ok (), t) ∧ c.store.Footprint c.held ⟨0⟩ ⟨1⟩ t ∧
    t.alive (.inner 0) ∧ c.store.OnlyBelow c.held ⟨0⟩ ⟨1⟩ (.inner 1) ∧
    t.diagram.branch? (.inner 2) = some ⟨⟨.inner 3, .inner 4⟩, ⟨1⟩⟩ := by
  let calls : List Call := [.createHeld ⟨1⟩ .zero .one, .create ⟨1⟩ .one .zero,
    .createHeld ⟨0⟩ (.inner 0) (.inner 1), .createHeld ⟨0⟩ .zero .one]
  have hends : ((start 2 ⟨1, ⟨0⟩⟩).after calls).map
      (fun c => (c.store.alive (.inner 1), (Store.swap ⟨0⟩ ⟨1⟩ c.store).map Prod.fst)) =
        some (true, .ok (.ok ())) := by
    decide +kernel
  have hleft : ((start 2 ⟨1, ⟨0⟩⟩).after calls).map (fun c =>
      (Store.swap ⟨0⟩ ⟨1⟩ c.store).toOption.map fun p =>
        (p.2.alive (.inner 0), p.2.alive (.inner 1), p.2.diagram.branch? (.inner 2))) =
      some (some (true, false, some ⟨⟨.inner 3, .inner 4⟩, ⟨1⟩⟩)) := by
    decide +kernel
  obtain ⟨c, hc, hfound⟩ := Option.map_eq_some_iff.mp hends
  rw [hc, Option.map_some, Option.some.injEq] at hleft
  rw [Prod.mk.injEq] at hfound
  obtain ⟨ha, hok⟩ := hfound
  cases hrun : Store.swap ⟨0⟩ ⟨1⟩ c.store with
  | error e =>
    rw [hrun] at hok
    cases hok
  | ok p =>
    obtain ⟨result, t⟩ := p
    rw [hrun, Except.map, Except.ok.injEq] at hok
    obtain rfl : result = .ok () := hok
    rw [hrun, Except.toOption, Option.map_some, Option.some.injEq] at hleft
    simp only [Prod.mk.injEq] at hleft
    obtain ⟨hstays, hgone, hrotated⟩ := hleft
    have hfootprint := swap_footprint (reachable_of_after hc) hrun
    exact ⟨c, t, hc, hrun, hfootprint, hstays,
      (hfootprint.gone_iff (.inner 1) ha).mp (by simp [hgone]), hrotated⟩

end Client

end DecisionGraph
