import DecisionGraph.Exchange
import DecisionGraph.Proofs.Invariant

/-!
# Rotations

A rotation replaces a test of `v` over tests of `w` by a test of `w` over tests of `v`. It is looked
at in one diagram here: which rotations there are, that the new branch means the same as the old
one, and what the look ahead for taken shapes promises.

* `Diagram.Rotates`, `Valid.rotations_gives` — the plan has each node to rotate, once.
* `Diagram.Fresh`, `Sound.conflict?_gives` — no conflict is found if and only if the new shapes are
  free and differ.
* `Turning.matches` — the new branch means the same.
* `withdraw_gives` — the nodes to rotate leave the unique table.
-/

namespace DecisionGraph

namespace Diagram

/-- `r` tells how to rotate `r.node`, a test of `v` with a child that tests `w`. -/
structure Rotates (d : Diagram) (v w : Var) (r : Rotation) : Prop where
  branch? : d.branch? r.node = some ⟨r.children, v⟩
  lowCofactors : r.lowCofactors = d.cofactorsOf w r.children.low
  highCofactors : r.highCofactors = d.cofactorsOf w r.children.high
  tested : ∃ n b, (n = r.children.low ∨ n = r.children.high) ∧ d.branch? n = some b ∧ b.var = w

/-- No test of `w` has children that stand for the new children of `r`. -/
def Fresh (d : Diagram) (v w : Var) (r : Rotation) : Prop :=
  ∀ m b, d.branch? m = some b → b.var = w →
    ¬ (d.Unfolds v b.low r.newLow ∧ d.Unfolds v b.high r.newHigh)

variable {d d' : Diagram} {v w : Var} {r : Rotation} {n low high : NodeId} {k : Children}
  {o : VarOrder} {b : Branch}

/-! ## The new branch -/

/-- What lies around a node that is rotated: its old children, and its new children `low` and
`high`, which are not both cofactors. -/
structure Turning (d : Diagram) (v w : Var) (r : Rotation) (low high : NodeId) : Prop where
  lowCofactors : r.lowCofactors = d.cofactorsOf w r.children.low
  highCofactors : r.highCofactors = d.cofactorsOf w r.children.high
  tested : ∃ n b, (n = r.children.low ∨ n = r.children.high) ∧ d.branch? n = some b ∧ b.var = w
  newLow : d.Unfolds v low r.newLow
  newHigh : d.Unfolds v high r.newHigh
  apart : r.newLow.low ≠ r.newLow.high ∨ r.newHigh.low ≠ r.newHigh.high

/-- A rotation depends on the branches of its node and of the two children. -/
theorem Rotates.of_branch?_eq (h : d.Rotates v w r) (hnode : d'.branch? r.node = d.branch? r.node)
    (hchildren : ∀ n, n = r.children.low ∨ n = r.children.high → d'.branch? n = d.branch? n) :
    d'.Rotates v w r := by
  have hcofactors : ∀ n, n = r.children.low ∨ n = r.children.high →
      d'.cofactorsOf w n = d.cofactorsOf w n := by
    intro n hn
    simp only [cofactorsOf, hchildren n hn]
  obtain ⟨n, b, hn, hb, hvar⟩ := h.tested
  exact ⟨hnode.trans h.branch?, h.lowCofactors.trans (hcofactors _ (Or.inl rfl)).symm,
    h.highCofactors.trans (hcofactors _ (Or.inr rfl)).symm, n, b, hn, (hchildren n hn).trans hb,
    hvar⟩

/-- If both new children were cofactors, a child that tests `w` would have the new shape. -/
theorem Rotates.apart (h : d.Rotates v w r) (hf : d.Fresh v w r) :
    r.newLow.low ≠ r.newLow.high ∨ r.newHigh.low ≠ r.newHigh.high := by
  apply Decidable.by_contra
  intro hno
  rw [not_or, Decidable.not_not, Decidable.not_not] at hno
  obtain ⟨hlow, hhigh⟩ := hno
  obtain ⟨n, b, hn, hb, rfl⟩ := h.tested
  have hcof := cofactorsOf_of_var hb
  have hchildren : b.low = r.newLow.low ∧ b.high = r.newHigh.low := by
    rcases hn with rfl | rfl
    · rw [← h.lowCofactors] at hcof
      simp only [Rotation.newLow, Rotation.newHigh, hcof, and_self]
    · rw [← h.highCofactors] at hcof
      rw [hlow, hhigh]
      simp only [Rotation.newLow, Rotation.newHigh, hcof, and_self]
  exact hf n b hb rfl ⟨Or.inl ⟨hlow, hchildren.1⟩, Or.inl ⟨hhigh, hchildren.2⟩⟩

/-- The four cofactors lie below the node. -/
theorem Rotates.below_cofactors (h : d.Rotates v w r) :
    (d.Below r.node r.newLow.low ∧ d.Below r.node r.newLow.high) ∧
      d.Below r.node r.newHigh.low ∧ d.Below r.node r.newHigh.high := by
  have hlow := (Child.low h.branch?).below
  have hhigh := (Child.high h.branch?).below
  have hclow := d.below_cofactorsOf w r.children.low
  have hchigh := d.below_cofactorsOf w r.children.high
  simp only [Rotation.newLow, Rotation.newHigh, h.lowCofactors, h.highCofactors]
  exact ⟨⟨hlow.trans hclow.1, hhigh.trans hchigh.1⟩, hlow.trans hclow.2, hhigh.trans hchigh.2⟩

/-- If both new children had the same cofactors, a child that tests `w` would be idle. -/
theorem Rotates.newLow_ne_newHigh (h : d.Rotates v w r) (hn : d.Reduced r.node) :
    r.newLow ≠ r.newHigh := by
  intro heq
  simp only [Rotation.newLow, Rotation.newHigh, Children.mk.injEq] at heq
  obtain ⟨n, b, hchild, hb, rfl⟩ := h.tested
  have hcof := cofactorsOf_of_var hb
  rcases hchild with rfl | rfl
  · rw [← h.lowCofactors] at hcof
    exact hn _ (Child.low h.branch?).below ⟨b, hb, by simpa [hcof] using heq.1⟩
  · rw [← h.highCofactors] at hcof
    exact hn _ (Child.high h.branch?).below ⟨b, hb, by simpa [hcof] using heq.2⟩

/-- Both branches of a rotated node mean: the four cofactors, by `v` and `w`. -/
theorem Turning.matches (h : d.Turning v w r low high) :
    d.Matches ⟨r.children, v⟩ ⟨⟨low, high⟩, w⟩ where
  value a x := by
    have hold := fun n => d.value_cofactorsOf a w n x
    have hlow := h.lowCofactors
    have hhigh := h.highCofactors
    have hnewLow := h.newLow.value_iff a x
    have hnewHigh := h.newHigh.value_iff a x
    simp only [Rotation.newLow, Rotation.newHigh] at hnewLow hnewHigh
    cases hav : a v <;> cases haw : a w <;>
      simp only [hav, haw, Bool.false_eq_true, if_false, if_true] at hold hnewLow hnewHigh ⊢
    · rw [hold, ← hlow, hnewLow]
    · rw [hold, ← hlow, hnewHigh]
    · rw [hold, ← hhigh, hnewLow]
    · rw [hold, ← hhigh, hnewHigh]
  occurs x := by
    have hlow := d.occurs_cofactorsOf w r.children.low x
    have hhigh := d.occurs_cofactorsOf w r.children.high x
    rw [← h.lowCofactors] at hlow
    rw [← h.highCofactors] at hhigh
    have hnewLow := h.newLow.occurs_iff x
    have hnewHigh := h.newHigh.occurs_iff x
    have hw : (∃ b, d.branch? r.children.low = some b ∧ b.var = w) ∨
        ∃ b, d.branch? r.children.high = some b ∧ b.var = w := by
      obtain ⟨n, b, rfl | rfl, hb, hvar⟩ := h.tested
      · exact Or.inl ⟨b, hb, hvar⟩
      · exact Or.inr ⟨b, hb, hvar⟩
    have hv := h.apart
    simp only [Rotation.newLow, Rotation.newHigh] at hnewLow hnewHigh hv
    rw [hlow, hhigh, hnewLow, hnewHigh]
    grind

/-- The same holds in every diagram with the same branches around the node. -/
theorem Turning.of_branch?_eq (h : d.Turning v w r low high)
    (heq : ∀ n ∈ [r.children.low, r.children.high, low, high], d'.branch? n = d.branch? n) :
    d'.Turning v w r low high := by
  have hlow := heq r.children.low (by simp)
  have hhigh := heq r.children.high (by simp)
  have hcofactors : ∀ n, d'.branch? n = d.branch? n → d'.cofactorsOf w n = d.cofactorsOf w n := by
    intro n hn
    simp only [cofactorsOf, hn]
  refine ⟨h.lowCofactors.trans (hcofactors _ hlow).symm,
    h.highCofactors.trans (hcofactors _ hhigh).symm, ?_,
    h.newLow.of_branch?_eq (heq low (by simp)), h.newHigh.of_branch?_eq (heq high (by simp)),
    h.apart⟩
  obtain ⟨n, b, hn, hb, hvar⟩ := h.tested
  refine ⟨n, b, hn, ?_, hvar⟩
  rcases hn with rfl | rfl
  · rw [hlow, hb]
  · rw [hhigh, hb]

/-! ## The plan -/

/-- How to rotate `n`, if one of its children tests `w`. -/
def rotationOf? (d : Diagram) (w : Var) (n : NodeId) : Option Rotation :=
  match d.branch? n with
  | none => none
  | some b =>
    if d.cofactorsOf w b.low = ⟨b.low, b.low⟩ ∧ d.cofactorsOf w b.high = ⟨b.high, b.high⟩ then none
    else some ⟨n, b.toChildren, d.cofactorsOf w b.low, d.cofactorsOf w b.high⟩

theorem node_of_rotationOf? (h : d.rotationOf? w n = some r) : r.node = n := by
  unfold rotationOf? at h
  split at h
  · cases h
  · split at h
    · cases h
    · cases h
      rfl

/-- A node that is its own cofactor twice does not test the variable: it would be its own child. -/
theorem Layered.cofactorsOf_eq_iff (hl : d.Layered o) :
    d.cofactorsOf w n = ⟨n, n⟩ ↔ ∀ b, d.branch? n = some b → b.var ≠ w := by
  rcases d.cofactorsOf_cases w n with ⟨b, hb, rfl, hcof⟩ | ⟨hne, hcof⟩
  · refine ⟨fun h => ?_, fun h => absurd rfl (h b hb)⟩
    have hchild := hl.child hb false
    rw [hcof] at h
    simp [h] at hchild
  · exact ⟨fun _ => hne, fun _ => hcof⟩

theorem rotationOf?_eq_some_iff (hl : d.Layered o) (hb : d.branch? n = some b) :
    d.rotationOf? w n = some r ↔ r.node = n ∧ d.Rotates b.var w r := by
  have hidle : (d.cofactorsOf w b.low = ⟨b.low, b.low⟩ ∧
      d.cofactorsOf w b.high = ⟨b.high, b.high⟩) ↔
      ¬ ∃ m b', (m = b.low ∨ m = b.high) ∧ d.branch? m = some b' ∧ b'.var = w := by
    rw [hl.cofactorsOf_eq_iff, hl.cofactorsOf_eq_iff]
    constructor
    · rintro ⟨hlow, hhigh⟩ ⟨m, b', rfl | rfl, hb', hvar⟩
      · exact hlow b' hb' hvar
      · exact hhigh b' hb' hvar
    · intro h
      exact ⟨fun b' hb' hvar => h ⟨_, b', Or.inl rfl, hb', hvar⟩,
        fun b' hb' hvar => h ⟨_, b', Or.inr rfl, hb', hvar⟩⟩
  simp only [rotationOf?, hb]
  constructor
  · intro h
    split at h
    · cases h
    · rename_i hnot
      rw [hidle, Classical.not_not] at hnot
      cases h
      exact ⟨rfl, hb, rfl, rfl, hnot⟩
  · rintro ⟨rfl, hrotates⟩
    have hchildren : b.toChildren = r.children := by
      have hbranch := hrotates.branch?
      rw [hb, Option.some.injEq] at hbranch
      rw [hbranch]
    rw [hchildren] at hidle ⊢
    rw [if_neg fun h => hidle.mp h hrotates.tested, ← hrotates.lowCofactors,
      ← hrotates.highCofactors]

end Diagram

namespace Store

variable {s t : Store} {held : Holding} {v w : Var} {out : NodeId → Prop}

theorem rotation?_eq (hc : s.diagram.Closed) (w : Var) (n : NodeId) :
    s.rotation? w n = .ok (s.diagram.rotationOf? w n) := by
  unfold Store.rotation? Diagram.rotationOf?
  cases hb : s.diagram.branch? n with
  | none => rfl
  | some b =>
    obtain ⟨hlow, hhigh⟩ := hc n b hb
    simp only [Diagram.cofactors_eq hlow, Diagram.cofactors_eq hhigh, bind, Except.bind]
    split <;> rfl

/-- The nodes of a subtable are the nodes that test its variable, each once. -/
theorem Sound.nodes_of_subtable (h : s.Sound NoneOut held) (hv : s.order.knows v) :
    ∃ sub, s.unique.subtable v = .ok sub ∧ sub.nodes.Nodup ∧
      ∀ n, n ∈ sub.nodes ↔ ∃ b, s.diagram.branch? n = some b ∧ b.var = v := by
  obtain ⟨sub, hsub, hget, -⟩ := h.table.exists_subtable (VarOrder.knows_iff.mp hv)
  exact ⟨sub, hsub, h.nodes_nodup hget, fun n => h.mem_nodes_iff hget⟩

/-- The plan has every node to rotate, once. -/
theorem Valid.rotations_gives (h : s.Valid held) (hv : s.order.knows v) (w : Var) :
    Gives (s.rotations v w) fun plan =>
      (plan.map Rotation.node).Nodup ∧ ∀ r, r ∈ plan ↔ s.diagram.Rotates v w r := by
  obtain ⟨sub, hsub, hnodup, hmem⟩ := h.sound.nodes_of_subtable hv
  unfold Store.rotations
  apply gives_bind_of_eq hsub
  apply gives_bind_of_eq (gives_mapM fun n _ => rotation?_eq h.closed w n)
  rw [List.filterMap_map]
  refine gives_pure ⟨?_, fun r => ?_⟩
  · rw [List.nodup_iff_pairwise_ne, List.pairwise_map, List.pairwise_filterMap]
    refine (List.nodup_iff_pairwise_ne.mp hnodup).imp fun {m n} hne r hr r' hr' => ?_
    rw [Diagram.node_of_rotationOf? hr, Diagram.node_of_rotationOf? hr']
    exact hne
  · simp only [List.mem_filterMap, hmem, Function.comp_apply, id_eq]
    constructor
    · rintro ⟨n, ⟨b, hb, rfl⟩, hr⟩
      exact ((Diagram.rotationOf?_eq_some_iff h.layered hb).mp hr).2
    · intro hr
      refine ⟨r.node, ⟨_, hr.branch?, rfl⟩, ?_⟩
      exact (Diagram.rotationOf?_eq_some_iff h.layered hr.branch?).mpr ⟨rfl, hr⟩

/-! ## Looking ahead -/

/-- The node that tests `v` and has cofactors `k`, as the table shows it. -/
def foreseen (s : Store) (v : Var) (k : Children) : Foreseen :=
  if k.low = k.high then .found k.low
  else
    match s.unique.entered? v k with
    | some n => .found n
    | none => .made k

theorem Sound.foresee_eq (h : s.Sound NoneOut held) (hv : s.order.knows v) (k : Children) :
    s.foresee v k = .ok (s.foreseen v k) := by
  unfold Store.foresee Store.foreseen
  split
  · rfl
  · rw [h.find?_eq hv]
    cases s.unique.entered? v k <;> rfl

theorem Sound.foreseen_eq_found_iff (h : s.Sound NoneOut held) {n : NodeId} {k : Children} :
    s.foreseen v k = .found n ↔ s.diagram.Unfolds v n k := by
  unfold Store.foreseen Diagram.Unfolds
  by_cases heq : k.low = k.high
  · rw [if_pos heq, Foreseen.found.injEq]
    simp [heq, eq_comm]
  · rw [if_neg heq, ← (h.entered v k n).trans (and_iff_left id)]
    cases s.unique.entered? v k with
    | none => simp [heq]
    | some m => simp [heq]

/-- What is foreseen tells the cofactors, if they do not test `v`. -/
theorem Sound.foreseen_injective (h : s.Sound NoneOut held) {k k' : Children}
    (hk : ∀ b, s.diagram.branch? k.low = some b → b.var ≠ v)
    (hk' : ∀ b, s.diagram.branch? k'.low = some b → b.var ≠ v)
    (heq : s.foreseen v k = s.foreseen v k') : k = k' := by
  cases hfound : s.foreseen v k with
  | found n =>
    exact (h.foreseen_eq_found_iff.mp hfound).unique
      (h.foreseen_eq_found_iff.mp (heq.symm.trans hfound)) hk hk'
  | made c =>
    have hmade : ∀ k, s.foreseen v k = .made c → k = c := by
      intro k hmade
      unfold Store.foreseen at hmade
      split at hmade
      · cases hmade
      · split at hmade
        · cases hmade
        · exact Foreseen.made.inj hmade
    rw [hmade k hfound, hmade k' (heq.symm.trans hfound)]

/-- A look at the table tells whether the new shape is there. -/
theorem Sound.taken_gives (h : s.Sound NoneOut held) (hw : s.order.knows w) (low high : Foreseen) :
    Gives (s.taken w low high) fun taken => taken = true ↔ ∃ m b, s.diagram.branch? m = some b ∧
      b.var = w ∧ low = .found b.low ∧ high = .found b.high := by
  unfold Store.taken
  split
  · rename_i x y
    apply gives_bind_of_eq (h.find?_eq hw ⟨x, y⟩)
    apply gives_pure
    rw [Option.isSome_iff_exists]
    constructor
    · rintro ⟨m, hm⟩
      exact ⟨m, _, ((h.entered w ⟨x, y⟩ m).mp hm).1, rfl, rfl, rfl⟩
    · rintro ⟨m, b, hb, rfl, hx, hy⟩
      cases hx
      cases hy
      exact ⟨m, (h.entered b.var b.toChildren m).mpr ⟨hb, id⟩⟩
  · rename_i hno
    refine gives_ok ⟨fun htaken => (nomatch htaken), ?_⟩
    rintro ⟨m, b, -, -, rfl, rfl⟩
    exact absurd rfl (hno _ _ rfl)

/-- The children that a rotated node will have. -/
def outlook (s : Store) (v : Var) (r : Rotation) : Foreseen × Foreseen :=
  (s.foreseen v r.newLow, s.foreseen v r.newHigh)

/-- The look ahead ends. It finds no conflict if and only if the new shapes are free and differ. -/
theorem Sound.conflict?_gives (h : s.Sound NoneOut held) (hv : s.order.knows v)
    (hw : s.order.knows w) (rs : List Rotation) (planned : List (Foreseen × Foreseen)) :
    Gives (s.conflict? v w rs planned) fun e => e = none ↔
      (rs.map (s.outlook v)).Nodup ∧ ∀ r ∈ rs, s.diagram.Fresh v w r ∧ s.outlook v r ∉ planned := by
  induction rs generalizing planned with
  | nil => exact gives_ok (by simp)
  | cons r rs ih =>
    unfold Store.conflict?
    apply gives_bind_of_eq (h.foresee_eq hv r.newLow)
    apply gives_bind_of_eq (h.foresee_eq hv r.newHigh)
    apply gives_bind (h.taken_gives hw _ _)
    intro taken htaken
    have hfresh : s.diagram.Fresh v w r ↔ ¬ taken = true := by
      rw [htaken]
      simp only [h.foreseen_eq_found_iff, Diagram.Fresh, not_exists, not_and]
    rw [List.map_cons, List.nodup_cons, List.forall_mem_cons, hfresh]
    split
    · rename_i hconflict
      refine gives_pure ⟨fun hnone => (nomatch hnone), fun ⟨_, ⟨hfree, hnew⟩, _⟩ => ?_⟩
      exact absurd hconflict (not_or.mpr ⟨hnew, hfree⟩)
    · rename_i hno
      rw [not_or] at hno
      refine gives_mono (ih _) fun e he =>
        he.trans ⟨fun ⟨hnodup, hrs⟩ => ?_, fun ⟨hnodup, _, hrs⟩ => ?_⟩
      · refine ⟨⟨fun hmem => ?_, hnodup⟩, ⟨hno.2, hno.1⟩, fun r' hr' =>
          ⟨(hrs r' hr').1, fun hmem => (hrs r' hr').2 (List.mem_cons_of_mem _ hmem)⟩⟩
        obtain ⟨r', hr', heq⟩ := List.mem_map.mp hmem
        exact (hrs r' hr').2 (heq ▸ List.mem_cons_self)
      · refine ⟨hnodup.2, fun r' hr' => ⟨(hrs r' hr').1, ?_⟩⟩
        refine List.not_mem_cons_of_ne_of_not_mem (fun heq => hnodup.1 ?_) (hrs r' hr').2
        exact List.mem_map.mpr ⟨r', hr', heq⟩

/-- A conflict is told by the children of a node to rotate. -/
theorem conflict?_names (s : Store) (v w : Var) (rs : List Rotation)
    (planned : List (Foreseen × Foreseen)) :
    IfGives (s.conflict? v w rs planned) fun conflict => ∀ e, conflict = some e →
      ∃ r ∈ rs, e = .shapeTaken w r.children.low r.children.high := by
  induction rs generalizing planned with
  | nil => exact ifGives_ok fun _ he => nomatch he
  | cons r rs ih =>
    unfold Store.conflict?
    refine .bind_of_forall fun low => .bind_of_forall fun high => .bind_of_forall fun taken => ?_
    split
    · refine ifGives_ok fun e he => ⟨r, List.mem_cons_self, ?_⟩
      exact (Option.some.inj he).symm
    · refine (ih _).mono fun conflict hnames e he => ?_
      obtain ⟨r', hr', heq⟩ := hnames e he
      exact ⟨r', List.mem_cons_of_mem r hr', heq⟩

/-! ## Withdrawing -/

/-- A node whose entry has been taken out of the table. -/
theorem Sound.withdrawn (h : s.Sound out held) {n : NodeId} {b : Branch}
    (hb : s.diagram.branch? n = some b) (hn : ¬ out n) :
    ∃ unique, s.unique.erase b.var b.toChildren = .ok (some n, unique) ∧
      ({ s with unique := unique } : Store).Sound (fun m => out m ∨ m = n) held := by
  obtain ⟨unique, hrun, hlawful, hentered⟩ := h.table.erase_entered (h.var_lt hb)
    ((h.entered b.var b.toChildren n).mpr ⟨hb, hn⟩)
  refine ⟨unique, hrun, h.size_counts, h.counted, h.uncounted, h.live_eq, h.knows, hlawful,
    fun w k m => ?_, fun m hm => ?_⟩
  · show unique.entered? w k = some m ↔ s.diagram.branch? m = some ⟨k, w⟩ ∧ _
    rw [hentered, h.entered_erase hb hn, not_or]
    constructor
    · intro hm
      exact ⟨hm.2.1, hm.2.2, hm.1⟩
    · intro hm
      exact ⟨hm.2.2, hm.1, hm.2.1⟩
  · rcases hm with hm | rfl
    · exact h.out_alive m hm
    · exact Diagram.alive_of_branch? hb

/-- The nodes of a plan leave the unique table, and nothing else happens. -/
theorem withdraw_gives {rs : List Rotation} (h : s.Sound out held)
    (hrs : ∀ r ∈ rs, s.diagram.branch? r.node = some ⟨r.children, v⟩ ∧ ¬ out r.node)
    (hnodup : (rs.map Rotation.node).Nodup) :
    Gives (withdraw v rs s) fun t =>
      t.Sound (fun n => out n ∨ n ∈ rs.map Rotation.node) held ∧ t.diagram = s.diagram ∧
        t.order = s.order ∧ t.computed = s.computed ∧ t.config = s.config ∧
        ∀ x, x ≠ v → t.unique.subtable x = s.unique.subtable x := by
  induction rs generalizing s out with
  | nil => exact gives_ok ⟨by simpa using h, rfl, rfl, rfl, rfl, fun _ _ => rfl⟩
  | cons r rs ih =>
    obtain ⟨hb, hr⟩ := hrs r List.mem_cons_self
    obtain ⟨unique, hrun, ht⟩ := h.withdrawn hb hr
    rw [List.map_cons, List.nodup_cons] at hnodup
    unfold withdraw
    apply gives_bind_of_eq hrun
    refine gives_mono (ih ht (fun r' hr' => ?_) hnodup.2) fun t hp => ?_
    · obtain ⟨hb', hr''⟩ := hrs r' (List.mem_cons_of_mem _ hr')
      refine ⟨hb', not_or.mpr ⟨hr'', fun heq => hnodup.1 ?_⟩⟩
      exact heq ▸ List.mem_map_of_mem hr'
    · obtain ⟨ht', hdiagram, horder, hcomputed, hconfig, hsub⟩ := hp
      simp only [List.map_cons, List.mem_cons, ← or_assoc]
      exact ⟨ht', hdiagram, horder, hcomputed, hconfig, fun x hx =>
        (hsub x hx).trans (UniqueTable.subtable_of_erase hrun hx)⟩

end Store

end DecisionGraph
