import DecisionGraph.Proofs.Frame

/-!
# Synthesis computes the right function

All operands of a recursion are nodes of the diagram it started with, since that diagram only grows.
So the ranks of that first diagram bound the recursion, though new nodes are made on the way. A
variable occurs in a result only if it occurs in an operand; therefore a result lies below the
variable by which they were expanded, and so do all results that the computed table gives, whatever
order they come from.

Complements come from one recursion alone, which makes no idle test and answers with no operand but
a terminal. So a complement has no idle test below it, though its operand may have, and nor has one
that the computed table gives, for nothing else makes such entries.

If-then-else makes no idle test either, but it may answer with an operand or with an entry. With no
idle test below the operands, there is none below the answer, as long as the table is clean.

* `Proper`, `iteStep_cases`, `Valid.exists_expand` — what one call of if-then-else does.
* `restrictWithin_cofactorsOf`, `ReadsOff` — the cofactors by the variable that it expands.
* `Cleanly` — what calls do to a clean table.
* `Valid.combine`, `Valid.expand_gives` — the last step of both recursions, and the expansion.
* `negateWithin_gives`, `iteWithin_gives` — the recursions.
* `Valid.ite`, `Valid.negate`, `Valid.xor` — the calls.
* `Restricts`, `restrictWithin_gives`, `Valid.restrict` — cofactors by any variable.
-/

namespace DecisionGraph

namespace Diagram

variable {d : Diagram} {o : VarOrder} {v : Var} {f g h r low high : NodeId} {f' g' h' : Children}

/-! ## Selections -/

theorem selects_same (d : Diagram) (f g : NodeId) : d.Selects f g g g where
  value _ x _ _ _ hy hz := by
    cases x
    · exact hz
    · exact hy
  occurs _ hv := Or.inr (Or.inl hv)

theorem selects_condition (d : Diagram) (f : NodeId) : d.Selects f .one .zero f where
  value _ x _ _ hx hy hz := by
    rw [value_terminal_iff] at hy hz
    subst hy hz
    cases x <;> exact hx
  occurs _ hv := Or.inl hv

theorem selects_one (d : Diagram) (g h : NodeId) : d.Selects .one g h g where
  value _ x _ _ hx hy _ := by
    rw [value_terminal_iff] at hx
    subst hx
    exact hy
  occurs _ hv := Or.inr (Or.inl hv)

theorem selects_zero (d : Diagram) (g h : NodeId) : d.Selects .zero g h h where
  value _ x _ _ hx _ hz := by
    rw [value_terminal_iff] at hx
    subst hx
    exact hz
  occurs _ hv := Or.inr (Or.inr hv)

theorem selects_terminal (d : Diagram) (value : Bool) :
    d.Selects (.terminal value) .zero .one (.terminal !value) where
  value _ x _ _ hx hy hz := by
    rw [value_terminal_iff] at hx hy hz
    subst hx hy hz
    cases x <;> exact .terminal _
  occurs _ hv := absurd hv not_occurs_terminal

theorem forall_cofactors {P : NodeId → Prop} (child : Children → NodeId)
    (hp : ∀ n ∈ [f, g, h], P (child (d.cofactorsOf v n))) :
    ∀ n ∈ [child (d.cofactorsOf v f), child (d.cofactorsOf v g), child (d.cofactorsOf v h)], P n :=
  List.forall_mem_map.mpr hp

theorem reduced_lows (hp : ∀ n ∈ [f, g, h], d.Reduced n) (v : Var) :
    ∀ n ∈ [(d.cofactorsOf v f).low, (d.cofactorsOf v g).low, (d.cofactorsOf v h).low],
      d.Reduced n :=
  forall_cofactors Children.low fun n hn => ((hp n hn).cofactorsOf v).1

theorem reduced_highs (hp : ∀ n ∈ [f, g, h], d.Reduced n) (v : Var) :
    ∀ n ∈ [(d.cofactorsOf v f).high, (d.cofactorsOf v g).high, (d.cofactorsOf v h).high],
      d.Reduced n :=
  forall_cofactors Children.high fun n hn => ((hp n hn).cofactorsOf v).2

/-- A selection from nodes below a level lies below that level. -/
theorem Selects.lt_levelIn (hs : d.Selects f g h r) (hl : d.Layered o) {l : Nat}
    (hsize : l < o.size)
    (hf : l < d.levelIn o f) (hg : l < d.levelIn o g) (hh : l < d.levelIn o h) :
    l < d.levelIn o r := by
  apply lt_levelIn_of_occurs hsize
  intro v hv
  rcases hs.occurs v hv with hv | hv | hv
  · exact Nat.lt_of_lt_of_le hf (hv.levelIn_le hl)
  · exact Nat.lt_of_lt_of_le hg (hv.levelIn_le hl)
  · exact Nat.lt_of_lt_of_le hh (hv.levelIn_le hl)

/-- Selections from the cofactors, joined by the variable. -/
theorem Selects.join (hf : d.Splits o v f f') (hg : d.Splits o v g g') (hh : d.Splits o v h h')
    (htop : d.Occurs f v ∨ d.Occurs g v ∨ d.Occurs h v)
    (hlow : d.Selects f'.low g'.low h'.low low) (hhigh : d.Selects f'.high g'.high h'.high high)
    (hr : d.Joins v low high r) : d.Selects f g h r where
  value a x y z hx hy hz := by
    rw [hf.value] at hx
    rw [hg.value] at hy
    rw [hh.value] at hz
    refine hr.of_cases (fun hav => ?_) fun hav => ?_
    · simp only [hav, Bool.false_eq_true, if_false] at hx hy hz
      exact hlow.value a x y z hx hy hz
    · simp only [hav, if_true] at hx hy hz
      exact hhigh.value a x y z hx hy hz
  occurs w hw := by
    rcases hr.occurs w hw with rfl | hw | hw
    · exact htop
    · exact (hlow.occurs w hw).imp (hf.occurs_low w) (Or.imp (hg.occurs_low w) (hh.occurs_low w))
    · exact (hhigh.occurs w hw).imp (hf.occurs_high w)
        (Or.imp (hg.occurs_high w) (hh.occurs_high w))

end Diagram

namespace Store

variable {s s₀ t : Store} {held : Holding} {v : Var} {f g h n r low high : NodeId} {k : NodeTriple}
  {rank : NodeId → Nat}

/-! ## The computed table -/

/-- A change of the computed table alone. -/
theorem Valid.setComputed (h : s.Valid held) {c : ComputedTable} (hc : c.Faithful s.diagram) :
    ({ s with computed := c } : Store).Valid held :=
  ⟨⟨h.sound.size_counts, h.sound.counted, h.sound.uncounted, h.sound.live_eq, h.sound.knows,
    h.sound.table, h.sound.entered, h.sound.out_alive⟩, h.lawful, h.layered, hc⟩

theorem Valid.remember (h : s.Valid held) (ha : ∀ n ∈ r :: k.word, s.diagram.alive n)
    (hs : s.diagram.Answers k.first k.second k.third r) : (s.remember k r).Valid held :=
  h.setComputed (h.faithful.insert ha hs)

/-- A question to the computed table about live operands: a result that it gives is right. -/
theorem Valid.consult (h : s.Valid held) (ha : ∀ n ∈ k.word, s.diagram.alive n) :
    ∃ result t, s.consult k = (result, t) ∧ t.Valid held ∧ s.Twin t ∧
      ∀ r, result = some r → s.Made held r t ∧ t.diagram.Answers k.first k.second k.third r := by
  have ht := h.setComputed (h.faithful.lookup k s.diagram.alive)
  have htwin := s.twin_setComputed (s.computed.lookup k s.diagram.alive).2
  refine ⟨_, _, rfl, ht, htwin, fun r hr => ?_⟩
  obtain ⟨hentry, halive⟩ := ComputedTable.of_lookup hr
  refine ⟨Built.made ⟨ht, htwin.grew, halive⟩ rfl,
    h.faithful.answers k r hentry fun n hn => ?_⟩
  rcases List.mem_cons.mp hn with rfl | hn
  · exact halive
  · exact ha n hn

/-- An entry with a live result answers the question for its operands. -/
theorem consult_of_entry (hentry : s.computed.results[k]? = some r) (hr : s.diagram.alive r) :
    ∃ t, s.Twin t ∧ s.consult k = (some r, t) := by
  refine ⟨_, s.twin_setComputed { s.computed with hits := s.computed.hits + 1 }, ?_⟩
  simp only [Store.consult, ComputedTable.lookup, hentry, hr, if_true]

/-- The step from `s` to `t` keeps the computed table clean. If there is no idle test below the
operands, which is what `pure` says, there is none below its result `r`. -/
def Cleanly (s : Store) (pure : Prop) (r : NodeId) (t : Store) : Prop :=
  ∀ all : Prop, (all → pure) → s.computed.Clean s.diagram all →
    t.computed.Clean t.diagram all ∧ (pure → t.diagram.Reduced r)

/-- An operand that is the result. -/
theorem cleanly_operand {pure : Prop} (hr : pure → s.diagram.Reduced r) : s.Cleanly pure r s :=
  fun _ _ hclean => ⟨hclean, hr⟩

theorem consult_clean {result : Option NodeId} {all : Prop} (hconsult : s.consult k = (result, t))
    (h : s.computed.Clean s.diagram all) : t.computed.Clean t.diagram all := by
  cases hconsult
  exact h.within (s.computed.lookup_within k s.diagram.alive)

/-- An entry of the computed table that is the result. -/
theorem cleanly_known {pure : Prop} (hconsult : s.consult k = (some r, t))
    (ha : ∀ n ∈ k.word, s.diagram.alive n) (hpure : pure → ∀ n ∈ k.word, s.diagram.Reduced n) :
    s.Cleanly pure r t := by
  refine fun all _ hclean => ⟨consult_clean hconsult hclean, fun hp => ?_⟩
  simp only [Store.consult, Prod.mk.injEq] at hconsult
  obtain ⟨hresult, rfl⟩ := hconsult
  obtain ⟨hentry, halive⟩ := ComputedTable.of_lookup hresult
  refine hclean k r hentry (fun n hn => ?_) (Or.inr (hpure hp))
  rcases List.mem_cons.mp hn with rfl | hn
  · exact halive
  · exact ha n hn

/-! ## The variable to expand -/

/-- `v` is the top variable of three nodes: none of them lies above it, and one of them tests it. -/
structure Leads (s : Store) (v : Var) (f g h : NodeId) : Prop where
  knows : s.order.knows v
  le : ∀ n ∈ [f, g, h], s.order.levelOf v ≤ s.diagram.levelIn s.order n
  tested : ∃ n ∈ [f, g, h], ∃ b, s.diagram.branch? n = some b ∧ b.var = v

theorem Leads.grew (hl : s.Leads v f g h) (hs : s.Grew t)
    (ha : ∀ n ∈ [f, g, h], s.diagram.alive n) : t.Leads v f g h where
  knows := hs.order ▸ hl.knows
  le n hn := by
    rw [hs.levelIn_eq (ha n hn), hs.order]
    exact hl.le n hn
  tested := by
    obtain ⟨n, hn, b, hb, hv⟩ := hl.tested
    exact ⟨n, hn, b, hs.branch? hb, hv⟩

theorem Leads.occurs (hl : s.Leads v f g h) :
    s.diagram.Occurs f v ∨ s.diagram.Occurs g v ∨ s.diagram.Occurs h v := by
  obtain ⟨n, hn, b, hb, rfl⟩ := hl.tested
  have hoccurs : s.diagram.Occurs n b.var := .here hb
  simp only [List.mem_cons, List.not_mem_nil, or_false] at hn
  rcases hn with rfl | rfl | rfl
  · exact Or.inl hoccurs
  · exact Or.inr (Or.inl hoccurs)
  · exact Or.inr (Or.inr hoccurs)

/-- Each operand splits on the top variable. -/
theorem Leads.splits (hl : s.Leads v f g h) (h' : s.Valid held)
    (ha : ∀ n ∈ [f, g, h], s.diagram.alive n) :
    ∀ n ∈ [f, g, h], s.diagram.Splits s.order v n (s.diagram.cofactorsOf v n) :=
  fun n hn => h'.splits hl.knows (ha n hn) (hl.le n hn)

/-- The cofactors by the top variable are live nodes below it. -/
theorem Leads.lows (hl : s.Leads v f g h) (h' : s.Valid held)
    (ha : ∀ n ∈ [f, g, h], s.diagram.alive n) :
    ∀ n ∈ [(s.diagram.cofactorsOf v f).low, (s.diagram.cofactorsOf v g).low,
      (s.diagram.cofactorsOf v h).low],
      s.diagram.alive n ∧ s.order.levelOf v < s.diagram.levelIn s.order n :=
  Diagram.forall_cofactors Children.low fun n hn =>
    ⟨(hl.splits h' ha n hn).alive_low, (hl.splits h' ha n hn).lt_low⟩

theorem Leads.highs (hl : s.Leads v f g h) (h' : s.Valid held)
    (ha : ∀ n ∈ [f, g, h], s.diagram.alive n) :
    ∀ n ∈ [(s.diagram.cofactorsOf v f).high, (s.diagram.cofactorsOf v g).high,
      (s.diagram.cofactorsOf v h).high],
      s.diagram.alive n ∧ s.order.levelOf v < s.diagram.levelIn s.order n :=
  Diagram.forall_cofactors Children.high fun n hn =>
    ⟨(hl.splits h' ha n hn).alive_high, (hl.splits h' ha n hn).lt_high⟩

/-- What lies below the top variable has a smaller rank than one of the three. -/
theorem Leads.rank_lt (hl : s.Leads v f g h) (hr : s.diagram.Ranks s.order rank) {k : Nat}
    (hk : ∀ n ∈ [f, g, h], rank n < k) {m : NodeId}
    (hm : s.order.levelOf v < s.diagram.levelIn s.order m) : rank m + 1 < k := by
  obtain ⟨n, hn, b, hb, rfl⟩ := hl.tested
  rw [← Diagram.levelIn_of_branch? hb] at hm
  have hranks := hr n b m hb hm
  have hn := hk n hn
  omega

/-- Three live nodes that are not all terminals have a top variable, on the smallest of their
levels. -/
theorem Valid.exists_leads (h' : s.Valid held) {top : Nat}
    (htop : top = min (min (s.diagram.levelIn s.order f) (s.diagram.levelIn s.order g))
      (s.diagram.levelIn s.order h))
    (hlt : top < s.order.size) : ∃ v, s.order.varAt? top = some v ∧ s.Leads v f g h := by
  obtain ⟨v, hv⟩ := VarOrder.varAt?_isSome hlt
  have hlevel := h'.lawful.levelOf_of_varAt? hv
  have hmem : ∃ n ∈ [f, g, h], s.diagram.levelIn s.order n = top := by
    rw [htop]
    simp only [List.mem_cons, List.not_mem_nil, or_false, exists_eq_or_imp, exists_eq_left]
    omega
  refine ⟨v, hv, h'.lawful.knows_of_varAt? hv, fun n hn => ?_, ?_⟩
  · apply Nat.le_trans (Nat.le_of_eq hlevel)
    simp only [List.mem_cons, List.not_mem_nil, or_false] at hn
    rcases hn with rfl | rfl | rfl <;> omega
  · obtain ⟨n, hn, hln⟩ := hmem
    obtain ⟨b, hb⟩ := Diagram.exists_branch_of_levelIn_lt (hln.symm ▸ hlt)
    exact ⟨n, hn, b, hb, h'.sound.knows.var_eq h'.lawful hb (hln.trans hlevel.symm)⟩

/-- The last step of both recursions: selections from the cofactors are joined by the variable, and
the result is noted. For a complement, the two that are joined have no idle test below them. -/
theorem Valid.combine (h' : s.Valid held) (hl : s.Leads v f g h)
    (ha : ∀ n ∈ [f, g, h], s.diagram.alive n) (hlow : s.diagram.alive low)
    (hhigh : s.diagram.alive high)
    (hslow : s.diagram.Selects (s.diagram.cofactorsOf v f).low (s.diagram.cofactorsOf v g).low
      (s.diagram.cofactorsOf v h).low low)
    (hshigh : s.diagram.Selects (s.diagram.cofactorsOf v f).high (s.diagram.cofactorsOf v g).high
      (s.diagram.cofactorsOf v h).high high)
    (hreduced : g = .zero → h = .one → s.diagram.Reduced low ∧ s.diagram.Reduced high) :
    Gives (s.consReduced v low high) fun p =>
      s.Made held p.1 (p.2.remember ⟨f, g, h⟩ p.1) ∧ p.2.diagram.Answers f g h p.1 ∧
        p.2.diagram.Unfolds v p.1 ⟨low, high⟩ ∧ p.2.computed = s.computed := by
  have hsplits := hl.splits h' ha
  have hf := hsplits f (by simp)
  have hg := hsplits g (by simp)
  have hh := hsplits h (by simp)
  have hsize := h'.lawful.levelOf_lt hl.knows
  have hcons := h'.consReduced hl.knows hlow hhigh
    (hslow.lt_levelIn h'.layered hsize hf.lt_low hg.lt_low hh.lt_low)
    (hshigh.lt_levelIn h'.layered hsize hf.lt_high hg.lt_high hh.lt_high)
  refine gives_mono (hcons.and (consReduced_computed rfl v low high))
    fun ⟨r, t⟩ ⟨⟨hbuilt, hunfolds⟩, hcomputed⟩ => ?_
  -- the cofactors are the same in the diagram that the new node is in
  have hsub := hbuilt.grew.grows.subset
  have hl' := hl.grew hbuilt.grew ha
  have hsplits' : ∀ n ∈ [f, g, h], t.diagram.Splits t.order v n (s.diagram.cofactorsOf v n) := by
    intro n hn
    rw [← hsub.cofactorsOf_eq (ha n hn)]
    exact hl'.splits hbuilt.valid (fun m hm => hsub.alive (ha m hm)) n hn
  have hselects : t.diagram.Selects f g h r := by
    refine Diagram.Selects.join (hsplits' f (by simp)) (hsplits' g (by simp))
      (hsplits' h (by simp)) hl'.occurs ?_ ?_ hunfolds.joins
    · apply hslow.grows hbuilt.grew.grows h'.closed
      simpa using ⟨hlow, hf.alive_low, hg.alive_low, hh.alive_low⟩
    · apply hshigh.grows hbuilt.grew.grows h'.closed
      simpa using ⟨hhigh, hf.alive_high, hg.alive_high, hh.alive_high⟩
  have hanswers : t.diagram.Answers f g h r := by
    refine ⟨hselects, fun hgz hho => ?_⟩
    obtain ⟨hrlow, hrhigh⟩ := hreduced hgz hho
    exact hunfolds.reduced (hrlow.extends hsub h'.closed hlow)
      (hrhigh.extends hsub h'.closed hhigh)
  have hremember : (t.remember ⟨f, g, h⟩ r).Valid held := by
    refine hbuilt.valid.remember (fun n hn => ?_) hanswers
    rcases List.mem_cons.mp hn with rfl | hn
    · exact hbuilt.alive
    · exact hsub.alive (ha n hn)
  exact ⟨⟨⟨hremember, hbuilt.grew.trans (t.twin_setComputed _).grew, hbuilt.alive⟩,
    hbuilt.adds⟩, hanswers, hunfolds, hcomputed⟩

/-- What the last step does to a clean table. -/
theorem Valid.remember_clean (h' : s.Valid held) (ht : s.Grew (t.remember k r))
    (hcomputed : t.computed = s.computed)
    (hunfolds : t.diagram.Unfolds v r ⟨low, high⟩) (hlow : s.diagram.alive low)
    (hhigh : s.diagram.alive high) {all : Prop} (hclean : s.computed.Clean s.diagram all)
    (hr : (all ∨ ∀ n ∈ k.word, t.diagram.Reduced n) →
      s.diagram.Reduced low ∧ s.diagram.Reduced high) :
    (t.remember k r).computed.Clean t.diagram all := by
  have hsub := ht.grows.subset
  refine ComputedTable.Clean.insert (hcomputed ▸ hclean.evolves h'.faithful
    (ht.grows.evolves h'.closed) (Or.inr fun n _ _ => hsub.reduced)) fun hoperands => ?_
  obtain ⟨hrlow, hrhigh⟩ := hr hoperands
  exact hunfolds.reduced (hrlow.extends hsub h'.closed hlow) (hrhigh.extends hsub h'.closed hhigh)

/-! ## The steps of the recursions -/

/-- Three operands for which no identity tells the result. -/
structure Proper (f g h : NodeId) : Prop where
  condition : ¬ (g = .one ∧ h = .zero)
  complement : ¬ (g = .zero ∧ h = .one)
  one : f ≠ .one
  zero : f ≠ .zero
  same : g ≠ h

/-- The calls for the cofactors by `v`, and the joining of what they give. -/
def expand (call : NodeId → NodeId → NodeId → Store → Except Fault (NodeId × Store)) (v : Var)
    (key : NodeTriple) (f' g' h' : Children) (s : Store) : Except Fault (NodeId × Store) := do
  let (high, s) ← call f'.high g'.high h'.high s
  let (low, s) ← call f'.low g'.low h'.low s
  let (r, s) ← s.consReduced v low high
  return (r, s.remember key r)

/-- The expansion by the variable on the smallest level of three operands. -/
def expandTop (cofactors : Store → Var → NodeId → Except Fault (Children × Store))
    (call : NodeId → NodeId → NodeId → Store → Except Fault (NodeId × Store)) (f g h : NodeId)
    (s : Store) : Except Fault (NodeId × Store) := do
  let top := min (min (← s.levelOf f) (← s.levelOf g)) (← s.levelOf h)
  let v ← s.varAt top
  let (f', s) ← cofactors s v f
  let (g', s) ← cofactors s v g
  let (h', s) ← cofactors s v h
  expand call v ⟨f, g, h⟩ f' g' h' s

/-- What a call of if-then-else does, with `cofactors`, `negate` and `call` for the calls inside. -/
def iteStep (cofactors : Store → Var → NodeId → Except Fault (Children × Store))
    (negate : NodeId → Store → Except Fault (NodeId × Store))
    (call : NodeId → NodeId → NodeId → Store → Except Fault (NodeId × Store)) (f g h : NodeId)
    (s : Store) : Except Fault (NodeId × Store) :=
  if g = .one ∧ h = .zero then .ok (f, s)
  else if g = .zero ∧ h = .one then negate f s
  else if f = .one then .ok (g, s)
  else if f = .zero then .ok (h, s)
  else if g = h then .ok (g, s)
  else
    match s.consult ⟨f, g, h⟩ with
    | (some r, s) => .ok (r, s)
    | (none, s) => expandTop cofactors call f g h s

theorem iteWithin_succ (k : Nat) (f g h : NodeId) (s : Store) :
    iteWithin (k + 1) f g h s = iteStep cofactors (negateWithin k) (iteWithin k) f g h s := rfl

/-- If-then-else is one of the operands, or the complement, or its operands are proper. -/
theorem iteStep_cases (f g h : NodeId) :
    (∃ r ∈ [f, g, h], (∀ d : Diagram, d.Selects f g h r) ∧
      ∀ cofactors negate call s, iteStep cofactors negate call f g h s = .ok (r, s)) ∨
    ((g = .zero ∧ h = .one) ∧
      ∀ cofactors negate call s, iteStep cofactors negate call f g h s = negate f s) ∨
    Proper f g h := by
  by_cases hcondition : g = .one ∧ h = .zero
  · obtain ⟨rfl, rfl⟩ := hcondition
    exact Or.inl ⟨f, by simp, fun d => d.selects_condition f, fun _ _ _ s => by simp [iteStep]⟩
  by_cases hcomplement : g = .zero ∧ h = .one
  · obtain ⟨rfl, rfl⟩ := hcomplement
    exact Or.inr (Or.inl ⟨⟨rfl, rfl⟩, fun _ _ _ s => by simp [iteStep]⟩)
  by_cases hone : f = .one
  · subst hone
    refine Or.inl ⟨g, by simp, fun d => d.selects_one g h, fun _ _ _ s => ?_⟩
    rw [iteStep, if_neg hcondition, if_neg hcomplement, if_pos rfl]
  by_cases hzero : f = .zero
  · subst hzero
    refine Or.inl ⟨h, by simp, fun d => d.selects_zero g h, fun _ _ _ s => ?_⟩
    rw [iteStep, if_neg hcondition, if_neg hcomplement, if_neg hone, if_pos rfl]
  by_cases hsame : g = h
  · subst hsame
    refine Or.inl ⟨g, by simp, fun d => d.selects_same f g, fun _ _ _ s => ?_⟩
    rw [iteStep, if_neg hcondition, if_neg hcomplement, if_neg hone, if_neg hzero, if_pos rfl]
  exact Or.inr (Or.inr ⟨hcondition, hcomplement, hone, hzero, hsame⟩)

theorem iteWithin_cases (k : Nat) (f g h : NodeId) :
    (∃ r ∈ [f, g, h], (∀ d : Diagram, d.Selects f g h r) ∧
      ∀ s, iteWithin (k + 1) f g h s = .ok (r, s)) ∨
    ((g = .zero ∧ h = .one) ∧ ∀ s, iteWithin (k + 1) f g h s = negateWithin k f s) ∨
    Proper f g h :=
  (iteStep_cases f g h).imp
    (fun ⟨r, hr, hselects, hstep⟩ => ⟨r, hr, hselects, fun s => hstep _ _ _ s⟩)
    (Or.imp_left fun ⟨heq, hstep⟩ => ⟨heq, fun s => hstep _ _ _ s⟩)

theorem Proper.exists_branch (hp : Proper f g h) {d : Diagram} (hf : d.alive f) :
    ∃ b, d.branch? f = some b := by
  cases f with
  | terminal value =>
    cases value
    · exact absurd rfl hp.zero
    · exact absurd rfl hp.one
  | inner i => exact Diagram.exists_branch hf

/-- The cofactor by a variable on the level of a node or above takes a single call. -/
theorem restrictWithin_cofactorsOf (ho : s.order.Lawful) (hv : s.order.knows v)
    (hn : s.diagram.alive n) (hle : s.order.levelOf v ≤ s.diagram.levelIn s.order n)
    (value : Bool) (known : NodeMap NodeId) (k : Nat) :
    restrictWithin v value (k + 1) n known s =
      .ok (if value then (s.diagram.cofactorsOf v n).high else (s.diagram.cofactorsOf v n).low,
        known, s) := by
  cases n with
  | terminal b => cases value <;> rfl
  | inner i =>
    obtain ⟨b, hb⟩ := Diagram.exists_branch hn
    unfold restrictWithin
    simp only [Diagram.branch_eq_ok_iff.mpr hb, bind, Except.bind, pure, Except.pure]
    by_cases hvar : b.var = v
    · rw [if_pos hvar, ← hvar, Diagram.cofactorsOf_of_var hb]
    · have hne : s.order.levelOf v ≠ s.order.levelOf b.var := fun heq =>
        hvar (ho.levelOf_injective hv heq).symm
      rw [Diagram.levelIn_of_branch? hb] at hle
      have hself : s.diagram.cofactorsOf v (.inner i) = ⟨.inner i, .inner i⟩ := by
        simp only [Diagram.cofactorsOf, hb, if_neg hvar]
      rw [if_neg hvar, if_pos (Nat.lt_of_le_of_ne hle hne), hself, ite_self]

/-- The cofactors of a live node by a variable on its level or above are read off the node, and
nothing changes. -/
def ReadsOff (cofactors : Store → Var → NodeId → Except Fault (Children × Store)) : Prop :=
  ∀ ⦃s : Store⦄ ⦃v : Var⦄ ⦃n : NodeId⦄, s.order.Lawful → s.order.knows v → s.diagram.alive n →
    s.order.levelOf v ≤ s.diagram.levelIn s.order n →
      cofactors s v n = .ok (s.diagram.cofactorsOf v n, s)

/-- One call for each of the two is enough to read them off. -/
theorem readsOff_cofactorsWithin (k : Nat) : ReadsOff (cofactorsWithin (k + 1)) := by
  intro s v n ho hv hn hle
  rw [cofactorsWithin, restrictWithin_cofactorsOf ho hv hn hle]
  simp only [bind, Except.bind, restrictWithin_cofactorsOf ho hv hn hle]
  rfl

theorem readsOff_cofactors : ReadsOff cofactors :=
  fun s _ _ => @readsOff_cofactorsWithin s.diagram.slots.size s _ _

/-- What the computed table knows. -/
theorem Proper.iteStep_hit (hp : Proper f g h) (hconsult : s.consult ⟨f, g, h⟩ = (some r, t))
    (cofactors : Store → Var → NodeId → Except Fault (Children × Store))
    (negate : NodeId → Store → Except Fault (NodeId × Store))
    (call : NodeId → NodeId → NodeId → Store → Except Fault (NodeId × Store)) :
    iteStep cofactors negate call f g h s = .ok (r, t) := by
  rw [iteStep, if_neg hp.condition, if_neg hp.complement, if_neg hp.one, if_neg hp.zero,
    if_neg hp.same, hconsult]

/-- What it does not know. -/
theorem Proper.iteStep_miss (hp : Proper f g h) (hconsult : s.consult ⟨f, g, h⟩ = (none, t))
    (cofactors : Store → Var → NodeId → Except Fault (Children × Store))
    (negate : NodeId → Store → Except Fault (NodeId × Store))
    (call : NodeId → NodeId → NodeId → Store → Except Fault (NodeId × Store)) :
    iteStep cofactors negate call f g h s = expandTop cofactors call f g h t := by
  rw [iteStep, if_neg hp.condition, if_neg hp.complement, if_neg hp.one, if_neg hp.zero,
    if_neg hp.same, hconsult]

theorem Proper.iteWithin_hit (hp : Proper f g h) (k : Nat)
    (hconsult : s.consult ⟨f, g, h⟩ = (some r, t)) : iteWithin (k + 1) f g h s = .ok (r, t) :=
  hp.iteStep_hit hconsult _ _ _

theorem Proper.ite_hit (hp : Proper f g h) (hconsult : s.consult ⟨f, g, h⟩ = (some r, t)) :
    s.ite f g h = .ok (r, t) :=
  hp.iteWithin_hit (3 * s.diagram.slots.size + 2) hconsult

/-- What the computed table does not know is found by expansion. The variable and the cofactors are
those in any store `s₀` that has the operands and has grown to this one. -/
theorem Valid.exists_expand (h₀ : s₀.Valid held) (hp : Proper f g h)
    (ha : ∀ n ∈ [f, g, h], s₀.diagram.alive n) :
    ∃ v, s₀.Leads v f g h ∧ ∀ cofactors, ReadsOff cofactors → ∀ negate call s t, s₀.Grew t →
      s.consult ⟨f, g, h⟩ = (none, t) →
        iteStep cofactors negate call f g h s = expand call v ⟨f, g, h⟩ (s₀.diagram.cofactorsOf v f)
          (s₀.diagram.cofactorsOf v g) (s₀.diagram.cofactorsOf v h) t := by
  obtain ⟨b, hb⟩ := hp.exists_branch (ha f (by simp))
  have hlt := h₀.sound.knows.levelIn_lt h₀.lawful hb
  obtain ⟨v, htop, hleads⟩ := h₀.exists_leads (f := f) (g := g) (h := h) rfl (by omega)
  refine ⟨v, hleads, fun cofactors hreads negate call s t ht hconsult => ?_⟩
  have hlevel : ∀ n ∈ [f, g, h], t.levelOf n = .ok (s₀.diagram.levelIn s₀.order n) := by
    intro n hn
    rw [levelOf_eq (ht.alive (ha n hn)), ht.levelIn_eq (ha n hn)]
  have hcofactors : ∀ n ∈ [f, g, h],
      cofactors t v n = .ok (s₀.diagram.cofactorsOf v n, t) := by
    intro n hn
    have hleads' := hleads.grew ht ha
    rw [hreads (ht.order ▸ h₀.lawful) hleads'.knows (ht.alive (ha n hn)) (hleads'.le n hn),
      ht.grows.subset.cofactorsOf_eq (ha n hn)]
  have hvar : t.varAt (min (min (s₀.diagram.levelIn s₀.order f) (s₀.diagram.levelIn s₀.order g))
      (s₀.diagram.levelIn s₀.order h)) = .ok v := varAt_eq (by rw [ht.order]; exact htop)
  rw [hp.iteStep_miss hconsult, expandTop]
  simp only [hlevel f (by simp), hlevel g (by simp), hlevel h (by simp), hvar,
    hcofactors f (by simp), hcofactors g (by simp), hcofactors h (by simp), bind, Except.bind]

/-- What a call of the complement does, with `call` for the calls inside. -/
def negateStep (call : NodeId → Store → Except Fault (NodeId × Store)) :
    NodeId → Store → Except Fault (NodeId × Store)
  | .terminal b, s => .ok (.terminal !b, s)
  | .inner i, s =>
    let key : NodeTriple := ⟨.inner i, .zero, .one⟩
    match s.consult key with
    | (some r, s) => .ok (r, s)
    | (none, s) => do
      let b ← s.diagram.branch (.inner i)
      let (low, s) ← call b.low s
      let (high, s) ← call b.high s
      let (r, s) ← s.consReduced b.var low high
      return (r, s.remember key r)

theorem negateWithin_succ (k : Nat) (n : NodeId) (s : Store) :
    negateWithin (k + 1) n s = negateStep (negateWithin k) n s := by
  cases n <;> rfl

/-- The complements of the children, and the joining of them. -/
def complement (call : NodeId → Store → Except Fault (NodeId × Store)) (n : NodeId) (b : Branch)
    (s : Store) : Except Fault (NodeId × Store) := do
  let (low, s) ← call b.low s
  let (high, s) ← call b.high s
  let (r, s) ← s.consReduced b.var low high
  return (r, s.remember ⟨n, .zero, .one⟩ r)

theorem negateStep_hit {i : Nat} (hconsult : s.consult ⟨.inner i, .zero, .one⟩ = (some r, t))
    (call : NodeId → Store → Except Fault (NodeId × Store)) :
    negateStep call (.inner i) s = .ok (r, t) := by
  simp only [negateStep, hconsult]

theorem negateStep_miss {i : Nat} {b : Branch}
    (hconsult : s.consult ⟨.inner i, .zero, .one⟩ = (none, t))
    (hb : t.diagram.branch? (.inner i) = some b)
    (call : NodeId → Store → Except Fault (NodeId × Store)) :
    negateStep call (.inner i) s = complement call (.inner i) b t := by
  simp only [negateStep, hconsult, Diagram.branch_eq_ok_iff.mpr hb]
  rfl

theorem negateWithin_hit {i : Nat} (k : Nat)
    (hconsult : s.consult ⟨.inner i, .zero, .one⟩ = (some r, t)) :
    negateWithin (k + 1) (.inner i) s = .ok (r, t) := negateStep_hit hconsult _

theorem negateWithin_miss {i : Nat} {b : Branch} (k : Nat)
    (hconsult : s.consult ⟨.inner i, .zero, .one⟩ = (none, t))
    (hb : t.diagram.branch? (.inner i) = some b) :
    negateWithin (k + 1) (.inner i) s = complement (negateWithin k) (.inner i) b t :=
  negateStep_miss hconsult hb _

/-! ## The recursions -/

/-- The complement, computed in a store that has grown from `s₀`. -/
theorem negateWithin_gives (hr : s₀.diagram.Ranks s₀.order rank) (h₀ : s₀.Valid held) {k : Nat}
    (h : s.Valid held) (hs : s₀.Grew s) (hf : s₀.diagram.alive f) (hk : rank f < k) :
    Gives (negateWithin k f s) fun p =>
      s.Made held p.1 p.2 ∧ p.2.diagram.Answers f .zero .one p.1 ∧
        ∀ all : Prop, s.computed.Clean s.diagram all → p.2.computed.Clean p.2.diagram all := by
  induction k generalizing f s with
  | zero => omega
  | succ k ih =>
    cases f with
    | terminal value =>
      exact gives_ok ⟨h.made rfl, ⟨Diagram.selects_terminal _ _,
        fun _ _ => Diagram.reduced_terminal _ _⟩, fun _ hclean => hclean⟩
    | inner i =>
      obtain ⟨result, s₁, hconsult, h₁, htwin₁, hfound⟩ :=
        h.consult (k := ⟨.inner i, .zero, .one⟩) (by simpa [NodeTriple.word] using hs.alive hf)
      cases result with
      | some r =>
        obtain ⟨hmade, hanswers⟩ := hfound r rfl
        exact gives_of_eq (negateWithin_hit k hconsult)
          ⟨hmade, hanswers, fun _ => consult_clean hconsult⟩
      | none =>
        obtain ⟨b, hb⟩ := Diagram.exists_branch hf
        obtain ⟨hlow, hhigh⟩ := h₀.closed _ b hb
        obtain ⟨hranklow, hrankhigh⟩ := hr.children h₀.layered hb
        have hs₁ := hs.trans htwin₁.grew
        rw [negateWithin_miss k hconsult (hs₁.branch? hb)]
        apply gives_bind (ih h₁ hs₁ hlow (by omega))
        rintro ⟨low, s₂⟩ ⟨hmade₂, hanswers₂, hclean₂⟩
        have hs₂ := hs₁.trans hmade₂.grew
        apply gives_bind (ih hmade₂.valid hs₂ hhigh (by omega))
        rintro ⟨high, s₃⟩ ⟨hmade₃, hanswers₃, hclean₃⟩
        have hs₃ := hs₂.trans hmade₃.grew
        have hb₃ := hs₃.branch? hb
        have hlow₃ : s₃.diagram.Answers b.low .zero .one low :=
          hanswers₂.grows hmade₃.grew.grows hmade₂.valid.closed
            (by simpa using ⟨hmade₂.alive, hs₂.alive hlow⟩)
        have hleads : s₃.Leads b.var (.inner i) .zero .one := by
          refine ⟨hmade₃.valid.sound.knows _ b hb₃, fun n hn => ?_, _, by simp, b, hb₃, rfl⟩
          simp only [List.mem_cons, List.not_mem_nil, or_false] at hn
          rcases hn with rfl | rfl | rfl
          · exact Nat.le_of_eq (Diagram.levelIn_of_branch? hb₃).symm
          · exact hmade₃.valid.lawful.levelOf_le b.var
          · exact hmade₃.valid.lawful.levelOf_le b.var
        have hlow₃' := hmade₃.grew.alive hmade₂.alive
        have hreduced := And.intro (hlow₃.reduced rfl rfl) (hanswers₃.reduced rfl rfl)
        refine gives_bind (hmade₃.valid.combine hleads (by simpa using hs₃.alive hf) hlow₃'
          hmade₃.alive ?_ ?_ fun _ _ => hreduced) ?_
        · rw [Diagram.cofactorsOf_of_var hb₃]
          exact hlow₃.toSelects
        · rw [Diagram.cofactorsOf_of_var hb₃]
          exact hanswers₃.toSelects
        · rintro ⟨r, s₄⟩ ⟨hmade₄, hanswers₄, hunfolds, hcomputed⟩
          refine gives_pure ⟨htwin₁.made
            (hmade₂.trans (hmade₃.trans hmade₄ hunfolds.below.2) hunfolds.below.1), hanswers₄,
            fun all hclean => ?_⟩
          have hclean₁ := hclean₃ all (hclean₂ all (consult_clean hconsult hclean))
          exact hmade₃.valid.remember_clean hmade₄.grew hcomputed hunfolds hlow₃' hmade₃.alive
            hclean₁ fun _ => hreduced

/-- The calls for the cofactors by the top variable, and the joining of what they give. What is
called is right in every store that has grown from `s₀`, for live nodes below the variable.
Complements are not expanded. -/
theorem Valid.expand_gives (h₀ : s₀.Valid held) (hl : s₀.Leads v f g h)
    (hne : ¬ (g = .zero ∧ h = .one))
    (ha : ∀ n ∈ [f, g, h], s₀.diagram.alive n) (h' : s.Valid held) (hs : s₀.Grew s)
    {call : NodeId → NodeId → NodeId → Store → Except Fault (NodeId × Store)}
    (hcall : ∀ (x y z : NodeId) (t : Store), t.Valid held → s₀.Grew t →
      (∀ n ∈ [x, y, z], s₀.diagram.alive n) →
      (∀ n ∈ [x, y, z], s₀.order.levelOf v < s₀.diagram.levelIn s₀.order n) →
      Gives (call x y z t) fun p => t.Made held p.1 p.2 ∧ p.2.diagram.Selects x y z p.1 ∧
        t.Cleanly (∀ n ∈ [x, y, z], s₀.diagram.Reduced n) p.1 p.2) :
    Gives (expand call v ⟨f, g, h⟩ (s₀.diagram.cofactorsOf v f) (s₀.diagram.cofactorsOf v g)
      (s₀.diagram.cofactorsOf v h) s) fun p =>
      s.Made held p.1 p.2 ∧ p.2.diagram.Selects f g h p.1 ∧
        s.Cleanly (∀ n ∈ [f, g, h], s₀.diagram.Reduced n) p.1 p.2 := by
  have hlows := hl.lows h₀ ha
  have hhighs := hl.highs h₀ ha
  refine gives_bind
    (hcall _ _ _ s h' hs (fun n hn => (hhighs n hn).1) fun n hn => (hhighs n hn).2)
    fun ⟨high, s₁⟩ ⟨hmade₁, hselects₁, hcleanly₁⟩ => ?_
  have hs₁ := hs.trans hmade₁.grew
  refine gives_bind
    (hcall _ _ _ s₁ hmade₁.valid hs₁ (fun n hn => (hlows n hn).1) fun n hn => (hlows n hn).2)
    fun ⟨low, s₂⟩ ⟨hmade₂, hselects₂, hcleanly₂⟩ => ?_
  have hs₂ := hs₁.trans hmade₂.grew
  have hhigh₂ := hselects₁.grows hmade₂.grew.grows hmade₁.valid.closed
    (List.forall_mem_cons.mpr ⟨hmade₁.alive, fun n hn => hs₁.alive (hhighs n hn).1⟩)
  -- the cofactors are still those in `s₀`
  have hsame : ∀ n ∈ [f, g, h], s₂.diagram.cofactorsOf v n = s₀.diagram.cofactorsOf v n :=
    fun n hn => hs₂.grows.subset.cofactorsOf_eq (ha n hn)
  have hhigh₂' := hmade₂.grew.alive hmade₁.alive
  refine gives_bind (hmade₂.valid.combine (hl.grew hs₂ ha) (fun m hm => hs₂.alive (ha m hm))
    hmade₂.alive hhigh₂' ?_ ?_ fun hg hh => absurd ⟨hg, hh⟩ hne)
    fun ⟨r, s₃⟩ ⟨hmade₃, hanswers₃, hunfolds, hcomputed⟩ => ?_
  · rw [hsame f (by simp), hsame g (by simp), hsame h (by simp)]
    exact hselects₂
  · rw [hsame f (by simp), hsame g (by simp), hsame h (by simp)]
    exact hhigh₂
  refine gives_pure ⟨hmade₁.trans (hmade₂.trans hmade₃ hunfolds.below.1) hunfolds.below.2,
    hanswers₃.toSelects, fun all hall hclean => ?_⟩
  obtain ⟨hclean₁, hr₁⟩ := hcleanly₁ all (fun hp => Diagram.reduced_highs (hall hp) v) hclean
  obtain ⟨hclean₂, hr₂⟩ := hcleanly₂ all (fun hp => Diagram.reduced_lows (hall hp) v) hclean₁
  have hreduced : (∀ n ∈ [f, g, h], s₀.diagram.Reduced n) →
      s₂.diagram.Reduced low ∧ s₂.diagram.Reduced high := fun hp =>
    ⟨hr₂ (Diagram.reduced_lows hp v), (hr₁ (Diagram.reduced_highs hp v)).extends
      hmade₂.grew.grows.subset hmade₁.valid.closed hmade₁.alive⟩
  have hsub := hmade₃.grew.grows.subset
  refine ⟨hmade₂.valid.remember_clean hmade₃.grew hcomputed hunfolds hmade₂.alive hhigh₂' hclean₂
    fun hoperands => hreduced ?_, fun hp => ?_⟩
  · rcases hoperands with ha' | hoperands
    · exact hall ha'
    · exact fun n hn => (hs₂.trans hmade₃.grew).grows.subset.reduced (hoperands n hn)
  · obtain ⟨hrlow, hrhigh⟩ := hreduced hp
    exact hunfolds.reduced (hrlow.extends hsub hmade₂.valid.closed hmade₂.alive)
      (hrhigh.extends hsub hmade₂.valid.closed hhigh₂')

/-- If-then-else, computed in a store that has grown from `s₀`. Each call inside another stands
below the level of an operand, so the largest rank of an operand falls; the complement takes one
call more than its rank. -/
theorem iteWithin_gives (hr : s₀.diagram.Ranks s₀.order rank) (h₀ : s₀.Valid held) {k : Nat}
    (h' : s.Valid held) (hs : s₀.Grew s) (ha : ∀ n ∈ [f, g, h], s₀.diagram.alive n)
    (hk : ∀ n ∈ [f, g, h], rank n + 1 < k) :
    Gives (iteWithin k f g h s) fun p =>
      s.Made held p.1 p.2 ∧ p.2.diagram.Selects f g h p.1 ∧
        s.Cleanly (∀ n ∈ [f, g, h], s₀.diagram.Reduced n) p.1 p.2 := by
  induction k generalizing f g h s with
  | zero => exact absurd (hk f List.mem_cons_self) (Nat.not_lt_zero _)
  | succ k ih =>
    have has : ∀ n ∈ [f, g, h], s.diagram.alive n := fun n hn => hs.alive (ha n hn)
    have hpure : (∀ n ∈ [f, g, h], s₀.diagram.Reduced n) → ∀ n ∈ [f, g, h], s.diagram.Reduced n :=
      fun hp n hn => (hp n hn).extends hs.grows.subset h₀.closed (ha n hn)
    rcases iteWithin_cases k f g h with ⟨r, hr, hselects, hrun⟩ | ⟨⟨rfl, rfl⟩, hrun⟩ | hp
    · exact gives_of_eq (hrun s)
        ⟨h'.made (has r hr), hselects _, cleanly_operand fun hp => hpure hp r hr⟩
    · have hkf := hk f (by simp)
      rw [hrun]
      exact gives_mono (negateWithin_gives hr h₀ h' hs (ha f (by simp)) (by omega))
        fun p ⟨hmade, hanswers, hkeeps⟩ => ⟨hmade, hanswers.toSelects,
          fun all _ hclean => ⟨hkeeps all hclean, fun _ => hanswers.reduced rfl rfl⟩⟩
    obtain ⟨result, s₁, hconsult, h₁, htwin₁, hfound⟩ := h'.consult (k := ⟨f, g, h⟩) has
    cases result with
    | some r =>
      obtain ⟨hmade, hanswers⟩ := hfound r rfl
      exact gives_of_eq (hp.iteWithin_hit k hconsult)
        ⟨hmade, hanswers.toSelects, cleanly_known hconsult has hpure⟩
    | none =>
      have hs₁ := hs.trans htwin₁.grew
      obtain ⟨v, hleads, hexpand⟩ := h₀.exists_expand hp ha
      rw [iteWithin_succ, hexpand _ readsOff_cofactors _ _ s s₁ hs₁ hconsult]
      refine gives_mono (h₀.expand_gives hleads hp.complement ha h₁ hs₁
        fun x y z t ht hst halive hbelow => ?_)
        fun p ⟨hmade, hselects, hcleanly⟩ => ⟨htwin₁.made hmade, hselects,
          fun all hall hclean => hcleanly all hall (consult_clean hconsult hclean)⟩
      refine ih ht hst halive fun n hn => hleads.rank_lt hr (fun m hm => ?_) (hbelow n hn)
      exact Nat.lt_of_succ_lt_succ (hk m hm)

/-! ## The calls -/

theorem Valid.ite_cleanly (h' : s.Valid held) (ha : ∀ n ∈ [f, g, h], s.diagram.alive n) :
    Gives (s.ite f g h) fun p => s.Made held p.1 p.2 ∧ p.2.diagram.Selects f g h p.1 ∧
      s.Cleanly (∀ n ∈ [f, g, h], s.diagram.Reduced n) p.1 p.2 := by
  apply iteWithin_gives (Diagram.ranks_height _ _) h' h' (.refl s) ha
  intro n _
  have := s.diagram.height_le s.order n
  simp only [Diagram.depth]
  omega

theorem Valid.ite (h' : s.Valid held) (ha : ∀ n ∈ [f, g, h], s.diagram.alive n) :
    Gives (s.ite f g h) fun p => s.Made held p.1 p.2 ∧ p.2.diagram.Selects f g h p.1 :=
  gives_mono (h'.ite_cleanly ha) fun _ ⟨hmade, hselects, _⟩ => ⟨hmade, hselects⟩

theorem Valid.negate_cleanly (h : s.Valid held) (hf : s.diagram.alive f) :
    Gives (s.negate f) fun p => s.Made held p.1 p.2 ∧ p.2.diagram.Answers f .zero .one p.1 ∧
      ∀ all : Prop, s.computed.Clean s.diagram all → p.2.computed.Clean p.2.diagram all := by
  apply negateWithin_gives (Diagram.ranks_height _ _) h h (.refl s) hf
  have := s.diagram.height_le s.order f
  simp only [Diagram.depth]
  omega

theorem Valid.negate (h : s.Valid held) (hf : s.diagram.alive f) :
    Gives (s.negate f) fun p => s.Made held p.1 p.2 ∧ p.2.diagram.Answers f .zero .one p.1 :=
  gives_mono (h.negate_cleanly hf) fun _ ⟨hmade, hanswers, _⟩ => ⟨hmade, hanswers⟩

theorem Valid.and (h' : s.Valid held) (hf : s.diagram.alive f) (hg : s.diagram.alive g) :
    Gives (s.and f g) fun p => s.Made held p.1 p.2 ∧ p.2.diagram.Selects f g .zero p.1 :=
  h'.ite (by simpa using ⟨hf, hg⟩)

theorem Valid.or (h' : s.Valid held) (hf : s.diagram.alive f) (hg : s.diagram.alive g) :
    Gives (s.or f g) fun p => s.Made held p.1 p.2 ∧ p.2.diagram.Selects f .one g p.1 :=
  h'.ite (by simpa using ⟨hf, hg⟩)

theorem Valid.implies (h' : s.Valid held) (hf : s.diagram.alive f) (hg : s.diagram.alive g) :
    Gives (s.implies f g) fun p => s.Made held p.1 p.2 ∧ p.2.diagram.Selects f g .one p.1 :=
  h'.ite (by simpa using ⟨hf, hg⟩)

/-- The exclusive or is made over the complement of the second operand, which stays too. -/
theorem Valid.xor (h : s.Valid held) (hf : s.diagram.alive f) (hg : s.diagram.alive g) :
    Gives (s.xor f g) fun p => s.Built held p.1 p.2 ∧ ∃ n t, s.negate g = .ok (n, t) ∧
      p.2.diagram.alive n ∧ s.Adds [n, p.1] p.2 ∧ p.2.diagram.Selects g .zero .one n ∧
      p.2.diagram.Selects f n g p.1 := by
  obtain ⟨⟨n, t⟩, hnegate, hmade, hanswers⟩ := h.negate hg
  have hg' := hmade.grew.alive hg
  have hites := hmade.valid.ite (f := f) (g := n) (h := g)
    (by simpa using ⟨hmade.grew.alive hf, hmade.alive, hg'⟩)
  unfold Store.xor
  refine gives_bind_of_eq hnegate (gives_mono hites fun p ⟨hmade', hselects'⟩ => ?_)
  refine ⟨hmade.grew.built hmade'.toBuilt, n, t, hnegate, hmade'.grew.alive hmade.alive,
    hmade.adds.trans hmade'.adds hmade'.grew.grows.subset, ?_, hselects'⟩
  exact hanswers.toSelects.grows hmade'.grew.grows hmade.valid.closed
    (by simpa using ⟨hmade.alive, hg'⟩)

end Store

/-! ## Cofactors by any variable -/

/-- `r` is the function of `n` with `v` at `value`. What occurs in it occurs in `n` and is not `v`,
and there is no idle test below it if there is none below `n`. -/
structure Diagram.Restricts (d : Diagram) (v : Var) (value : Bool) (n r : NodeId) : Prop where
  value : ∀ a x, d.Value (a.set v value) n x → d.Value a r x
  occurs : ∀ w, d.Occurs r w → w ≠ v ∧ d.Occurs n w
  reduced : d.Reduced n → d.Reduced r

namespace Diagram

variable {d d' : Diagram} {o : VarOrder} {v : Var} {value x : Bool} {a : Assignment} {b : Branch}
  {n r low high : NodeId}

theorem Restricts.grows (h : d.Restricts v value n r) (hg : d.Grows d') (hc : d.Closed)
    (hn : d.alive n) (hr : d.alive r) : d'.Restricts v value n r where
  value a x hx := (h.value a x (hx.shrink hg.subset hc hn)).extends hg.subset
  occurs w hw := (h.occurs w (hw.shrink hg.subset hc hr)).imp_right fun hw => hw.extends hg.subset
  reduced hn' := (h.reduced (hg.subset.reduced hn')).extends hg.subset hc hr

theorem restricts_self (hl : d.Layered o) (hv : o.levelOf v < d.levelIn o n) :
    d.Restricts v value n n :=
  ⟨fun _ _ hx => (value_set_iff hl hv).mp hx, fun _ hw => ⟨hl.ne_of_occurs hv hw, hw⟩, id⟩

theorem restricts_child (hl : d.Layered o) (hb : d.branch? n = some b) (value : Bool) :
    d.Restricts b.var value n (if value then b.high else b.low) where
  value a x hx := by
    have hchild := hx.of_branch? hb
    simp only [Assignment.set] at hchild
    refine (value_set_iff hl ?_).mp hchild
    rw [← levelIn_of_branch? hb]
    exact hl.child hb value
  occurs w hw := by
    refine ⟨hl.ne_of_occurs (levelIn_of_branch? hb ▸ hl.child hb value) hw, ?_⟩
    cases value
    · exact .low hb hw
    · exact .high hb hw
  reduced hn := by
    cases value
    · exact hn.of_below (Child.low hb).below
    · exact hn.of_below (Child.high hb).below

theorem Restricts.join (hb : d.branch? n = some b) (hne : b.var ≠ v)
    (hlow : d.Restricts v value b.low low) (hhigh : d.Restricts v value b.high high)
    (hr : d.Unfolds b.var r ⟨low, high⟩) : d.Restricts v value n r where
  value a x hx := by
    have hchild := hx.of_branch? hb
    have hsame : a.set v value b.var = a b.var := if_neg hne
    rw [hsame] at hchild
    exact hr.joins.of_cases (fun hav => hlow.value a x (by simpa [hav] using hchild))
      fun hav => hhigh.value a x (by simpa [hav] using hchild)
  occurs w hw := by
    rcases hr.joins.occurs w hw with rfl | hw | hw
    · exact ⟨hne, .here hb⟩
    · exact (hlow.occurs w hw).imp_right fun hw => .low hb hw
    · exact (hhigh.occurs w hw).imp_right fun hw => .high hb hw
  reduced hn := hr.reduced (hlow.reduced (hn.of_below (Child.low hb).below))
    (hhigh.reduced (hn.of_below (Child.high hb).below))

theorem Restricts.lt_levelIn (h : d.Restricts v value n r) (hl : d.Layered o) {l : Nat}
    (hsize : l < o.size) (hn : l < d.levelIn o n) : l < d.levelIn o r :=
  lt_levelIn_of_occurs hsize fun w hw => Nat.lt_of_lt_of_le hn ((h.occurs w hw).2.levelIn_le hl)

end Diagram

namespace Store

variable {s s₀ t : Store} {held : Holding} {v : Var} {value : Bool} {n r : NodeId}
  {known : NodeMap NodeId} {rank : NodeId → Nat}

/-- The cofactors known so far, of live nodes, are live nodes and right. -/
def Remembers (s : Store) (v : Var) (value : Bool) (known : NodeMap NodeId) : Prop :=
  ∀ n r, known[n]? = some r → s.diagram.alive n ∧ s.diagram.alive r ∧
    s.diagram.Restricts v value n r

theorem remembers_empty (s : Store) (v : Var) (value : Bool) : s.Remembers v value ∅ := by
  intro n r hr
  simp at hr

theorem Remembers.grew (h : s.Remembers v value known) (hs : s.Valid held) (hg : s.Grew t) :
    t.Remembers v value known := by
  intro n r hr
  obtain ⟨hn, ha, hrestricts⟩ := h n r hr
  exact ⟨hg.alive hn, hg.alive ha, hrestricts.grows hg.grows hs.closed hn ha⟩

theorem Remembers.insert (h : s.Remembers v value known) (hn : s.diagram.alive n)
    (hr : s.diagram.alive r) (hrestricts : s.diagram.Restricts v value n r) :
    s.Remembers v value (known.insert n r) :=
  forall_entry_insert h ⟨hn, hr, hrestricts⟩

/-- The cofactor of a node that tests another variable, from the cofactors of its children. -/
theorem Valid.consReduced_restricts {b : Branch} {low high : NodeId} (h : s.Valid held)
    (hb : s.diagram.branch? n = some b) (hne : b.var ≠ v) (halow : s.diagram.alive low)
    (hahigh : s.diagram.alive high) (hlow : s.diagram.Restricts v value b.low low)
    (hhigh : s.diagram.Restricts v value b.high high) :
    Gives (s.consReduced b.var low high) fun p =>
      s.Made held p.1 p.2 ∧ p.2.diagram.Restricts v value n p.1 ∧
        p.2.diagram.Below p.1 low ∧ p.2.diagram.Below p.1 high := by
  obtain ⟨hblow, hbhigh⟩ := h.closed n b hb
  obtain ⟨hllow, hlhigh⟩ := h.layered n b hb
  have hknows := h.sound.knows n b hb
  have hsize := h.lawful.levelOf_lt hknows
  refine gives_mono (h.consReduced hknows halow hahigh (hlow.lt_levelIn h.layered hsize hllow)
    (hhigh.lt_levelIn h.layered hsize hlhigh)) fun p ⟨hmade, hunfolds⟩ => ?_
  have hlow' := hlow.grows hmade.grew.grows h.closed hblow halow
  have hhigh' := hhigh.grows hmade.grew.grows h.closed hbhigh hahigh
  exact ⟨hmade, .join (hmade.grew.branch? hb) hne hlow' hhigh' hunfolds, hunfolds.below⟩

/-- The cofactor of a node, computed in a store that has grown from `s₀`. -/
theorem restrictWithin_gives (hr : s₀.diagram.Ranks s₀.order rank) (h₀ : s₀.Valid held) {k : Nat}
    (hv : s₀.order.knows v) (h : s.Valid held) (hs : s₀.Grew s) (hknown : s.Remembers v value known)
    (hn : s₀.diagram.alive n) (hk : rank n < k) :
    Gives (restrictWithin v value k n known s) fun p =>
      s.Made held p.1 p.2.2 ∧ p.2.2.diagram.Restricts v value n p.1 ∧
        p.2.2.Remembers v value p.2.1 := by
  induction k generalizing n known s with
  | zero => omega
  | succ k ih =>
    cases n with
    | terminal b =>
      have hlevel := h.lawful.levelOf_lt (v := v) (by rw [hs.order]; exact hv)
      exact gives_ok ⟨h.made rfl, Diagram.restricts_self h.layered hlevel, hknown⟩
    | inner i =>
      obtain ⟨b, hb⟩ := Diagram.exists_branch hn
      obtain ⟨hlow, hhigh⟩ := h₀.closed _ b hb
      obtain ⟨hranklow, hrankhigh⟩ := hr.children h₀.layered hb
      have hbs := hs.branch? hb
      unfold restrictWithin
      apply gives_bind_of_eq (Diagram.branch_eq_ok_iff.mpr hbs)
      split
      · rename_i hvar
        subst hvar
        refine gives_pure ⟨h.made ?_, ?_, hknown⟩
        · have := h.closed.child hbs value
          simpa using this
        · have := Diagram.restricts_child h.layered hbs value
          simpa using this
      rename_i hvar
      split
      · rename_i habove
        rw [← Diagram.levelIn_of_branch? hbs] at habove
        exact gives_pure
          ⟨h.made (hs.alive hn), Diagram.restricts_self h.layered habove, hknown⟩
      split
      · rename_i r hfound
        obtain ⟨-, halive, hrestricts⟩ := hknown _ r hfound
        exact gives_pure ⟨h.made halive, hrestricts, hknown⟩
      · refine gives_bind (ih h hs hknown hlow (by omega))
          fun ⟨low, known₁, s₁⟩ ⟨hmade₁, hrestricts₁, hknown₁⟩ => ?_
        have hs₁ := hs.trans hmade₁.grew
        refine gives_bind (ih hmade₁.valid hs₁ hknown₁ hhigh (by omega))
          fun ⟨high, known₂, s₂⟩ ⟨hmade₂, hrestricts₂, hknown₂⟩ => ?_
        have hs₂ := hs₁.trans hmade₂.grew
        have hlow₂ := hrestricts₁.grows hmade₂.grew.grows hmade₁.valid.closed (hs₁.alive hlow)
          hmade₁.alive
        refine gives_bind (hmade₂.valid.consReduced_restricts (hs₂.branch? hb) hvar
          (hmade₂.grew.alive hmade₁.alive) hmade₂.alive hlow₂ hrestricts₂)
          fun ⟨r, s₃⟩ ⟨hmade₃, hrestricts, hbelowlow, hbelowhigh⟩ => ?_
        have hn₃ := (hs₂.trans hmade₃.grew).alive hn
        exact gives_pure ⟨hmade₁.trans (hmade₂.trans hmade₃ hbelowhigh) hbelowlow, hrestricts,
          (hknown₂.grew hmade₂.valid hmade₃.grew).insert hn₃ hmade₃.alive hrestricts⟩

theorem Valid.cofactor (h : s.Valid held) (hn : s.diagram.alive n) (v : Var) (value : Bool) :
    Gives (cofactor n v value s) fun p =>
      (∃ r, p.1 = .ok r ∧ s.Made held r p.2 ∧ p.2.diagram.Restricts v value n r) ∨
        ¬ s.order.knows v ∧ p = (.error (.unknownVariable v), s) := by
  unfold Store.cofactor
  rw [Action.store_bind]
  split
  · rename_i hv
    have hle := s.diagram.height_le s.order n
    have hrun := restrictWithin_gives (Diagram.ranks_height _ _) h hv h (.refl s)
      (remembers_empty s v value) hn (k := s.diagram.depth) (by simp only [Diagram.depth]; omega)
    refine Action.gives_of_step (P := fun p => s.Made held p.1 p.2 ∧
      p.2.diagram.Restricts v value n p.1) (gives_bind hrun fun _ hp => gives_pure ⟨hp.1, hp.2.1⟩)
      fun r t hp => Or.inl ⟨r, rfl, hp⟩
  · rename_i hv
    exact Action.gives_reject (Or.inr ⟨hv, rfl⟩)

/-- What a restriction may be rejected with, and when: it is asked for by two variables, or by one
that is not known. -/
inductive Forbids (s : Store) : Option Var → Option Var → Rejection → Prop where
  | both {p q : Var} : Forbids s (some p) (some q) (.conflictingRestriction p q)
  | positive {v : Var} (h : ¬ s.order.knows v) : Forbids s (some v) none (.unknownVariable v)
  | negative {v : Var} (h : ¬ s.order.knows v) : Forbids s none (some v) (.unknownVariable v)

/-- A restriction gives a live node, or it is rejected and nothing has changed. -/
theorem Valid.restrict (h : s.Valid held) (hn : s.diagram.alive n)
    (positive negative : Option Var) :
    Gives (restrict n positive negative s) fun p =>
      (∃ r, p.1 = .ok r ∧ s.Made held r p.2) ∨
        ∃ e, p = (.error e, s) ∧ s.Forbids positive negative e := by
  cases positive with
  | none =>
    cases negative with
    | none => exact Action.gives_pure (Or.inl ⟨n, rfl, h.made hn⟩)
    | some v =>
      exact gives_mono (h.cofactor hn v false) fun p hp =>
        hp.imp (fun ⟨r, hr, hmade, _⟩ => ⟨r, hr, hmade⟩) fun ⟨hv, hp⟩ => ⟨_, hp, .negative hv⟩
  | some v =>
    cases negative with
    | none =>
      exact gives_mono (h.cofactor hn v true) fun p hp =>
        hp.imp (fun ⟨r, hr, hmade, _⟩ => ⟨r, hr, hmade⟩) fun ⟨hv, hp⟩ => ⟨_, hp, .positive hv⟩
    | some w => exact Action.gives_reject (Or.inr ⟨_, rfl, .both⟩)

end Store

end DecisionGraph
