import DecisionGraph.Proofs.Runs

/-!
# When an exchange is rejected

The look ahead compares what it foresees: nodes that are there, cofactors that take the place of an
idle test, and nodes that are yet to be made. It is exact all the same. A foreseen child tells its
two cofactors, because cofactors lie below both levels and do not test `v`. So two rotated nodes
come to one shape only if all four cofactors are the same. And a test of `w` that is there already
has children below both levels, which are no tests of `v`; a rotated node can come to its shape only
if both new children are cofactors, so that the two old children had the same ones.

Neither can be without an idle test on one of the two levels, as cofactors then tell the child, and
children tell the node.

* `Diagram.Collides` — the conflicts, by cofactors.
* `Bears`, `Valid.collides_iff` — the same by the shapes that relabelling leads to.
* `Valid.swap_exact` — neighbours are rejected if and only if there is a conflict.
* `Diagram.not_collides`, `Valid.sift_of_noIdle` — without idle tests there is none.
-/

namespace DecisionGraph

namespace Diagram

/-- A conflict of neighbours `v` and `w`: the two children of a node to rotate have the same
cofactors, or two nodes to rotate have the same four. -/
inductive Collides (d : Diagram) (v w : Var) : Prop where
  | idle {r : Rotation} (hr : d.Rotates v w r) (heq : r.lowCofactors = r.highCofactors)
  | twins {r r' : Rotation} (hr : d.Rotates v w r) (hr' : d.Rotates v w r')
      (hne : r.node ≠ r'.node) (hlow : r.lowCofactors = r'.lowCofactors)
      (hhigh : r.highCofactors = r'.highCofactors)

variable {d : Diagram} {o : VarOrder} {v w : Var} {r r' : Rotation}

/-- The new children have the four cofactors, in another order. -/
theorem cofactors_eq_iff : (r.newLow = r'.newLow ∧ r.newHigh = r'.newHigh) ↔
    r.lowCofactors = r'.lowCofactors ∧ r.highCofactors = r'.highCofactors := by
  obtain ⟨-, -, ⟨_, _⟩, ⟨_, _⟩⟩ := r
  obtain ⟨-, -, ⟨_, _⟩, ⟨_, _⟩⟩ := r'
  simp only [Rotation.newLow, Rotation.newHigh, Children.mk.injEq]
  tauto

theorem Rotates.eq_of_node (h : d.Rotates v w r) (h' : d.Rotates v w r')
    (hnode : r.node = r'.node) : r = r' := by
  have hchildren : r'.children = r.children := by
    have hb := h.branch?
    rw [hnode, h'.branch?, Option.some.injEq] at hb
    exact congrArg Branch.toChildren hb
  have hlow : r.lowCofactors = r'.lowCofactors :=
    h.lowCofactors.trans (hchildren ▸ h'.lowCofactors.symm)
  have hhigh : r.highCofactors = r'.highCofactors :=
    h.highCofactors.trans (hchildren ▸ h'.highCofactors.symm)
  cases r
  cases r'
  simp_all

/-- The cofactors lie below `v`. -/
theorem Rotates.lt_cofactors (h : d.Rotates v w r) (hl : d.Layered o) :
    o.levelOf v < d.levelIn o r.newLow.low ∧ o.levelOf v < d.levelIn o r.newHigh.low := by
  obtain ⟨hchild, -⟩ := hl _ _ h.branch?
  obtain ⟨hlow, hhigh⟩ := hl.levelIn_cofactorsOf_le w r.children.low
  simp only [Rotation.newLow, Rotation.newHigh, h.lowCofactors]
  exact ⟨Nat.lt_of_lt_of_le hchild hlow, Nat.lt_of_lt_of_le hchild hhigh⟩

/-- A test of `w` has the new shape only if both new children are cofactors. -/
theorem Rotates.fresh_iff (h : d.Rotates v w r) (hl : d.Layered o)
    (hvw : o.levelOf v < o.levelOf w) :
    d.Fresh v w r ↔ r.lowCofactors ≠ r.highCofactors := by
  constructor
  · intro hfresh heq
    have hapart := h.apart hfresh
    simp [Rotation.newLow, Rotation.newHigh, heq] at hapart
  · rintro hne m b hb rfl hunfolds
    have hcofactor : ∀ n k, o.levelOf b.var < d.levelIn o n → d.Unfolds v n k → k.low = k.high := by
      intro n k hlt hn
      rcases hn with hcofactor | htest
      · exact hcofactor.1
      · exact absurd rfl (var_ne_of_lt (Nat.lt_trans hvw hlt) _ htest.2)
    obtain ⟨hllow, hlhigh⟩ := hl m b hb
    have hlow := hcofactor _ _ hllow hunfolds.1
    have hhigh := hcofactor _ _ hlhigh hunfolds.2
    exact hne (congrArg₂ Children.mk hlow hhigh)

/-- Without idle tests of the two variables there is no conflict. -/
theorem not_collides (hd : d.Distinct)
    (hidle : ∀ n b, d.branch? n = some b → b.var = v ∨ b.var = w → b.low ≠ b.high) :
    ¬ d.Collides v w := by
  have hunfolds : ∀ n, d.Unfolds w n (d.cofactorsOf w n) := fun n =>
    unfolds_cofactorsOf fun b hb hvar => hidle n b hb (Or.inr hvar)
  have hchild : ∀ m n, d.cofactorsOf w m = d.cofactorsOf w n → m = n := fun m n heq =>
    (hunfolds m).node_unique hd (heq ▸ hunfolds n)
  intro hcollides
  cases hcollides with
  | idle hr heq =>
    rw [hr.lowCofactors, hr.highCofactors] at heq
    exact hidle _ _ hr.branch? (Or.inl rfl) (hchild _ _ heq)
  | @twins r r' hr hr' hne hlow hhigh =>
    rw [hr.lowCofactors, hr'.lowCofactors] at hlow
    rw [hr.highCofactors, hr'.highCofactors] at hhigh
    have hchildren : r.children = r'.children :=
      congrArg₂ Children.mk (hchild _ _ hlow) (hchild _ _ hhigh)
    exact hne (hd _ _ _ hr.branch? (hchildren ▸ hr'.branch?))

end Diagram

namespace Store

variable {s : Store} {held : Holding} {v w : Var} {r r' : Rotation} {root : NodeId}

/-- After the nodes to rotate have been relabelled in place, `n` tests `w` and has the children
`low` and `high`: it has been rotated, or it has tested `w` before. -/
inductive Bears (s : Store) (v w : Var) (n : NodeId) (low high : Foreseen) : Prop where
  | rotated {r : Rotation} (hr : s.diagram.Rotates v w r) (hnode : r.node = n)
      (hchildren : s.outlook v r = (low, high))
  | kept {b : Branch} (hb : s.diagram.branch? n = some b) (hvar : b.var = w)
      (hlow : low = .found b.low) (hhigh : high = .found b.high)

theorem outlook_eq (hlow : r.lowCofactors = r'.lowCofactors)
    (hhigh : r.highCofactors = r'.highCofactors) : s.outlook v r = s.outlook v r' := by
  obtain ⟨hnewLow, hnewHigh⟩ := Diagram.cofactors_eq_iff.mpr ⟨hlow, hhigh⟩
  rw [outlook, outlook, hnewLow, hnewHigh]

/-- The outlook of a node tells its four cofactors. -/
theorem Valid.cofactors_of_outlook (h : s.Valid held) (hr : s.diagram.Rotates v w r)
    (hr' : s.diagram.Rotates v w r') (heq : s.outlook v r = s.outlook v r') :
    r.lowCofactors = r'.lowCofactors ∧ r.highCofactors = r'.highCofactors := by
  obtain ⟨hlow, hhigh⟩ := hr.lt_cofactors h.layered
  obtain ⟨hlow', hhigh'⟩ := hr'.lt_cofactors h.layered
  rw [outlook, outlook, Prod.mk.injEq] at heq
  exact Diagram.cofactors_eq_iff.mp ⟨h.sound.foreseen_injective (Diagram.var_ne_of_lt hlow)
    (Diagram.var_ne_of_lt hlow') heq.1, h.sound.foreseen_injective (Diagram.var_ne_of_lt hhigh)
    (Diagram.var_ne_of_lt hhigh') heq.2⟩

/-- Without a conflict, rotated nodes come to different shapes. -/
theorem Valid.eq_of_outlook (h : s.Valid held) (hr : s.diagram.Rotates v w r)
    (hr' : s.diagram.Rotates v w r') (hno : ¬ s.diagram.Collides v w)
    (heq : s.outlook v r = s.outlook v r') : r = r' := by
  refine Classical.byContradiction fun hne => hno ?_
  obtain ⟨hlow, hhigh⟩ := h.cofactors_of_outlook hr hr' heq
  exact .twins hr hr' (fun hnode => hne (hr.eq_of_node hr' hnode)) hlow hhigh

section Neighbours

variable (h : s.Valid held) (ho : s.order.Adjacent (s.order.levelOf v) v w)

include h ho

theorem Valid.fresh_iff (hr : s.diagram.Rotates v w r) :
    s.diagram.Fresh v w r ↔ r.lowCofactors ≠ r.highCofactors :=
  hr.fresh_iff h.layered (ho.levelOf_lower ▸ Nat.lt_succ_self (s.order.levelOf v))

/-- The look ahead is exact. -/
theorem Valid.conflict?_exact :
    Gives (s.rotations v w) fun plan => Gives (s.conflict? v w plan []) fun e =>
      e = none ↔ ¬ s.diagram.Collides v w := by
  have hv := ho.lawful.knows_of_varAt? ho.upper
  have hw := ho.lawful.knows_of_varAt? ho.lower
  refine gives_mono (h.rotations_gives hv w) fun plan ⟨hnodup, hplan⟩ => ?_
  refine gives_mono (h.sound.conflict?_gives hv hw plan []) fun e he => he.trans ?_
  rw [List.nodup_map_iff_inj_on (List.Nodup.of_map _ hnodup)]
  constructor
  · rintro ⟨hinjective, hfresh⟩ hcollides
    cases hcollides with
    | idle hr heq =>
      exact (h.fresh_iff ho hr).mp (hfresh _ ((hplan _).mpr hr)).1 heq
    | twins hr hr' hne hlow hhigh =>
      exact hne (congrArg Rotation.node (hinjective _ ((hplan _).mpr hr) _ ((hplan _).mpr hr')
        (outlook_eq hlow hhigh)))
  · intro hno
    refine ⟨fun r hr r' hr' => ?_, fun r hr => ⟨?_, List.not_mem_nil⟩⟩
    · exact h.eq_of_outlook ((hplan r).mp hr) ((hplan r').mp hr') hno
    · exact (h.fresh_iff ho ((hplan r).mp hr)).mpr fun heq => hno (.idle ((hplan r).mp hr) heq)

/-- There is a conflict if and only if relabelling in place would lead to two nodes of one shape. -/
theorem Valid.collides_iff : s.diagram.Collides v w ↔ ∃ m n low high, m ≠ n ∧
    s.Bears v w m low high ∧ s.Bears v w n low high := by
  have hfound := fun n k => h.sound.foreseen_eq_found_iff (v := v) (n := n) (k := k)
  constructor
  · intro hcollides
    cases hcollides with
    | @idle r hr heq =>
      have htaken : ¬ s.diagram.Fresh v w r := fun hfresh => (h.fresh_iff ho hr).mp hfresh heq
      simp only [Diagram.Fresh, not_forall, not_not] at htaken
      obtain ⟨m, b, hb, hvar, hlow, hhigh⟩ := htaken
      refine ⟨r.node, m, _, _, ?_, .rotated hr rfl rfl, .kept hb hvar ((hfound _ _).mpr hlow)
        ((hfound _ _).mpr hhigh)⟩
      rintro rfl
      rw [hr.branch?, Option.some.injEq] at hb
      subst hb
      exact ho.ne hvar
    | twins hr hr' hne hlow hhigh =>
      exact ⟨_, _, _, _, hne, .rotated hr rfl rfl, .rotated hr' rfl (outlook_eq hlow hhigh).symm⟩
  · rintro ⟨m, n, low, high, hne, hm, hn⟩
    refine Classical.byContradiction fun hno => hne ?_
    have htaken : ∀ {r b k}, s.diagram.Rotates v w r → s.outlook v r = (low, high) →
        s.diagram.branch? k = some b → b.var = w → low = .found b.low → high ≠ .found b.high := by
      rintro r b k hr houtlook hb hvar rfl rfl
      rw [outlook, Prod.mk.injEq, hfound, hfound] at houtlook
      exact (h.fresh_iff ho hr).mpr (fun heq => hno (.idle hr heq)) k b hb hvar houtlook
    cases hm with
    | rotated hr hnode hchildren =>
      cases hn with
      | rotated hr' hnode' hchildren' =>
        rw [← hnode, ← hnode', h.eq_of_outlook hr hr' hno (hchildren.trans hchildren'.symm)]
      | kept hb hvar hlow hhigh => exact absurd hhigh (htaken hr hchildren hb hvar hlow)
    | @kept b hb hvar hlow hhigh =>
      cases hn with
      | rotated hr hnode hchildren => exact absurd hhigh (htaken hr hchildren hb hvar hlow)
      | @kept b' hb' hvar' hlow' hhigh' =>
        obtain ⟨⟨_, _⟩, _⟩ := b
        obtain ⟨⟨_, _⟩, _⟩ := b'
        cases hlow.symm.trans hlow'
        cases hhigh.symm.trans hhigh'
        cases hvar
        cases hvar'
        exact h.distinct _ _ _ hb hb'

/-- Neighbours change places, or there is a conflict and the call is rejected. -/
theorem Valid.swap_exact :
    Gives (Store.swap v w s) fun p => (p.1 = .ok () ∧ ¬ s.diagram.Collides v w) ∨
      ((∃ low high, p.1 = .error (.shapeTaken w low high)) ∧ s.diagram.Collides v w) := by
  have hplace := misplaced?_of_adjacent ho
  obtain ⟨plan, hplan, conflict, hconflict, hexact⟩ := h.conflict?_exact ho
  cases conflict with
  | none =>
    exact gives_mono (h.swap_of_free hplace hplan hconflict) fun p hp =>
      Or.inl ⟨hp.1, hexact.mp rfl⟩
  | some e =>
    obtain ⟨r, -, rfl⟩ := s.conflict?_names v w plan [] _ hconflict e rfl
    have hcollides : s.diagram.Collides v w :=
      Classical.not_not.mp fun hno => nomatch hexact.mpr hno
    unfold Store.swap
    rw [Action.store_bind, hplace]
    apply Action.gives_ask_of_eq hplan
    apply Action.gives_ask_of_eq hconflict
    exact Action.gives_reject (Or.inr ⟨⟨_, _, rfl⟩, hcollides⟩)

/-- Without idle tests, neighbours change places. -/
theorem Valid.swap_of_not_idle (hidle : ∀ n b, s.diagram.branch? n = some b →
    b.var = v ∨ b.var = w → b.low ≠ b.high) : Gives (Store.swap v w s) fun p => p.1 = .ok () :=
  gives_mono (h.swap_exact ho) fun _ hp =>
    (hp.resolve_right fun hp => Diagram.not_collides h.distinct hidle hp.2).1

end Neighbours

/-- Without idle tests, sifting is not rejected: no exchange on the way is, as none brings an idle
test. -/
theorem Valid.sift_of_noIdle (h : s.Valid held) (hroot : s.diagram.alive root)
    (hidle : s.diagram.NoIdle) :
    Gives (Store.sift root s) fun p => ∃ n stats, p.1 = .ok (n, stats) := by
  refine gives_mono (h.sift_or_struck hroot) fun ⟨result, t⟩ ⟨_, hstruck⟩ => ?_
  cases result with
  | ok found => exact ⟨found.1, found.2, rfl⟩
  | error e =>
    obtain ⟨held', u, hkeeps, hu, t, v, w, hsteady, ho, hrun⟩ := hstruck e rfl
    have ht := Diagram.noIdle_iff.mp ((hsteady.keeps hu).noIdle (hkeeps.noIdle hidle))
    cases (hsteady.valid.swap_of_not_idle ho fun n b hb _ => ht n b hb).of_eq hrun

end Store

namespace Client

variable {c : Client}

/-- The check for conflicts is exact, in every reachable state. The exchange of a variable with its
successor ends. It is rejected for a taken shape if and only if two nodes of one shape would come of
it, which is told by the cofactors, and it succeeds otherwise. Where no test of the two variables is
idle it succeeds; where no test at all is idle, so does sifting. -/
theorem swap_conflict_exact (hc : Reachable c) :
    (∀ v w, c.store.order.knows v →
      c.store.order.varAt? (c.store.order.levelOf v).next = some w →
      ∃ result t, Store.swap v w c.store = .ok (result, t) ∧
        ((∃ low high, result = .error (.shapeTaken w low high)) ↔
          c.store.diagram.Collides v w) ∧
        (result = .ok () ↔ ¬ c.store.diagram.Collides v w) ∧
        (c.store.diagram.Collides v w ↔ ∃ m n low high, m ≠ n ∧
          c.store.Bears v w m low high ∧ c.store.Bears v w n low high) ∧
        ((∀ n b, c.store.diagram.branch? n = some b → b.var = v ∨ b.var = w → b.low ≠ b.high) →
          result = .ok ())) ∧
    (c.store.diagram.NoIdle →
      (∀ v w, c.store.order.knows v →
        c.store.order.varAt? (c.store.order.levelOf v).next = some w →
        ∃ t, Store.swap v w c.store = .ok (.ok (), t)) ∧
      ∀ root, c.store.alive root →
        ∃ n stats t, Store.sift root c.store = .ok (.ok (n, stats), t)) := by
  have hvalid := hc.valid
  have hadjacent : ∀ v w, c.store.order.knows v →
      c.store.order.varAt? (c.store.order.levelOf v).next = some w →
      c.store.order.Adjacent (c.store.order.levelOf v) v w := fun v w hv hw =>
    ⟨hvalid.lawful, hvalid.lawful.varAt?_levelOf hv, hw⟩
  refine ⟨fun v w hv hw => ?_, fun hidle => ⟨fun v w hv hw => ?_, fun root hroot => ?_⟩⟩
  · have ho := hadjacent v w hv hw
    obtain ⟨⟨result, t⟩, hrun, hresult⟩ := hvalid.swap_exact ho
    refine ⟨result, t, hrun, ?_, ?_, hvalid.collides_iff ho, fun hidle =>
      (hvalid.swap_of_not_idle ho hidle).of_eq hrun⟩
    · rcases hresult with ⟨rfl, hno⟩ | ⟨hrejected, hcollides⟩
      · simp [hno]
      · exact iff_of_true hrejected hcollides
    · rcases hresult with ⟨rfl, hno⟩ | ⟨⟨low, high, rfl⟩, hcollides⟩
      · simp [hno]
      · simp [hcollides]
  · obtain ⟨⟨_, t⟩, hrun, rfl⟩ := hvalid.swap_of_not_idle (hadjacent v w hv hw)
      fun n b hb _ => Diagram.noIdle_iff.mp hidle n b hb
    exact ⟨t, hrun⟩
  · obtain ⟨⟨_, t⟩, hrun, n, stats, rfl⟩ := hvalid.sift_of_noIdle hroot hidle
    exact ⟨n, stats, t, hrun⟩

/-- The node `1` is an idle test over a cofactor of its neighbours. With it or with that cofactor as
a child, two nodes would be rotated to one shape. -/
theorem swap_conflict_exact_twins : ∃ c : Client,
    (start 2 ⟨1, ⟨0⟩⟩).after [.create ⟨1⟩ .zero .one, .create ⟨1⟩ .zero .zero,
      .create ⟨0⟩ .zero (.inner 0), .create ⟨0⟩ (.inner 1) (.inner 0)] = some c ∧
    (∃ low high t, Store.swap ⟨0⟩ ⟨1⟩ c.store = .ok (.error (.shapeTaken ⟨1⟩ low high), t)) ∧
    c.store.diagram.Collides ⟨0⟩ ⟨1⟩ := by
  let calls : List Call := [.create ⟨1⟩ .zero .one, .create ⟨1⟩ .zero .zero,
    .create ⟨0⟩ .zero (.inner 0), .create ⟨0⟩ (.inner 1) (.inner 0)]
  have hends : ((start 2 ⟨1, ⟨0⟩⟩).after calls).map (fun c =>
      (c.store.order.knows ⟨0⟩, c.store.order.varAt? (c.store.order.levelOf ⟨0⟩).next,
        c.store.diagram.branch? (.inner 0), c.store.diagram.branch? (.inner 1))) =
      some (true, some ⟨1⟩, some ⟨⟨.zero, .one⟩, ⟨1⟩⟩, some ⟨⟨.zero, .zero⟩, ⟨1⟩⟩) := by
    decide +kernel
  have htests : ((start 2 ⟨1, ⟨0⟩⟩).after calls).map (fun c =>
      (c.store.diagram.branch? (.inner 2), c.store.diagram.branch? (.inner 3))) =
      some (some ⟨⟨.zero, .inner 0⟩, ⟨0⟩⟩, some ⟨⟨.inner 1, .inner 0⟩, ⟨0⟩⟩) := by
    decide +kernel
  obtain ⟨c, hc, hfound⟩ := Option.map_eq_some_iff.mp hends
  rw [hc, Option.map_some, Option.some.injEq, Prod.mk.injEq] at htests
  simp only [Prod.mk.injEq] at hfound
  obtain ⟨hv, hw, h₀, h₁⟩ := hfound
  obtain ⟨h₂, h₃⟩ := htests
  have hzero : c.store.diagram.cofactorsOf ⟨1⟩ .zero = ⟨.zero, .zero⟩ := rfl
  have hcofactors₀ := Diagram.cofactorsOf_of_var h₀
  have hcofactors₁ := Diagram.cofactorsOf_of_var h₁
  have hr : c.store.diagram.Rotates ⟨0⟩ ⟨1⟩
      ⟨.inner 2, ⟨.zero, .inner 0⟩, ⟨.zero, .zero⟩, ⟨.zero, .one⟩⟩ :=
    ⟨h₂, hzero.symm, hcofactors₀.symm, _, _, Or.inr rfl, h₀, rfl⟩
  have hr' : c.store.diagram.Rotates ⟨0⟩ ⟨1⟩
      ⟨.inner 3, ⟨.inner 1, .inner 0⟩, ⟨.zero, .zero⟩, ⟨.zero, .one⟩⟩ :=
    ⟨h₃, hcofactors₁.symm, hcofactors₀.symm, _, _, Or.inr rfl, h₀, rfl⟩
  have hcollides : c.store.diagram.Collides ⟨0⟩ ⟨1⟩ := .twins hr hr' (by decide) rfl rfl
  obtain ⟨result, t, hrun, hrejected, -⟩ :=
    (swap_conflict_exact (reachable_of_after hc)).1 ⟨0⟩ ⟨1⟩ hv hw
  obtain ⟨low, high, rfl⟩ := hrejected.mpr hcollides
  exact ⟨c, hc, ⟨low, high, t, hrun⟩, hcollides⟩

end Client

end DecisionGraph
