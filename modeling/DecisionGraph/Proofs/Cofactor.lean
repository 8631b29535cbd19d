import DecisionGraph.Proofs.Transparency

/-!
# Cofactors

A cofactor by any variable is found on the way down to the tests of that variable, and made on the
way back up. The way down ends at nodes below the variable, by the order as it is, and these are
taken as they are: the variable cannot be tested below them. On the way up no idle test is made, but
those that lie below the variable stay.

Where there is no idle test to begin with and the variable is not tested, the cofactor has the
function of the node itself. There is but one node for a function, so it is the node itself.

* `Cofactored` — what a cofactor has to do with its node.
* `Valid.restrict_cofactored` — restriction by one known variable makes the cofactor.
-/

namespace DecisionGraph

namespace Store

variable {s t : Store} {held : Holding} {v : Var} {value : Bool} {f r : NodeId}

/-- `r` in `t` is the cofactor by `v` at `value` of the node `f` of `s`: it has the values that `f`
has with `v` at `value`, and `v` is not tested below it. There are idle tests below it only if there
are some below `f`, and if neither they nor `v` are found below `f`, it is `f`. -/
structure Cofactored (s : Store) (f : NodeId) (v : Var) (value : Bool) (r : NodeId) (t : Store) :
    Prop where
  alive : t.alive r
  value : ∀ values : Array Bool, s.varCount ≤ values.size →
    ∃ x, s.evaluate f (values.setIfInBounds v.index value) = .ok x ∧ t.evaluate r values = .ok x
  untested : ∀ n b, t.diagram.Below r n → t.diagram.branch? n = some b → b.var ≠ v
  reduced : s.diagram.Reduced f → t.diagram.Reduced r
  self : s.diagram.Reduced f →
    (∀ n b, s.diagram.Below f n → s.diagram.branch? n = some b → b.var ≠ v) → r = f

/-- What has been made as a restriction is the cofactor. -/
theorem Made.cofactored (hmade : s.Made held r t) (h : s.Valid held) (hf : s.diagram.alive f)
    (hv : s.order.knows v) (hr : t.diagram.Restricts v value f r) :
    s.Cofactored f v value r t := by
  have hsub := hmade.grew.grows.subset
  have hf' := hmade.grew.alive hf
  have hreduced : s.diagram.Reduced f → t.diagram.Reduced r := fun hidle =>
    hr.reduced (hidle.extends hsub h.closed hf)
  refine ⟨hmade.alive, fun values hvalues => ?_, fun n b hbelow hb hvar => ?_, hreduced,
    fun hidle huntested => ?_⟩
  · obtain ⟨x, hx⟩ := h.exists_value hf (assignmentOf (values.setIfInBounds v.index value))
    have hcount : t.varCount = s.varCount := congrArg VarOrder.size hmade.grew.order
    have hlt : v.index < values.size := Nat.lt_of_lt_of_le (VarOrder.knows_iff.mp hv) hvalues
    refine ⟨x, (h.evaluate_eq_ok_iff hf (by simpa using hvalues)).mpr hx, ?_⟩
    rw [hmade.valid.evaluate_eq_ok_iff hmade.alive (hcount ▸ hvalues)]
    rw [assignmentOf_setIfInBounds hlt] at hx
    exact hr.value _ x (hx.extends hsub)
  · have hoccurs := Diagram.occurs_iff_exists_below.mpr ⟨n, b, hbelow, hb, hvar⟩
    exact (hr.occurs v hoccurs).1 rfl
  · have hnone : ¬ t.diagram.Occurs f v := by
      intro hoccurs
      obtain ⟨n, b, hbelow, hb, hvar⟩ :=
        Diagram.occurs_iff_exists_below.mp (hoccurs.shrink hsub h.closed hf)
      exact huntested n b hbelow hb hvar
    have hstands : t.diagram.Stands f r :=
      ⟨fun a x hx => hr.value a x ((Diagram.value_set_iff_of_not_occurs hnone).mpr hx),
        fun w hw => (hr.occurs w hw).2⟩
    have halike := hmade.valid.alike_of_stands hf' hstands
    exact (hmade.recalled h (hreduced hidle) hf hidle halike.symm).1

/-- Restriction by one known variable, to be true or to be false. -/
theorem Valid.restrict_cofactored (h : s.Valid held) (hf : s.diagram.alive f)
    (hv : s.order.knows v) (value : Bool) :
    Gives (Store.restrict f (if value then some v else none) (if value then none else some v) s)
      fun p => ∃ r, p.1 = .ok r ∧ s.Cofactored f v value r p.2 := by
  have hrun : Store.restrict f (if value then some v else none) (if value then none else some v) =
      Store.cofactor f v value := by
    cases value <;> rfl
  rw [hrun]
  refine gives_mono (h.cofactor hf v value) fun p hp => ?_
  rcases hp with ⟨r, hresult, hmade, hrestricts⟩ | ⟨hunknown, -⟩
  · exact ⟨r, hresult, hmade.cofactored h hf hv hrestricts⟩
  · exact absurd hv hunknown

end Store

namespace Client

variable {c : Client} {f : NodeId} {v : Var}

/-- In every reachable state, restriction of a live node by a known variable, to be true or to be
false, is not rejected and gives the cofactor. -/
theorem restrict_cofactor (hc : Reachable c) (hf : c.store.alive f) (hv : c.store.order.knows v)
    (value : Bool) :
    ∃ r t, Store.restrict f (if value then some v else none) (if value then none else some v)
        c.store = .ok (.ok r, t) ∧
      c.store.Cofactored f v value r t := by
  obtain ⟨⟨_, t⟩, hrun, r, rfl, hcofactored⟩ := hc.valid.restrict_cofactored hf hv value
  exact ⟨r, t, hrun, hcofactored⟩

/-- After an exchange the node `2` is an idle test of the variable `1`, over a test of the variable
`0`. That is met twice on the way down to the variable `2`, and what is made of it is the cofactor,
with no idle test on top. -/
theorem restrict_cofactor_exchanged : ∃ c : Client,
    (start 3 ⟨1, ⟨0⟩⟩).after [.create ⟨2⟩ .zero .one, .create ⟨1⟩ (.inner 0) (.inner 0),
      .createHeld ⟨0⟩ .zero (.inner 1), .swap ⟨0⟩ ⟨1⟩] = some c ∧
    c.store.diagram.branch? (.inner 2) = some ⟨⟨.inner 3, .inner 3⟩, ⟨1⟩⟩ ∧
    ∃ t, Store.restrict (.inner 2) (some ⟨2⟩) none c.store = .ok (.ok (.inner 4), t) ∧
      c.store.Cofactored (.inner 2) ⟨2⟩ true (.inner 4) t ∧
      t.diagram.branch? (.inner 4) = some ⟨⟨.zero, .one⟩, ⟨0⟩⟩ := by
  let calls : List Call := [.create ⟨2⟩ .zero .one, .create ⟨1⟩ (.inner 0) (.inner 0),
    .createHeld ⟨0⟩ .zero (.inner 1), .swap ⟨0⟩ ⟨1⟩]
  have hends : ((start 3 ⟨1, ⟨0⟩⟩).after calls).map (fun c =>
      (c.store.diagram.branch? (.inner 2), c.store.order.knows ⟨2⟩,
        (Store.restrict (.inner 2) (some ⟨2⟩) none c.store).toOption.map
          fun p => (p.1.toOption, p.2.diagram.branch? (.inner 4)))) =
      some (some ⟨⟨.inner 3, .inner 3⟩, ⟨1⟩⟩, true,
        some (some (.inner 4), some ⟨⟨.zero, .one⟩, ⟨0⟩⟩)) := by
    decide +kernel
  obtain ⟨c, hc, hfound⟩ := Option.map_eq_some_iff.mp hends
  simp only [Prod.mk.injEq] at hfound
  obtain ⟨hidle, hknows, hrestrict⟩ := hfound
  obtain ⟨r, t, hrun, hcofactored⟩ := restrict_cofactor (reachable_of_after hc)
    (Diagram.alive_of_branch? hidle) hknows true
  rw [if_pos rfl, if_pos rfl] at hrun
  rw [hrun] at hrestrict
  simp only [Except.toOption, Option.map_some, Option.some.injEq, Prod.mk.injEq] at hrestrict
  obtain ⟨rfl, hb⟩ := hrestrict
  exact ⟨c, hc, hidle, t, hrun, hcofactored, hb⟩

end Client

end DecisionGraph
