import DecisionGraph.Proofs.Frame
import DecisionGraph.Proofs.Transparency

/-!
# The normal form of a node

Reduction takes the idle tests out from below a root and makes one node of all those that come to
have one shape. It does so beside the graph of the root, and leaves that as it is: what was there
stays, and what is new is needed for the node that is returned. A root with no idle test below it is
in normal form already. There is but one such node for its function, so reduction must come back to
the root itself, and since all that is made lies below the root, nothing is made.

* `Normalizes`, `Valid.reduce_normalizes` — what reduction makes of a root.
* `Valid.reduce_eq_self` — a root in normal form is left alone.
* `Valid.reduce_size_le` — no node of the same function is smaller than the normal form.
-/

namespace DecisionGraph

namespace Store

variable {s t : Store} {held : Holding} {n r root : NodeId}

/-- From `s` to `t`, the normal form `r` of `root` has been made: a node with the same values, below
which there is no idle test and one node for each shape. No node has gone, come back or got another
branch, and all that was made lies below `r`. If the root was in normal form, nothing has
happened. -/
structure Normalizes (s : Store) (root r : NodeId) (t : Store) : Prop where
  alive : t.alive r
  value : ∀ values : Array Bool, s.varCount ≤ values.size →
    ∃ x, s.evaluate root values = .ok x ∧ t.evaluate r values = .ok x
  reduced : t.diagram.Reduced r
  distinct : ∀ m n b, t.diagram.Below r m → t.diagram.Below r n →
    t.diagram.branch? m = some b → t.diagram.branch? n = some b → m = n
  kept : ∀ n b, s.diagram.branch? n = some b → t.diagram.branch? n = some b
  order : t.order = s.order
  created : ∀ n, t.diagram.issued n → ¬ s.diagram.issued n → t.diagram.Below r n
  alive_of_issued : ∀ n, s.diagram.issued n → t.alive n → s.alive n
  still : s.diagram.Reduced root → r = root ∧ t = s

/-- What is made along with a node lies below it. -/
theorem Made.below_of_new (h : s.Made held r t) (hissued : t.diagram.issued n)
    (hnew : ¬ s.diagram.issued n) : t.diagram.Below r n := by
  obtain ⟨b, -, -, r', hr', hbelow⟩ := h.adds.exists_branch h.grew hissued hnew
  exact List.mem_singleton.mp hr' ▸ hbelow

/-- A root with no idle test below it is its own normal form. The normal form has its function, so
it is found and not made. -/
theorem Valid.reduce_eq_self (h : s.Valid held) (hroot : s.diagram.alive root)
    (hr : s.diagram.Reduced root) : s.reduce root = .ok (root, s) := by
  obtain ⟨⟨r, t⟩, hrun, hmade, hreduces⟩ := h.reduce hroot
  have halike := hmade.valid.alike_of_stands (hmade.grew.alive hroot) hreduces.stands
  obtain ⟨rfl, htwin⟩ := hmade.recalled h hreduces.reduced hroot hr halike.symm
  -- apart from the computed table nothing has changed, and reduction does not look at that
  obtain ⟨computed, rfl⟩ := htwin
  obtain rfl : computed = s.computed := reduce_computed rfl _ _ hrun
  exact hrun

/-- Reduction makes the normal form of a root. -/
theorem Valid.reduce_normalizes (h : s.Valid held) (hroot : s.diagram.alive root) :
    Gives (s.reduce root) fun p => s.Normalizes root p.1 p.2 := by
  obtain ⟨⟨r, t⟩, hrun, hmade, hreduces⟩ := h.reduce hroot
  obtain ⟨halike, -⟩ := hmade.size_le h hroot hreduces
  refine ⟨(r, t), hrun, hmade.alive, fun values hvalues => ?_, hreduces.reduced, ?_,
    fun n b => hmade.grew.branch?, hmade.grew.order, fun n => hmade.below_of_new,
    fun n hn => hmade.grew.grows.gone n (Diagram.issued_iff.mp hn), fun hr => ?_⟩
  · have horder : t.order = s.order := hmade.grew.order
    refine h.evaluate_of_alike hmade.valid hroot hmade.alive halike hvalues ?_
    simpa only [varCount, horder] using hvalues
  · exact fun m n b _ _ hm hn => hmade.valid.distinct m n b hm hn
  · rw [h.reduce_eq_self hroot hr, Except.ok.injEq, Prod.mk.injEq] at hrun
    exact ⟨hrun.1.symm, hrun.2.symm⟩

/-- The normal form of a root is there together with the root, and no node with the values of the
root is smaller. -/
theorem Valid.reduce_size_le (h : s.Valid held) (hroot : s.diagram.alive root) :
    Gives (s.reduce root) fun p => p.2.alive p.1 ∧ p.2.alive root ∧ ∀ n, p.2.alive n →
      (∀ values : Array Bool, values.size = p.2.varCount →
        p.2.evaluate n values = p.2.evaluate root values) →
      ∃ i j, p.2.size p.1 = .ok i ∧ p.2.size n = .ok j ∧ i ≤ j := by
  refine gives_mono (h.reduce hroot) fun ⟨r, t⟩ ⟨hmade, hreduces⟩ => ?_
  have hroot' : t.diagram.alive root := hmade.grew.alive hroot
  refine ⟨hmade.alive, hroot', fun n hn hvalues => ?_⟩
  have hstands := hmade.valid.alike_of_stands hroot' hreduces.stands
  have halike := (hmade.valid.alike_iff_evaluate hn hroot').mpr hvalues
  exact hmade.valid.size_le hmade.valid rfl hmade.alive hn hreduces.reduced
    (halike.trans hstands).symm

end Store

namespace Client

variable {c : Client} {root : NodeId}

/-- In every reachable state, reduction of a live root ends, and makes its normal form. -/
theorem reduce_canonical (hc : Reachable c) (hroot : c.store.alive root) :
    ∃ r t, c.store.reduce root = .ok (r, t) ∧ c.store.Normalizes root r t := by
  obtain ⟨⟨r, t⟩, hrun, hnormalizes⟩ := hc.valid.reduce_normalizes hroot
  exact ⟨r, t, hrun, hnormalizes⟩

/-- The idle test `1` stands over the node `0`, and in the normal form of the root `2` the latter
takes its place. That is in normal form itself, though the idle test is still there. -/
theorem reduce_canonical_idle : ∃ c : Client,
    (start 3 ⟨1, ⟨0⟩⟩).after [.create ⟨2⟩ .zero .one, .create ⟨1⟩ (.inner 0) (.inner 0),
      .createHeld ⟨0⟩ .zero (.inner 1)] = some c ∧
    ∃ t, c.store.reduce (.inner 2) = .ok (.inner 3, t) ∧
      c.store.Normalizes (.inner 2) (.inner 3) t ∧
      t.diagram.branch? (.inner 3) = some ⟨⟨.zero, .inner 0⟩, ⟨0⟩⟩ ∧ t.diagram.Idle (.inner 1) := by
  let calls : List Call := [.create ⟨2⟩ .zero .one, .create ⟨1⟩ (.inner 0) (.inner 0),
    .createHeld ⟨0⟩ .zero (.inner 1)]
  have hends : ((start 3 ⟨1, ⟨0⟩⟩).after calls).map (fun c =>
      (c.store.alive (.inner 2), c.store.diagram.branch? (.inner 1),
        (c.store.reduce (.inner 2)).toOption.map
          fun p => (p.1, p.2.diagram.branch? (.inner 3)))) =
      some (true, some ⟨⟨.inner 0, .inner 0⟩, ⟨1⟩⟩,
        some (.inner 3, some ⟨⟨.zero, .inner 0⟩, ⟨0⟩⟩)) := by
    decide +kernel
  obtain ⟨c, hc, hfound⟩ := Option.map_eq_some_iff.mp hends
  simp only [Prod.mk.injEq] at hfound
  obtain ⟨halive, hidle, hreduce⟩ := hfound
  obtain ⟨r, t, hrun, hnormalizes⟩ := reduce_canonical (reachable_of_after hc) halive
  rw [hrun, Except.toOption, Option.map_some, Option.some.injEq, Prod.mk.injEq] at hreduce
  obtain ⟨rfl, hb⟩ := hreduce
  exact ⟨c, hc, t, hrun, hnormalizes, hb, _, hnormalizes.kept _ _ hidle, rfl⟩

/-- In every reachable state, reduction of a live root ends, and there is then no live node of the
same function that is smaller than the one returned, reduced or not. -/
theorem reduce_minimal (hc : Reachable c) (hroot : c.store.alive root) :
    ∃ r t, c.store.reduce root = .ok (r, t) ∧ t.alive r ∧ t.alive root ∧ ∀ n, t.alive n →
      (∀ values : Array Bool, values.size = t.varCount →
        t.evaluate n values = t.evaluate root values) →
      ∃ i j, t.size r = .ok i ∧ t.size n = .ok j ∧ i ≤ j := by
  obtain ⟨⟨r, t⟩, hrun, hle⟩ := hc.valid.reduce_size_le hroot
  exact ⟨r, t, hrun, hle⟩

/-- An exchange has made the root an idle test. The normal form is the node below it, so the root
itself is larger. -/
theorem reduce_minimal_exchanged : ∃ c : Client,
    (start 3 ⟨1, ⟨0⟩⟩).after [.create ⟨2⟩ .zero .one, .create ⟨1⟩ (.inner 0) (.inner 0),
      .createHeld ⟨0⟩ .zero (.inner 1), .swap ⟨0⟩ ⟨1⟩] = some c ∧
    c.store.diagram.branch? (.inner 2) = some ⟨⟨.inner 3, .inner 3⟩, ⟨1⟩⟩ ∧
    ∃ t, c.store.reduce (.inner 2) = .ok (.inner 3, t) ∧
      ∃ i j, t.size (.inner 3) = .ok i ∧ t.size (.inner 2) = .ok j ∧ i ≤ j := by
  let calls : List Call := [.create ⟨2⟩ .zero .one, .create ⟨1⟩ (.inner 0) (.inner 0),
    .createHeld ⟨0⟩ .zero (.inner 1), .swap ⟨0⟩ ⟨1⟩]
  have hends : ((start 3 ⟨1, ⟨0⟩⟩).after calls).map (fun c =>
      (c.store.diagram.branch? (.inner 2),
        (c.store.reduce (.inner 2)).toOption.map Prod.fst)) =
      some (some ⟨⟨.inner 3, .inner 3⟩, ⟨1⟩⟩, some (.inner 3)) := by
    decide +kernel
  obtain ⟨c, hc, hfound⟩ := Option.map_eq_some_iff.mp hends
  rw [Prod.mk.injEq] at hfound
  obtain ⟨hidle, hreduce⟩ := hfound
  obtain ⟨r, t, hrun, -, hroot, hle⟩ :=
    reduce_minimal (reachable_of_after hc) (Diagram.alive_of_branch? hidle)
  rw [hrun, Except.toOption, Option.map_some, Option.some.injEq] at hreduce
  obtain rfl : r = .inner 3 := hreduce
  exact ⟨c, hc, hidle, t, hrun, hle _ hroot fun _ _ => rfl⟩

end Client

end DecisionGraph
