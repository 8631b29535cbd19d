import DecisionGraph.Proofs.Functions

/-!
# Deciding equivalence

Reduction and complement go different ways: one goes up level by level and asks no table, the other
comes down from the root and may answer from entries that were made under an earlier order. Both end
with a node that has no idle test below it. There is but one such node for each function, so both
give the same node wherever they give the same function, and equality of the nodes that they give
decides whether two nodes are equivalent, be they reduced or not.

* `Settles`, `Settles.eq` — a step that ends with the one reduced node of a function.
* `Valid.reduce_settles`, `Valid.negate_settles` — reduction and complement are such steps.
-/

namespace DecisionGraph

namespace Store

variable {s t u : Store} {held : Holding} {f g m n : NodeId} {F G : Array Bool → Bool}

/-- The step from `s` to `t` has ended with `n`, which denotes `F` and has no idle test below it. -/
structure Settles (s : Store) (held : Holding) (F : Array Bool → Bool) (n : NodeId) (t : Store) :
    Prop extends Built s held n t where
  denotes : t.Denotes n F
  reduced : t.diagram.Reduced n

/-- Nodes have the same values if and only if they denote the same function. -/
theorem Denotes.evaluate_eq_iff (hF : s.Denotes f F) (hG : s.Denotes g G) :
    (∀ values : Array Bool, values.size = s.varCount → s.evaluate f values = s.evaluate g values) ↔
      ∀ values : Array Bool, values.size = s.varCount → F values = G values := by
  refine forall₂_congr fun values hsize => ?_
  have hle := Nat.le_of_eq hsize.symm
  rw [hF values hle, hG values hle, Except.ok.injEq]

/-- A node with no idle test below it is settled already. -/
theorem Valid.settles (h : s.Valid held) (hn : s.diagram.alive n) (hF : s.Denotes n F)
    (hr : s.diagram.Reduced n) : s.Settles held F n s :=
  ⟨⟨h, .refl s, hn⟩, hF, hr⟩

/-- In a store that has grown, a node is still settled. -/
theorem Settles.grown (h : s.Settles held F m t) (h' : t.Built held n u) :
    t.Settles held F m u where
  valid := h'.valid
  grew := h'.grew
  alive := h'.grew.alive h.alive
  denotes := h'.denotes h.valid h.alive h.denotes
  reduced := h.reduced.extends h'.grew.grows.subset h.valid.closed h.alive

theorem Settles.varCount (h : s.Settles held F n t) : t.varCount = s.varCount :=
  congrArg VarOrder.size h.grew.order

/-- Two steps, one after the other, end with the same node if and only if the functions are the
same. -/
theorem Settles.eq_iff (h : s.Settles held F m t) (h' : t.Settles held G n u) :
    m = n ↔ ∀ values : Array Bool, values.size = s.varCount → F values = G values := by
  have hm := h.grown h'.toBuilt
  rw [← h.varCount, ← h'.varCount, ← hm.denotes.evaluate_eq_iff h'.denotes]
  constructor
  · rintro rfl values -
    rfl
  · intro heq
    exact h'.valid.ordered.eq_of_alike h'.valid.distinct hm.alive h'.alive hm.reduced h'.reduced
      ((h'.valid.alike_iff_evaluate hm.alive h'.alive).mpr heq)

theorem Settles.eq (h : s.Settles held F m t) (h' : t.Settles held F n u) : m = n :=
  (h.eq_iff h').mpr fun _ _ => rfl

/-- A function is constant if and only if its node is a terminal. -/
theorem Settles.isTerminal_iff (h : s.Settles held F n t) :
    n.isTerminal ↔ ∃ x, ∀ values : Array Bool, values.size = s.varCount → F values = x := by
  have hterminal : ∀ x, n = .terminal x ↔
      ∀ values : Array Bool, values.size = s.varCount → F values = x := fun x =>
    h.eq_iff (h.valid.settles rfl (h.valid.denotes_terminal x) (Diagram.reduced_terminal _ x))
  simp only [← hterminal]
  cases n with
  | terminal value => simp [NodeId.isTerminal]
  | inner i => simp [NodeId.isTerminal]

theorem Valid.reduce_settles (h : s.Valid held) (hf : s.diagram.alive f) (hF : s.Denotes f F) :
    Gives (s.reduce f) fun p => s.Settles held F p.1 p.2 := by
  refine gives_mono (h.reduce hf) fun ⟨r, t⟩ ⟨hmade, hreduces⟩ => ?_
  have hF' := hmade.denotes h hf hF
  have hf' := hmade.grew.alive hf
  rw [hmade.valid.denotes_iff hf'] at hF'
  exact ⟨hmade.toBuilt, (hmade.valid.denotes_iff hmade.alive).mpr fun values hvalues =>
    hreduces.stands.value _ _ (hF' values hvalues), hreduces.reduced⟩

theorem Valid.negate_settles (h : s.Valid held) (hf : s.diagram.alive f) (hF : s.Denotes f F) :
    Gives (s.negate f) fun p => s.Settles held (fun values => !F values) p.1 p.2 := by
  obtain ⟨⟨r, t⟩, hrun, hmade, hanswers⟩ := h.negate hf
  obtain ⟨_, hrun', -, hdenotes, -⟩ := h.negate_computes hf hF
  cases hrun.symm.trans hrun'
  exact ⟨(r, t), hrun, hmade.toBuilt, hdenotes, hanswers.reduced rfl rfl⟩

/-- The complement of the complement. -/
theorem Valid.negate_negate_settles (h : s.Valid held) (hf : s.diagram.alive f)
    (hF : s.Denotes f F) :
    ∃ n t m u, s.negate f = .ok (n, t) ∧ t.negate n = .ok (m, u) ∧ s.Settles held F m u := by
  obtain ⟨⟨n, t⟩, hn, hsettles⟩ := h.negate_settles hf hF
  obtain ⟨⟨m, u⟩, hm, hsettles'⟩ := hsettles.valid.negate_settles hsettles.alive hsettles.denotes
  refine ⟨n, t, m, u, hn, hm, hsettles.grew.built hsettles'.toBuilt,
    hsettles'.denotes.congr fun values => ?_, hsettles'.reduced⟩
  exact Bool.not_not _

end Store

namespace Client

variable {c : Client} {f g : NodeId}

/-- Reductions of two live nodes, one after the other, end with the same node if and only if the two
have the same values. They end with a terminal if and only if the values are all the same, and what
has been reduced is left as it is. -/
theorem reduce_eq_iff (hc : Reachable c) (hf : c.store.alive f) (hg : c.store.alive g) :
    (∀ values : Array Bool, c.store.varCount ≤ values.size →
      ∃ x y, c.store.evaluate f values = .ok x ∧ c.store.evaluate g values = .ok y) ∧
    ∃ m t n u, c.store.reduce f = .ok (m, t) ∧ t.reduce g = .ok (n, u) ∧
      (m = n ↔ ∀ values : Array Bool, values.size = c.store.varCount →
        c.store.evaluate f values = c.store.evaluate g values) ∧
      (m.isTerminal ↔ ∃ x, ∀ values : Array Bool, values.size = c.store.varCount →
        c.store.evaluate f values = .ok x) ∧
      ∃ w, t.reduce m = .ok (m, w) := by
  have hvalid := hc.valid
  obtain ⟨F, hF⟩ := hvalid.exists_denotes hf
  obtain ⟨G, hG⟩ := hvalid.exists_denotes hg
  refine ⟨fun values hvalues => ⟨F values, G values, hF values hvalues, hG values hvalues⟩, ?_⟩
  obtain ⟨⟨m, t⟩, hm, hsettles⟩ := hvalid.reduce_settles hf hF
  obtain ⟨⟨n, u⟩, hn, hsettles'⟩ := hsettles.valid.reduce_settles (hsettles.grew.alive hg)
    (hsettles.toBuilt.denotes hvalid hg hG)
  obtain ⟨⟨m', w⟩, hm', hagain⟩ := hsettles.valid.reduce_settles hsettles.alive hsettles.denotes
  obtain rfl := hsettles.eq hagain
  refine ⟨m, t, n, u, hm, hn, (hsettles.eq_iff hsettles').trans (hF.evaluate_eq_iff hG).symm, ?_,
    w, hm'⟩
  rw [hsettles.isTerminal_iff]
  refine exists_congr fun x => forall₂_congr fun values hsize => ?_
  rw [hF values (Nat.le_of_eq hsize.symm), Except.ok.injEq]

/-- A conjunction, and the same with an idle test in it, after an exchange: both are reduced to one
node, so they have the same values. -/
theorem reduce_eq_iff_swapped : ∃ c : Client,
    (start 3 ⟨1, ⟨0⟩⟩).after [.createHeld ⟨1⟩ .zero .one, .createHeld ⟨2⟩ .zero .zero,
      .createHeld ⟨0⟩ (.inner 1) (.inner 0), .createHeld ⟨0⟩ .zero (.inner 0),
      .swap ⟨0⟩ ⟨1⟩] = some c ∧
    ∀ values : Array Bool, values.size = c.store.varCount →
      c.store.evaluate (.inner 2) values = c.store.evaluate (.inner 3) values := by
  let calls : List Call := [.createHeld ⟨1⟩ .zero .one, .createHeld ⟨2⟩ .zero .zero,
    .createHeld ⟨0⟩ (.inner 1) (.inner 0), .createHeld ⟨0⟩ .zero (.inner 0), .swap ⟨0⟩ ⟨1⟩]
  have hends : ((start 3 ⟨1, ⟨0⟩⟩).after calls).map (fun c =>
      (c.store.alive (.inner 2), c.store.alive (.inner 3),
        (c.store.reduce (.inner 2)).toOption.bind fun p =>
          (p.2.reduce (.inner 3)).toOption.map fun q => decide (p.1 = q.1))) =
      some (true, true, some true) := by
    decide +kernel
  obtain ⟨c, hc, hends⟩ := Option.map_eq_some_iff.mp hends
  simp only [Prod.mk.injEq] at hends
  obtain ⟨h2, h3, hreduce⟩ := hends
  obtain ⟨-, m, t, n, u, hm, hn, heq, -⟩ := reduce_eq_iff (reachable_of_after hc) h2 h3
  simp only [hm, hn, Except.toOption, Option.bind_some, Option.map_some, Option.some.injEq,
    decide_eq_true_eq] at hreduce
  exact ⟨c, hc, heq.mp hreduce⟩

/-- The complement of the complement of a live node and what reduction makes of it are the same, in
whatever order they are asked for. So a node with no idle test below it is its own, and equivalent
nodes have the same complement. -/
theorem negate_negate_eq_reduce (hc : Reachable c) (hf : c.store.alive f) :
    (∃ n t m u w, c.store.negate f = .ok (n, t) ∧ t.negate n = .ok (m, u) ∧
      u.reduce f = .ok (m, w) ∧ (c.store.diagram.Reduced f → m = f)) ∧
    (∃ m t n u w, c.store.reduce f = .ok (m, t) ∧ t.negate f = .ok (n, u) ∧
      u.negate n = .ok (m, w)) ∧
    ∀ g, c.store.alive g → (∀ values : Array Bool, values.size = c.store.varCount →
        c.store.evaluate f values = c.store.evaluate g values) →
      ∃ n t u, c.store.negate f = .ok (n, t) ∧ t.negate g = .ok (n, u) := by
  have hvalid := hc.valid
  obtain ⟨F, hF⟩ := hvalid.exists_denotes hf
  refine ⟨?_, ?_, fun g hg heq => ?_⟩
  · obtain ⟨n, t, m, u, hn, hm, hsettles⟩ := hvalid.negate_negate_settles hf hF
    obtain ⟨⟨m', w⟩, hm', hsettles'⟩ := hsettles.valid.reduce_settles (hsettles.grew.alive hf)
      (hsettles.toBuilt.denotes hvalid hf hF)
    obtain rfl := hsettles.eq hsettles'
    exact ⟨n, t, m, u, w, hn, hm, hm', fun hr => ((hvalid.settles hf hF hr).eq hsettles).symm⟩
  · obtain ⟨⟨m, t⟩, hm, hsettles⟩ := hvalid.reduce_settles hf hF
    obtain ⟨n, u, m', w, hn, hm', hsettles'⟩ := hsettles.valid.negate_negate_settles
      (hsettles.grew.alive hf) (hsettles.toBuilt.denotes hvalid hf hF)
    obtain rfl := hsettles.eq hsettles'
    exact ⟨m, t, n, u, w, hm, hn, hm'⟩
  · obtain ⟨G, hG⟩ := hvalid.exists_denotes hg
    obtain ⟨⟨n, t⟩, hn, hsettles⟩ := hvalid.negate_settles hf hF
    obtain ⟨⟨n', u⟩, hn', hsettles'⟩ := hsettles.valid.negate_settles (hsettles.grew.alive hg)
      (hsettles.toBuilt.denotes hvalid hg hG)
    obtain rfl : n = n' := (hsettles.eq_iff hsettles').mpr fun values hsize =>
      congrArg not ((hF.evaluate_eq_iff hG).mp heq values hsize)
    exact ⟨n, t, u, hn, hn'⟩

/-- A node over an idle test, whose complement has been noted before an exchange. -/
theorem negate_negate_eq_reduce_noted : ∃ c : Client,
    (start 3 ⟨1, ⟨0⟩⟩).after [.createHeld ⟨1⟩ .zero .one, .createHeld ⟨2⟩ .zero .zero,
      .createHeld ⟨0⟩ (.inner 1) (.inner 0), .negate (.inner 2), .swap ⟨0⟩ ⟨1⟩] = some c ∧
    c.store.computed.results[(⟨.inner 2, .zero, .one⟩ : NodeTriple)]? = some (.inner 4) ∧
    ∃ n t m u w, c.store.negate (.inner 2) = .ok (n, t) ∧ t.negate n = .ok (m, u) ∧
      u.reduce (.inner 2) = .ok (m, w) := by
  let calls : List Call := [.createHeld ⟨1⟩ .zero .one, .createHeld ⟨2⟩ .zero .zero,
    .createHeld ⟨0⟩ (.inner 1) (.inner 0), .negate (.inner 2), .swap ⟨0⟩ ⟨1⟩]
  have hends : ((start 3 ⟨1, ⟨0⟩⟩).after calls).map (fun c => (c.store.alive (.inner 2),
      c.store.computed.results[(⟨.inner 2, .zero, .one⟩ : NodeTriple)]?)) =
        some (true, some (.inner 4)) := by
    decide +kernel
  obtain ⟨c, hc, hends⟩ := Option.map_eq_some_iff.mp hends
  rw [Prod.mk.injEq] at hends
  obtain ⟨⟨n, t, m, u, w, hn, hm, hm', -⟩, -⟩ :=
    negate_negate_eq_reduce (reachable_of_after hc) hends.1
  exact ⟨c, hc, hends.2, n, t, m, u, w, hn, hm, hm'⟩

end Client

end DecisionGraph
