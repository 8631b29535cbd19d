import DecisionGraph.Proofs.Runs

/-!
# What synthesis adds

Synthesis does not give up a node that it has made, so one that it does not need would stay until a
sweep. It makes none of the kind: all that is new lies below the node that is returned. A new node
other than that one has an edge into it, and an edge is a reference. So nothing but the returned
node can be left without references, and to hold that is enough to hold all.

The exclusive or is the exception. It is put together from both phases of its second operand, and
makes the complement before it knows what is needed of it. The complement stays, with what lies
below it, and may be left without references too.

* `Adjoins` — nodes have been added for the sake of some roots, and nothing else has happened.
* `Adds.adjoins` — growth that is needed for roots adjoins nodes for them.
-/

namespace DecisionGraph

namespace Store

variable {s t : Store} {held : Holding} {roots : List NodeId} {f g n : NodeId}

/-- From `s` to `t` the order is the same, and every node that had been issued is what it was, or
gone if it was gone. What is new is no idle test, and lies below one of the roots, and if it is left
without references, it is one of them. -/
structure Adjoins (s : Store) (roots : List NodeId) (t : Store) : Prop where
  branch?_eq : ∀ n, s.diagram.issued n → t.diagram.branch? n = s.diagram.branch? n
  alive_eq : ∀ n, s.diagram.issued n → t.alive n = s.alive n
  order : t.order = s.order
  created : ∀ n, t.diagram.issued n → ¬ s.diagram.issued n →
    ∃ b, t.diagram.branch? n = some b ∧ b.low ≠ b.high ∧ ∃ r ∈ roots, t.diagram.Below r n
  unreferenced : ∀ n, t.diagram.issued n → ¬ s.diagram.issued n → t.refCount n = 0 → n ∈ roots

/-- Growth that is needed for roots adjoins nodes for them. A new node below a root is the root, or
it is the child of a node, which refers to it. -/
theorem Adds.adjoins (h : s.Adds roots t) (hgrew : s.Grew t) (ht : t.Valid held) :
    s.Adjoins roots t where
  branch?_eq n := hgrew.branch?_eq
  alive_eq n := hgrew.alive_eq
  order := hgrew.order
  created n := h.exists_branch hgrew
  unreferenced n hissued hnew hzero := by
    obtain ⟨b, -, -, r, hr, hbelow⟩ := h.exists_branch hgrew hissued hnew
    cases hbelow with
    | refl => exact hr
    | step _ edge => exact absurd hzero (Nat.ne_of_gt (ht.sound.refCount_pos_of_child edge))

theorem Made.adjoins (h : s.Made held n t) : s.Adjoins [n] t := h.adds.adjoins h.grew h.valid

/-- A restriction adds nodes for its result. If it is rejected, there is no result, and nothing is
added. -/
theorem Valid.restrict_adjoins (h : s.Valid held) (hf : s.diagram.alive f)
    (positive negative : Option Var) :
    Gives (Store.restrict f positive negative s) fun p =>
      s.Adjoins p.1.toOption.toList p.2 := by
  refine gives_mono (h.restrict hf positive negative) fun ⟨result, t⟩ hp => ?_
  rcases hp with ⟨r, rfl, hmade⟩ | ⟨e, hp, -⟩
  · exact hmade.adjoins
  · cases hp
    exact (Adds.refl s _).adjoins (.refl s) h

/-- The exclusive or adds nodes for its result and for the complement of its second operand. -/
theorem Valid.xor_adjoins (h : s.Valid held) (hf : s.diagram.alive f) (hg : s.diagram.alive g) :
    ∃ n u, s.negate g = .ok (n, u) ∧ Gives (s.xor f g) fun p => s.Adjoins [n, p.1] p.2 := by
  obtain ⟨p, hrun, hbuilt, n, u, hnegate, -, hadds, -⟩ := h.xor hf hg
  exact ⟨n, u, hnegate, p, hrun, hadds.adjoins hbuilt.grew hbuilt.valid⟩

end Store

namespace Client

variable {c : Client} {f g k : NodeId}

/-- In every reachable state, synthesis from live nodes ends and adds no more than its result needs;
the exclusive or adds what its result and the complement of its second operand need. -/
theorem synthesis_adjoins (hc : Reachable c) (hf : c.store.alive f) (hg : c.store.alive g)
    (hk : c.store.alive k) (positive negative : Option Var) :
    Gives (c.store.ite f g k) (fun p => c.store.Adjoins [p.1] p.2) ∧
      Gives (c.store.and f g) (fun p => c.store.Adjoins [p.1] p.2) ∧
      Gives (c.store.or f g) (fun p => c.store.Adjoins [p.1] p.2) ∧
      Gives (c.store.implies f g) (fun p => c.store.Adjoins [p.1] p.2) ∧
      Gives (c.store.negate f) (fun p => c.store.Adjoins [p.1] p.2) ∧
      Gives (Store.restrict f positive negative c.store)
        (fun p => c.store.Adjoins p.1.toOption.toList p.2) ∧
      ∃ n u, c.store.negate g = .ok (n, u) ∧
        Gives (c.store.xor f g) (fun p => c.store.Adjoins [n, p.1] p.2) := by
  have hvalid := hc.valid
  have hite := hvalid.ite (f := f) (g := g) (h := k) (by simpa using ⟨hf, hg, hk⟩)
  exact ⟨gives_mono hite fun _ ⟨hmade, _⟩ => hmade.adjoins,
    gives_mono (hvalid.and hf hg) fun _ ⟨hmade, _⟩ => hmade.adjoins,
    gives_mono (hvalid.or hf hg) fun _ ⟨hmade, _⟩ => hmade.adjoins,
    gives_mono (hvalid.implies hf hg) fun _ ⟨hmade, _⟩ => hmade.adjoins,
    gives_mono (hvalid.negate hf) fun _ ⟨hmade, _⟩ => hmade.adjoins,
    hvalid.restrict_adjoins hf positive negative, hvalid.xor_adjoins hf hg⟩

/-- After an exchange the node `2` is an idle test. For an implication the nodes `4` and `5` are
made, and the second refers to the first. They are also what the complement of the node `2` takes,
and in an exclusive or with that node the second is left without references, beside the result. -/
theorem synthesis_adjoins_exchanged : ∃ c : Client,
    (start 3 ⟨1, ⟨0⟩⟩).after [.create ⟨2⟩ .zero .one, .create ⟨1⟩ (.inner 0) (.inner 0),
      .createHeld ⟨0⟩ .zero (.inner 1), .swap ⟨0⟩ ⟨1⟩] = some c ∧
    (∃ t, c.store.ite (.inner 0) (.inner 2) .one = .ok (.inner 5, t) ∧
      c.store.Adjoins [.inner 5] t ∧ t.refCount (.inner 4) = 1 ∧ t.refCount (.inner 5) = 0) ∧
    ∃ t, c.store.xor (.inner 0) (.inner 2) = .ok (.inner 6, t) ∧
      c.store.Adjoins [.inner 5, .inner 6] t ∧
      t.refCount (.inner 4) = 1 ∧ t.refCount (.inner 5) = 0 := by
  let calls : List Call := [.create ⟨2⟩ .zero .one, .create ⟨1⟩ (.inner 0) (.inner 0),
    .createHeld ⟨0⟩ .zero (.inner 1), .swap ⟨0⟩ ⟨1⟩]
  have hends : ((start 3 ⟨1, ⟨0⟩⟩).after calls).map (fun c =>
      ([NodeId.inner 0, .inner 2].all c.store.alive,
        [c.store.ite (.inner 0) (.inner 2) .one, c.store.negate (.inner 2),
          c.store.xor (.inner 0) (.inner 2)].map fun x => x.toOption.map fun p =>
            (p.1, p.2.refCount (.inner 4), p.2.refCount (.inner 5)))) =
      some (true, [some (.inner 5, 1, 0), some (.inner 5, 1, 0), some (.inner 6, 1, 0)]) := by
    decide +kernel
  obtain ⟨c, hc, hfound⟩ := Option.map_eq_some_iff.mp hends
  simp only [Prod.mk.injEq, List.all_cons, List.all_nil, Bool.and_true, Bool.and_eq_true,
    List.map_cons, List.map_nil, List.cons.injEq, and_true] at hfound
  obtain ⟨⟨h0, h2⟩, hite, hnegate, hxor⟩ := hfound
  obtain ⟨⟨⟨r, t⟩, hrun, hadjoins⟩, -, -, -, -, -, n, u, hrun', ⟨m, t'⟩, hrun'', hadjoins'⟩ :=
    synthesis_adjoins (k := .one) (reachable_of_after hc) h0 h2 rfl none none
  simp only [hrun, Except.toOption, Option.map_some, Option.some.injEq, Prod.mk.injEq] at hite
  simp only [hrun', Except.toOption, Option.map_some, Option.some.injEq, Prod.mk.injEq] at hnegate
  simp only [hrun'', Except.toOption, Option.map_some, Option.some.injEq, Prod.mk.injEq] at hxor
  obtain ⟨rfl, hcounts⟩ := hite
  obtain ⟨rfl, -⟩ := hnegate
  obtain ⟨rfl, hcounts'⟩ := hxor
  exact ⟨c, hc, ⟨t, hrun, hadjoins, hcounts⟩, t', hrun'', hadjoins', hcounts'⟩

/-- The exclusive or with the terminal `0` is the other operand. The complement of that has been
made for it all the same, and is left without references. -/
theorem xor_leaves_complement : ∃ c : Client,
    (start 1 ⟨1, ⟨0⟩⟩).after [.createHeld ⟨0⟩ .zero .one] = some c ∧ Reachable c ∧
    c.store.alive (.inner 0) ∧ ∃ t, c.store.xor .zero (.inner 0) = .ok (.inner 0, t) ∧
      ¬ ∀ n, t.diagram.issued n → ¬ c.store.diagram.issued n → t.refCount n = 0 →
        n = .inner 0 := by
  have hends : ((start 1 ⟨1, ⟨0⟩⟩).after [.createHeld ⟨0⟩ .zero .one]).map (fun c =>
      (c.store.alive (.inner 0), c.store.diagram.issued (.inner 1),
        (c.store.xor .zero (.inner 0)).toOption.map
          fun p => (p.1, p.2.diagram.issued (.inner 1), p.2.refCount (.inner 1)))) =
      some (true, false, some (.inner 0, true, 0)) := by
    decide +kernel
  obtain ⟨c, hc, hfound⟩ := Option.map_eq_some_iff.mp hends
  simp only [Prod.mk.injEq] at hfound
  obtain ⟨halive, hnew, hxor⟩ := hfound
  have hreachable := reachable_of_after hc
  obtain ⟨⟨r, t⟩, hrun, -⟩ := hreachable.valid.xor (f := .zero) rfl halive
  simp only [hrun, Except.toOption, Option.map_some, Option.some.injEq, Prod.mk.injEq] at hxor
  obtain ⟨rfl, hissued, hcount⟩ := hxor
  refine ⟨c, hc, hreachable, halive, t, hrun, fun honly => ?_⟩
  have hsame := honly _ hissued (Bool.not_eq_true _ ▸ hnew) hcount
  cases hsame

end Client

end DecisionGraph
