import DecisionGraph.Proofs.Runs

/-!
# The functions of nodes

A live node of a valid store denotes one function of the values of the variables: what `evaluate`
finds. The nodes that synthesis returns denote the combinations that they are named for, in every
state that a client can reach. What else has happened to the store before does not matter, and the
operands need not be reduced. If no idle test has been asked for, there is but one live node for
each function.

* `Denotes`, `Valid.exists_denotes` — the function of a node.
* `Computes` — a step that ends with a node for a given function and keeps all others.
* `Valid.ite_computes`, `Valid.xor_computes`, ... — synthesis in a valid store.
-/

namespace DecisionGraph

namespace Store

variable {s t : Store} {held : Holding} {f g k n r : NodeId} {F G H : Array Bool → Bool}

/-- Whatever values the variables have, `n` has the value that `F` says. -/
def Denotes (s : Store) (n : NodeId) (F : Array Bool → Bool) : Prop :=
  ∀ values : Array Bool, s.varCount ≤ values.size → s.evaluate n values = .ok (F values)

/-- The step ends with a live node that denotes `F`. The nodes that were there are still there and
denote what they denoted, and the variables are the same. -/
def Computes (s : Store) (step : Except Fault (NodeId × Store)) (F : Array Bool → Bool) : Prop :=
  Gives step fun p => p.2.alive p.1 ∧ p.2.Denotes p.1 F ∧ p.2.order = s.order ∧
    ∀ n G, s.alive n → s.Denotes n G → p.2.alive n ∧ p.2.Denotes n G

/-! ## Denotations -/

theorem Denotes.congr (h : s.Denotes n F) (hFG : ∀ values, F values = G values) :
    s.Denotes n G := by
  intro values hvalues
  rw [← hFG, h values hvalues]

theorem Valid.denotes_iff (h : s.Valid held) (ha : s.diagram.alive n) :
    s.Denotes n F ↔ ∀ values : Array Bool, s.varCount ≤ values.size →
      s.diagram.Value (assignmentOf values) n (F values) :=
  forall_congr' fun _ => imp_congr_right fun hvalues => h.evaluate_eq_ok_iff ha hvalues

theorem Valid.exists_denotes (h : s.Valid held) (ha : s.diagram.alive n) : ∃ F, s.Denotes n F := by
  have hvalue : ∀ values : Array Bool, ∃ x, s.diagram.Value (assignmentOf values) n x :=
    fun values => h.exists_value ha _
  obtain ⟨F, hF⟩ := Classical.skolem.mp hvalue
  exact ⟨F, (h.denotes_iff ha).mpr fun values _ => hF values⟩

theorem Valid.denotes_terminal (h : s.Valid held) (value : Bool) :
    s.Denotes (.terminal value) fun _ => value :=
  (h.denotes_iff rfl).mpr fun _ _ => .terminal value

/-- What a node selects from denotations, it denotes. -/
theorem Valid.denotes_of_selects (h : s.Valid held) (hr : s.diagram.alive r)
    (hf : s.diagram.alive f) (hg : s.diagram.alive g) (hk : s.diagram.alive k)
    (hs : s.diagram.Selects f g k r) (hF : s.Denotes f F) (hG : s.Denotes g G)
    (hH : s.Denotes k H) : s.Denotes r fun values => if F values then G values else H values := by
  rw [h.denotes_iff hf] at hF
  rw [h.denotes_iff hg] at hG
  rw [h.denotes_iff hk] at hH
  apply (h.denotes_iff hr).mpr
  intro values hvalues
  exact hs.value _ _ _ _ (hF values hvalues) (hG values hvalues) (hH values hvalues)

/-- A node denotes what it denoted, whatever has been built. -/
theorem Built.denotes (hb : s.Built held r t) (h : s.Valid held) (ha : s.diagram.alive n)
    (hF : s.Denotes n F) : t.Denotes n F := by
  rw [h.denotes_iff ha] at hF
  apply (hb.valid.denotes_iff (hb.grew.alive ha)).mpr
  intro values hvalues
  have hcount : t.varCount = s.varCount := congrArg VarOrder.size hb.grew.order
  exact (hF values (hcount ▸ hvalues)).extends hb.grew.grows.subset

theorem Built.computes (hb : s.Built held r t) (h : s.Valid held)
    {step : Except Fault (NodeId × Store)} (hstep : step = .ok (r, t)) (hF : t.Denotes r F) :
    s.Computes step F :=
  ⟨(r, t), hstep, hb.alive, hF, hb.grew.order,
    fun _ _ ha hG => ⟨hb.grew.alive ha, hb.denotes h ha hG⟩⟩

/-! ## Synthesis -/

section Synthesis

variable (h : s.Valid held)

include h

theorem Valid.ite_computes (hf : s.diagram.alive f) (hg : s.diagram.alive g)
    (hk : s.diagram.alive k) (hF : s.Denotes f F) (hG : s.Denotes g G) (hH : s.Denotes k H) :
    s.Computes (s.ite f g k) fun values => if F values then G values else H values := by
  obtain ⟨⟨r, t⟩, hrun, hb, hs⟩ := h.ite (f := f) (g := g) (h := k) (by simpa using ⟨hf, hg, hk⟩)
  exact hb.toBuilt.computes h hrun (hb.valid.denotes_of_selects hb.alive (hb.grew.alive hf)
    (hb.grew.alive hg) (hb.grew.alive hk) hs (hb.denotes h hf hF) (hb.denotes h hg hG)
    (hb.denotes h hk hH))

theorem Valid.negate_computes (hf : s.diagram.alive f) (hF : s.Denotes f F) :
    s.Computes (s.negate f) fun values => !F values := by
  obtain ⟨⟨r, t⟩, hrun, hb, hs⟩ := h.negate hf
  have hselected := hb.valid.denotes_of_selects hb.alive (hb.grew.alive hf) rfl rfl hs.toSelects
    (hb.denotes h hf hF) (hb.valid.denotes_terminal false) (hb.valid.denotes_terminal true)
  exact hb.computes h hrun (hselected.congr fun values => by cases F values <;> rfl)

variable (hf : s.diagram.alive f) (hg : s.diagram.alive g) (hF : s.Denotes f F)
  (hG : s.Denotes g G)

include hf hg hF hG

theorem Valid.and_computes : s.Computes (s.and f g) fun values => F values && G values := by
  apply gives_mono (h.ite_computes hf hg rfl hF hG (h.denotes_terminal false))
  exact fun p ⟨ha, hr, hkept⟩ => ⟨ha, hr.congr fun values => by cases F values <;> rfl, hkept⟩

theorem Valid.or_computes : s.Computes (s.or f g) fun values => F values || G values := by
  apply gives_mono (h.ite_computes hf rfl hg hF (h.denotes_terminal true) hG)
  exact fun p ⟨ha, hr, hkept⟩ => ⟨ha, hr.congr fun values => by cases F values <;> rfl, hkept⟩

theorem Valid.implies_computes :
    s.Computes (s.implies f g) fun values => !F values || G values := by
  apply gives_mono (h.ite_computes hf hg rfl hF hG (h.denotes_terminal true))
  exact fun p ⟨ha, hr, hkept⟩ => ⟨ha, hr.congr fun values => by cases F values <;> rfl, hkept⟩

/-- The complement of `g` is made first, and then one of the two is selected. -/
theorem Valid.xor_computes : s.Computes (s.xor f g) fun values => F values ^^ G values := by
  obtain ⟨⟨r, t⟩, hrun, hb, n, -, -, hn, -, hnegated, hs⟩ := h.xor hf hg
  have hf' := hb.grew.alive hf
  have hg' := hb.grew.alive hg
  have hG' := hb.denotes h hg hG
  have hcomplement := hb.valid.denotes_of_selects hn hg' rfl rfl hnegated hG'
    (hb.valid.denotes_terminal false) (hb.valid.denotes_terminal true)
  have hselected := hb.valid.denotes_of_selects hb.alive hf' hn hg' hs (hb.denotes h hf hF)
    hcomplement hG'
  refine hb.computes h hrun (hselected.congr fun values => ?_)
  cases F values <;> cases G values <;> rfl

end Synthesis

end Store

namespace Client

variable {c : Client} {f g k : NodeId}

/-- In every reachable state, live nodes denote functions, and synthesis returns live nodes that
denote what is synthesized. -/
theorem synthesis_correct (hc : Reachable c) (hf : c.store.alive f) (hg : c.store.alive g)
    (hk : c.store.alive k) :
    ∃ F G H, c.store.Denotes f F ∧ c.store.Denotes g G ∧ c.store.Denotes k H ∧
      c.store.Computes (c.store.ite f g k) (fun a => if F a then G a else H a) ∧
      c.store.Computes (c.store.and f g) (fun a => F a && G a) ∧
      c.store.Computes (c.store.or f g) (fun a => F a || G a) ∧
      c.store.Computes (c.store.xor f g) (fun a => F a ^^ G a) ∧
      c.store.Computes (c.store.implies f g) (fun a => !F a || G a) ∧
      c.store.Computes (c.store.negate f) (fun a => !F a) := by
  have hvalid := hc.valid
  obtain ⟨F, hF⟩ := hvalid.exists_denotes hf
  obtain ⟨G, hG⟩ := hvalid.exists_denotes hg
  obtain ⟨H, hH⟩ := hvalid.exists_denotes hk
  exact ⟨F, G, H, hF, hG, hH, hvalid.ite_computes hf hg hk hF hG hH,
    hvalid.and_computes hf hg hF hG, hvalid.or_computes hf hg hF hG,
    hvalid.xor_computes hf hg hF hG, hvalid.implies_computes hf hg hF hG,
    hvalid.negate_computes hf hF⟩

/-- The operands of a conjunction that was noted before an exchange of its two variables, and a node
that the exchange has made an idle test. -/
theorem synthesis_correct_swapped : ∃ c : Client,
    (start 2 ⟨1, ⟨0⟩⟩).after [.createHeld ⟨1⟩ .zero .one, .createHeld ⟨0⟩ .zero .one,
      .and (.inner 0) (.inner 1), .reference (.inner 2), .createHeld ⟨1⟩ .one .one,
      .createHeld ⟨0⟩ (.inner 3) .zero, .swap ⟨0⟩ ⟨1⟩] = some c ∧
    c.store.order.vars = #[⟨1⟩, ⟨0⟩] ∧
    c.store.computed.results[(⟨.inner 0, .inner 1, .zero⟩ : NodeTriple)]? = some (.inner 2) ∧
    c.store.diagram.branch? (.inner 4) = some ⟨⟨.inner 5, .inner 5⟩, ⟨1⟩⟩ ∧
    ∃ F G H, c.store.Denotes (.inner 0) F ∧ c.store.Denotes (.inner 1) G ∧
      c.store.Denotes (.inner 4) H ∧
      c.store.Computes (c.store.ite (.inner 0) (.inner 1) (.inner 4))
        (fun a => if F a then G a else H a) ∧
      c.store.Computes (c.store.and (.inner 0) (.inner 1)) (fun a => F a && G a) := by
  let calls : List Call := [.createHeld ⟨1⟩ .zero .one, .createHeld ⟨0⟩ .zero .one,
    .and (.inner 0) (.inner 1), .reference (.inner 2), .createHeld ⟨1⟩ .one .one,
    .createHeld ⟨0⟩ (.inner 3) .zero, .swap ⟨0⟩ ⟨1⟩]
  have hends : ((start 2 ⟨1, ⟨0⟩⟩).after calls).map (fun c =>
      ([NodeId.inner 0, .inner 1].all c.store.alive, c.store.order.vars,
        c.store.computed.results[(⟨.inner 0, .inner 1, .zero⟩ : NodeTriple)]?,
        c.store.diagram.branch? (.inner 4))) =
      some (true, #[⟨1⟩, ⟨0⟩], some (.inner 2), some ⟨⟨.inner 5, .inner 5⟩, ⟨1⟩⟩) := by
    decide +kernel
  obtain ⟨c, hc, hends⟩ := Option.map_eq_some_iff.mp hends
  simp only [Prod.mk.injEq, List.all_cons, List.all_nil, Bool.and_true, Bool.and_eq_true] at hends
  obtain ⟨⟨h0, h1⟩, horder, hnoted, hidle⟩ := hends
  obtain ⟨F, G, H, hF, hG, hH, hite, hand, -⟩ := synthesis_correct (reachable_of_after hc) h0 h1
    (Diagram.alive_of_branch? hidle)
  exact ⟨c, hc, horder, hnoted, hidle, F, G, H, hF, hG, hH, hite, hand⟩

/-! ## Equal functions -/

/-- If no call has asked for an idle test, there is none, whatever the order has come to. Then live
nodes are the same if and only if they have the same values. -/
theorem evaluate_eq_iff_eq {varCount : Nat} {config : Config} {calls : List Call}
    (h : (start varCount config).after calls = some c)
    (havoids : ∀ call ∈ calls, call.AvoidsIdle) :
    (∀ n b, c.store.diagram.branch? n = some b → b.low ≠ b.high) ∧
      ∀ f g, c.store.alive f → c.store.alive g →
        (∀ values : Array Bool, c.store.varCount ≤ values.size →
          ∃ x, c.store.evaluate f values = .ok x) ∧
        ((∀ values : Array Bool, values.size = c.store.varCount →
          c.store.evaluate f values = c.store.evaluate g values) ↔ f = g) := by
  have hidle := noIdle_of_after (.start varCount config) Diagram.noIdle_empty havoids h
  have hvalid := (reachable_of_after h).valid
  refine ⟨Diagram.noIdle_iff.mp hidle, fun f g hf hg => ⟨fun values hvalues => ?_, ?_, ?_⟩⟩
  · obtain ⟨F, hF⟩ := hvalid.exists_denotes hf
    exact ⟨F values, hF values hvalues⟩
  · intro heq
    have halike := (hvalid.alike_iff_evaluate hf hg).mpr heq
    exact hvalid.ordered.eq_of_alike hvalid.distinct hf hg (hidle.reduced f) (hidle.reduced g)
      halike
  · rintro rfl values -
    rfl

/-- A conjunction that is made once more after an exchange, and an operand of it. -/
theorem evaluate_eq_iff_eq_swapped : ∃ c : Client,
    (start 2 ⟨1, ⟨0⟩⟩).after [.createHeld ⟨0⟩ .zero .one, .createHeld ⟨1⟩ .zero .one,
      .and (.inner 0) (.inner 1), .reference (.inner 2), .swap ⟨0⟩ ⟨1⟩,
      .and (.inner 1) (.inner 0)] = some c ∧
    (∀ n b, c.store.diagram.branch? n = some b → b.low ≠ b.high) ∧
    ¬ ∀ values : Array Bool, values.size = c.store.varCount →
      c.store.evaluate (.inner 1) values = c.store.evaluate (.inner 2) values := by
  let calls : List Call := [.createHeld ⟨0⟩ .zero .one, .createHeld ⟨1⟩ .zero .one,
    .and (.inner 0) (.inner 1), .reference (.inner 2), .swap ⟨0⟩ ⟨1⟩, .and (.inner 1) (.inner 0)]
  have hends : ((start 2 ⟨1, ⟨0⟩⟩).after calls).map
      (fun c => [NodeId.inner 1, .inner 2].all c.store.alive) = some true := by
    decide +kernel
  obtain ⟨c, hc, halive⟩ := Option.map_eq_some_iff.mp hends
  simp only [List.all_cons, List.all_nil, Bool.and_true, Bool.and_eq_true] at halive
  have havoids : ∀ call ∈ calls, call.AvoidsIdle := by decide
  obtain ⟨hbranches, hsame⟩ := evaluate_eq_iff_eq hc havoids
  refine ⟨c, hc, hbranches, fun heq => ?_⟩
  have h12 := (hsame _ _ halive.1 halive.2).2.mp heq
  cases h12

end Client

end DecisionGraph
