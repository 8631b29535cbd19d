import DecisionGraph.Proofs.Canonicity
import DecisionGraph.Proofs.Runs

/-!
# The computed table does not show

What synthesis answers, and which nodes it makes, does not depend on what the computed table still
knows. Two runs in stores that differ in nothing but their tables go the same way until a question
is answered in one of them only. The other then computes the result anew. It must come to the same
node, as there is but one for each function; that node was there before, and as all that is made
lies below the result, nothing is made. So the stores differ in nothing but their tables again.

An entry may have come from any time in the past, under another order too: all that counts is that
what it says is true, and that there is no idle test below the node that it names. Below complements
there never is one. For if-then-else it is assumed here that there is no idle test at all.

* `Parallel` — two runs step by step.
* `Made.recalled` — a node that is found again is found without making any.
* `negateWithin_parallel`, `iteWithin_parallel` — the recursions.
* `Client.synthesis_transparent` — the calls in a reachable state.
-/

namespace DecisionGraph

/-- The two runs break off in the same way, or end with results that are related. -/
inductive Parallel {α β : Type} (R : α → β → Prop) : Except Fault α → Except Fault β → Prop where
  | fault (e : Fault) : Parallel R (.error e) (.error e)
  | ok {a : α} {b : β} (h : R a b) : Parallel R (.ok a) (.ok b)

namespace Parallel

variable {α β γ δ : Type} {R : α → β → Prop} {R' : β → α → Prop} {S : γ → δ → Prop}
  {x : Except Fault α} {y : Except Fault β} {f : α → Except Fault γ} {g : β → Except Fault δ}

theorem symm (h : Parallel R x y) (hR : ∀ a b, R a b → R' b a) : Parallel R' y x := by
  cases h with
  | fault e => exact .fault e
  | ok h => exact .ok (hR _ _ h)

theorem bind (h : Parallel R x y)
    (hfg : ∀ a b, x = .ok a → y = .ok b → R a b → Parallel S (f a) (g b)) :
    Parallel S (x >>= f) (y >>= g) := by
  cases h with
  | fault e => exact .fault e
  | ok h => exact hfg _ _ rfl rfl h

/-- Two runs with a common first part. -/
theorem same {g : α → Except Fault δ} (h : ∀ a, Parallel S (f a) (g a)) :
    Parallel S (x >>= f) (x >>= g) := by
  cases x with
  | error e => exact .fault e
  | ok a => exact h a

end Parallel

/-! ## Two results for the same operands -/

/-- Nodes that are selected from the same operands have the same function. -/
theorem Diagram.Selects.alike {d : Diagram} {f g h r r' : NodeId} (hs : d.Selects f g h r)
    (hs' : d.Selects f g h r') (hvalue : ∀ n ∈ [f, g, h], ∀ a, ∃ x, d.Value a n x) :
    d.Alike r d r' := by
  intro a x
  obtain ⟨xf, hf⟩ := hvalue f (by simp) a
  obtain ⟨xg, hg⟩ := hvalue g (by simp) a
  obtain ⟨xh, hh⟩ := hvalue h (by simp) a
  have hr := hs.value a _ _ _ hf hg hh
  have hr' := hs'.value a _ _ _ hf hg hh
  exact ⟨fun hx => hx.unique hr ▸ hr', fun hx => hx.unique hr' ▸ hr⟩

namespace Store

variable {s s₀ s₁ t t₁ : Store} {held : Holding} {v : Var} {f g h m n r : NodeId}
  {rank : NodeId → Nat} {x y : Except Fault (NodeId × Store)}

/-- Where a node without idle tests is there, a new result with its function is that node, and no
node has been made. -/
theorem Made.recalled (h : s.Made held r t) (hs : s.Valid held) (hr : t.diagram.Reduced r)
    (hm : s.diagram.alive m) (hrm : s.diagram.Reduced m)
    (halike : t.diagram.Alike r t.diagram m) : r = m ∧ s.Twin t := by
  have hsub := h.grew.grows.subset
  have heq : r = m := h.valid.ordered.eq_of_alike h.valid.distinct h.alive (h.grew.alive hm) hr
    (hrm.extends hsub hs.closed hm) halike
  refine ⟨heq, h.grew.still fun n hn => ?_⟩
  rcases Diagram.alive_iff.mp hn with hterminal | ⟨b, hb⟩
  · exact Diagram.alive_iff.mpr (Or.inl hterminal)
  · rcases h.adds n b hb with hb | ⟨-, r', hr', hbelow⟩
    · exact Diagram.alive_of_branch? hb
    · rw [List.mem_singleton.mp hr', heq] at hbelow
      exact (hbelow.shrink hsub hs.closed hm).2

/-! ## Steps that do not look into the table -/

/-- The same node, and stores with different computed tables at most. -/
def SameNode (p q : NodeId × Store) : Prop := p.1 = q.1 ∧ p.2.Twin q.2

theorem SameNode.symm {p q : NodeId × Store} (h : SameNode p q) : SameNode q p :=
  ⟨h.1.symm, h.2.symm⟩

theorem Twin.addRef (h : s.Twin t) (n : NodeId) : Parallel Twin (s.addRef n) (t.addRef n) := by
  obtain ⟨c, rfl⟩ := h
  by_cases ha : s.diagram.alive n
  · rw [addRef_eq s n ha, addRef_eq { s with computed := c } n ha]
    exact .ok ⟨c, rfl⟩
  · have hdead : ∀ u : Store, u.diagram = s.diagram → u.addRef n = .error (.dead n) :=
      fun u hu => if_neg (show ¬ u.diagram.alive n from hu ▸ ha)
    rw [hdead s rfl, hdead { s with computed := c } rfl]
    exact .fault _

theorem Twin.cons (h : s.Twin t) (v : Var) (low high : NodeId) :
    Parallel SameNode (s.cons v low high) (t.cons v low high) := by
  obtain ⟨c, rfl⟩ := h
  unfold Store.cons
  refine .same fun found => ?_
  cases found with
  | some n => exact .ok ⟨rfl, c, rfl⟩
  | none =>
    refine (Twin.addRef ⟨c, rfl⟩ low).bind fun s₁ _ _ _ h₁ => ?_
    refine (h₁.addRef high).bind fun s₂ _ _ _ h₂ => ?_
    obtain ⟨c, rfl⟩ := h₂
    refine .same fun ⟨result, unique⟩ => ?_
    cases result with
    | error e => exact .fault _
    | ok _ => exact .ok ⟨rfl, c, rfl⟩

theorem Twin.consReduced (h : s.Twin t) (v : Var) (low high : NodeId) :
    Parallel SameNode (s.consReduced v low high) (t.consReduced v low high) := by
  unfold Store.consReduced
  split
  · exact .ok ⟨rfl, h⟩
  · exact h.cons v low high

/-- The last step of both recursions. -/
theorem Twin.join (h : s.Twin t) (v : Var) (low high : NodeId) (key : NodeTriple) :
    Parallel SameNode
      (do let (r, s) ← s.consReduced v low high
          return (r, s.remember key r))
      (do let (r, t) ← t.consReduced v low high
          return (r, t.remember key r)) := by
  refine (h.consReduced v low high).bind fun ⟨r, s₁⟩ ⟨r', t₁⟩ _ _ ⟨hr, htwin⟩ => ?_
  obtain rfl : r = r' := hr
  exact .ok ⟨rfl, ((s₁.twin_setComputed _).symm.trans htwin).trans (t₁.twin_setComputed _)⟩

/-! ## The recursions -/

/-- A run that has the answer from the table, and another that computes it. -/
theorem parallel_of_known (hx : x = .ok (r, s₁)) (hknown : s.Made held r s₁) (htwin₁ : s.Twin s₁)
    (ha : ∀ n ∈ [f, g, h], s.diagram.alive n) (hr : s₁.diagram.Reduced r)
    (hselects : s₁.diagram.Selects f g h r) (htwin : s.Twin t) (ht : t.Valid held)
    (hy : Gives y fun p => t.Made held p.1 p.2 ∧ p.2.diagram.Selects f g h p.1 ∧
      p.2.diagram.Reduced p.1) : Parallel SameNode x y := by
  obtain ⟨⟨r', t'⟩, hy, hmade, hselects', hr'⟩ := hy
  have hsame : t.diagram = s₁.diagram := htwin.diagram.trans htwin₁.diagram.symm
  have halive : t.diagram.alive r := hsame ▸ hknown.alive
  have ha₁ : ∀ n ∈ [r, f, g, h], s₁.diagram.alive n := by
    intro n hn
    rcases List.mem_cons.mp hn with rfl | hn
    · exact hknown.alive
    · exact htwin₁.diagram ▸ ha n hn
  have hgrows : s₁.diagram.Grows t'.diagram := hsame ▸ hmade.grew.grows
  have halike : t'.diagram.Alike r' t'.diagram r :=
    hselects'.alike (hselects.grows hgrows hknown.valid.closed ha₁) fun n hn a =>
      hmade.valid.exists_value (hmade.grew.alive (htwin.diagram ▸ ha n hn)) a
  obtain ⟨rfl, htwin'⟩ := hmade.recalled ht hr' halive (hsame ▸ hr) halike
  rw [hx, hy]
  exact .ok ⟨rfl, htwin₁.symm.trans (htwin.trans htwin')⟩

/-- The complement, computed in two stores that have grown from `s₀`. -/
theorem negateWithin_parallel (hr : s₀.diagram.Ranks s₀.order rank) (h₀ : s₀.Valid held) {k : Nat}
    (h : s.Valid held) (h' : t.Valid held) (htwin : s.Twin t) (hs : s₀.Grew s)
    (hf : s₀.diagram.alive f) (hk : rank f < k) :
    Parallel SameNode (negateWithin k f s) (negateWithin k f t) := by
  induction k generalizing f s t with
  | zero => omega
  | succ k ih =>
    cases f with
    | terminal value => exact .ok ⟨rfl, htwin⟩
    | inner i =>
      have ht := hs.trans htwin.grew
      have hgives : ∀ {u : Store}, u.Valid held → s₀.Grew u →
          Gives (negateWithin (k + 1) (.inner i) u) fun p => u.Made held p.1 p.2 ∧
            p.2.diagram.Selects (.inner i) .zero .one p.1 ∧ p.2.diagram.Reduced p.1 :=
        fun hu hgrew => gives_mono (negateWithin_gives hr h₀ hu hgrew hf hk)
          fun p ⟨hmade, hanswers, _⟩ => ⟨hmade, hanswers.toSelects, hanswers.reduced rfl rfl⟩
      have has : ∀ n ∈ [.inner i, .zero, .one], s.diagram.alive n := by simpa using hs.alive hf
      have hat : ∀ n ∈ [.inner i, .zero, .one], t.diagram.alive n := by simpa using ht.alive hf
      obtain ⟨result, s₁, hconsult, h₁, htwin₁, hfound⟩ :=
        h.consult (k := ⟨.inner i, .zero, .one⟩) has
      obtain ⟨result', t₁, hconsult', h₁', htwin₁', hfound'⟩ :=
        h'.consult (k := ⟨.inner i, .zero, .one⟩) hat
      cases result with
      | some r =>
        obtain ⟨hmade, hanswers⟩ := hfound r rfl
        exact parallel_of_known (negateWithin_hit k hconsult) hmade htwin₁ has
          (hanswers.reduced rfl rfl) hanswers.toSelects htwin h' (hgives h' ht)
      | none =>
        cases result' with
        | some r =>
          obtain ⟨hmade, hanswers⟩ := hfound' r rfl
          exact (parallel_of_known (negateWithin_hit k hconsult') hmade htwin₁' hat
            (hanswers.reduced rfl rfl) hanswers.toSelects htwin.symm h (hgives h hs)).symm
              fun _ _ => SameNode.symm
        | none =>
          obtain ⟨b, hb⟩ := Diagram.exists_branch hf
          obtain ⟨hlow, hhigh⟩ := h₀.closed _ b hb
          obtain ⟨hranklow, hrankhigh⟩ := hr.children h₀.layered hb
          have hs₁ := hs.trans htwin₁.grew
          have ht₁ := ht.trans htwin₁'.grew
          rw [negateWithin_miss k hconsult (hs₁.branch? hb),
            negateWithin_miss k hconsult' (ht₁.branch? hb)]
          refine (ih h₁ h₁' (htwin₁.symm.trans (htwin.trans htwin₁')) hs₁ hlow (by omega)).bind
            fun ⟨low, s₂⟩ ⟨low', t₂⟩ hx hy ⟨hsame, htwin₂⟩ => ?_
          obtain rfl : low = low' := hsame
          have hmade := ((negateWithin_gives hr h₀ h₁ hs₁ hlow (by omega)).of_eq hx).1
          have hmade' := ((negateWithin_gives hr h₀ h₁' ht₁ hlow (by omega)).of_eq hy).1
          refine (ih hmade.valid hmade'.valid htwin₂ (hs₁.trans hmade.grew) hhigh (by omega)).bind
            fun ⟨high, s₃⟩ ⟨high', t₃⟩ _ _ ⟨hsame, htwin₃⟩ => ?_
          obtain rfl : high = high' := hsame
          exact htwin₃.join b.var low high _

/-- If-then-else, computed in two stores that have grown from `s₀` and have no idle tests. -/
theorem iteWithin_parallel (hr : s₀.diagram.Ranks s₀.order rank) (h₀ : s₀.Valid held) {k : Nat}
    (h' : s.Valid held) (h'' : t.Valid held) (hidle : s.diagram.NoIdle) (htwin : s.Twin t)
    (hs : s₀.Grew s) (ha : ∀ n ∈ [f, g, h], s₀.diagram.alive n)
    (hk : ∀ n ∈ [f, g, h], rank n + 1 < k) :
    Parallel SameNode (iteWithin k f g h s) (iteWithin k f g h t) := by
  induction k generalizing f g h s t with
  | zero => exact absurd (hk f List.mem_cons_self) (Nat.not_lt_zero _)
  | succ k ih =>
    have ht := hs.trans htwin.grew
    have hidle' : t.diagram.NoIdle := htwin.diagram ▸ hidle
    rcases iteWithin_cases k f g h with ⟨r, hr', -, hrun⟩ | ⟨⟨rfl, rfl⟩, hrun⟩ | hp
    · rw [hrun, hrun]
      exact .ok ⟨rfl, htwin⟩
    · have hkf := hk f (by simp)
      rw [hrun, hrun]
      exact negateWithin_parallel hr h₀ h' h'' htwin hs (ha f (by simp)) (by omega)
    have hgives : ∀ {u : Store}, u.Valid held → s₀.Grew u → u.diagram.NoIdle →
        Gives (iteWithin (k + 1) f g h u) fun p => u.Made held p.1 p.2 ∧
          p.2.diagram.Selects f g h p.1 ∧ p.2.diagram.Reduced p.1 :=
      fun hu hgrew hidle => gives_mono (iteWithin_gives hr h₀ hu hgrew ha hk)
        fun p ⟨hmade, hselects, _⟩ =>
          ⟨hmade, hselects, (Diagram.Gains.noIdle hmade.adds hidle).reduced p.1⟩
    have has : ∀ n ∈ [f, g, h], s.diagram.alive n := fun n hn => hs.alive (ha n hn)
    have hat : ∀ n ∈ [f, g, h], t.diagram.alive n := fun n hn => ht.alive (ha n hn)
    obtain ⟨result, s₁, hconsult, h₁, htwin₁, hfound⟩ := h'.consult (k := ⟨f, g, h⟩) has
    obtain ⟨result', t₁, hconsult', h₁', htwin₁', hfound'⟩ := h''.consult (k := ⟨f, g, h⟩) hat
    have hidle₁ : s₁.diagram.NoIdle := htwin₁.diagram ▸ hidle
    cases result with
    | some r =>
      obtain ⟨hmade, hanswers⟩ := hfound r rfl
      exact parallel_of_known (hp.iteWithin_hit k hconsult) hmade htwin₁ has (hidle₁.reduced r)
        hanswers.toSelects htwin h'' (hgives h'' ht hidle')
    | none =>
      cases result' with
      | some r =>
        obtain ⟨hmade, hanswers⟩ := hfound' r rfl
        have hidle₁' : t₁.diagram.NoIdle := htwin₁'.diagram ▸ hidle'
        exact (parallel_of_known (hp.iteWithin_hit k hconsult') hmade htwin₁' hat
          (hidle₁'.reduced r) hanswers.toSelects htwin.symm h' (hgives h' hs hidle)).symm
            fun _ _ => SameNode.symm
      | none =>
        obtain ⟨v, hleads, hexpand⟩ := h₀.exists_expand hp ha
        have hs₁ := hs.trans htwin₁.grew
        have ht₁ := ht.trans htwin₁'.grew
        have hexpand := hexpand _ readsOff_cofactors
        rw [iteWithin_succ, hexpand _ _ s s₁ hs₁ hconsult, iteWithin_succ,
          hexpand _ _ t t₁ ht₁ hconsult']
        have hdown : ∀ {m}, s₀.order.levelOf v < s₀.diagram.levelIn s₀.order m → rank m + 1 < k :=
          fun hm => hleads.rank_lt hr (fun n hn => Nat.lt_of_succ_lt_succ (hk n hn)) hm
        have hlows := hleads.lows h₀ ha
        have hhighs := hleads.highs h₀ ha
        have hahigh := fun n hn => (hhighs n hn).1
        have hkhigh := fun n hn => hdown (hhighs n hn).2
        refine (ih h₁ h₁' hidle₁ (htwin₁.symm.trans (htwin.trans htwin₁')) hs₁ hahigh hkhigh).bind
          fun ⟨high, s₂⟩ ⟨high', t₂⟩ hx hy ⟨hsame, htwin₂⟩ => ?_
        obtain rfl : high = high' := hsame
        have hmade := ((iteWithin_gives hr h₀ h₁ hs₁ hahigh hkhigh).of_eq hx).1
        have hmade' := ((iteWithin_gives hr h₀ h₁' ht₁ hahigh hkhigh).of_eq hy).1
        refine (ih hmade.valid hmade'.valid (Diagram.Gains.noIdle hmade.adds hidle₁) htwin₂
          (hs₁.trans hmade.grew) (fun n hn => (hlows n hn).1)
          fun n hn => hdown (hlows n hn).2).bind
          fun ⟨low, s₃⟩ ⟨low', t₃⟩ _ _ ⟨hsame, htwin₃⟩ => ?_
        obtain rfl : low = low' := hsame
        exact htwin₃.join v low high _

/-! ## The calls -/

/-- The store with nothing changed but the computed table. -/
def withTable (s : Store) (table : ComputedTable) : Store := { s with computed := table }

theorem Valid.withTable (h : s.Valid held) {table : ComputedTable}
    (hsub : ∀ (k : NodeTriple) (r : NodeId), table.results[k]? = some r →
      s.computed.results[k]? = some r) : (s.withTable table).Valid held :=
  h.setComputed (h.faithful.of_subset hsub)

theorem Valid.negate_parallel (h : s.Valid held) {table : ComputedTable}
    (h' : (s.withTable table).Valid held) (hf : s.diagram.alive f) :
    Parallel SameNode (s.negate f) ((s.withTable table).negate f) := by
  refine negateWithin_parallel (Diagram.ranks_height _ _) h h h' (s.twin_setComputed table)
    (.refl s) hf ?_
  have := s.diagram.height_le s.order f
  simp only [Diagram.depth]
  omega

theorem Valid.ite_parallel (h' : s.Valid held) {table : ComputedTable}
    (h'' : (s.withTable table).Valid held) (hidle : s.diagram.NoIdle)
    (ha : ∀ n ∈ [f, g, h], s.diagram.alive n) :
    Parallel SameNode (s.ite f g h) ((s.withTable table).ite f g h) := by
  refine iteWithin_parallel (Diagram.ranks_height _ _) h' h' h'' hidle (s.twin_setComputed table)
    (.refl s) ha fun n _ => ?_
  have := s.diagram.height_le s.order n
  simp only [Diagram.depth]
  omega

/-- The two runs end with the same node, and in stores in which nothing but the table differs. -/
theorem exists_withTable {P : NodeId × Store → Prop} (h : Parallel SameNode x y) (hx : Gives x P) :
    ∃ r t table, x = .ok (r, t) ∧ y = .ok (r, t.withTable table) := by
  obtain ⟨⟨r, t⟩, rfl, -⟩ := hx
  cases h with
  | @ok _ q h =>
    obtain ⟨r', t'⟩ := q
    obtain ⟨hr, table, ht⟩ := h
    obtain rfl : r = r' := hr
    obtain rfl : t' = t.withTable table := ht
    exact ⟨r, t, table, rfl, rfl⟩

end Store

namespace Client

variable {c : Client}

/-- In a reachable state without idle tests, synthesis gives the same node with any part of what the
computed table knows, and leaves the same store but for the table. -/
theorem synthesis_transparent (hc : Reachable c) (hidle : c.store.diagram.NoIdle)
    {table : ComputedTable} (hsub : ∀ (k : NodeTriple) (r : NodeId), table.results[k]? = some r →
      c.store.computed.results[k]? = some r) :
    (∀ f g h, c.store.alive f → c.store.alive g → c.store.alive h →
      ∃ r t table', c.store.ite f g h = .ok (r, t) ∧
        (c.store.withTable table).ite f g h = .ok (r, t.withTable table')) ∧
    ∀ f, c.store.alive f →
      ∃ r t table', c.store.negate f = .ok (r, t) ∧
        (c.store.withTable table).negate f = .ok (r, t.withTable table') := by
  have hvalid := hc.valid
  have hvalid' := hvalid.withTable hsub
  refine ⟨fun f g h hf hg hh => ?_, fun f hf => ?_⟩
  · have ha : ∀ n ∈ [f, g, h], c.store.diagram.alive n := by simpa using ⟨hf, hg, hh⟩
    exact Store.exists_withTable (hvalid.ite_parallel hvalid' hidle ha) (hvalid.ite ha)
  · exact Store.exists_withTable (hvalid.negate_parallel hvalid' hf) (hvalid.negate hf)

/-- A conjunction that was noted before an exchange, asked for again with the table empty. -/
theorem synthesis_transparent_swapped : ∃ c : Client,
    (start 2 ⟨1, ⟨0⟩⟩).after [.createHeld ⟨1⟩ .zero .one, .createHeld ⟨0⟩ .zero .one,
      .and (.inner 1) (.inner 0), .reference (.inner 2), .swap ⟨0⟩ ⟨1⟩] = some c ∧
    c.store.computed.results[(⟨.inner 1, .inner 0, .zero⟩ : NodeTriple)]? = some (.inner 2) ∧
    c.store.diagram.NoIdle ∧
    (∀ (k : NodeTriple) (r : NodeId), ComputedTable.empty.results[k]? = some r →
      c.store.computed.results[k]? = some r) ∧
    (∃ r t table, c.store.ite (.inner 1) (.inner 0) .zero = .ok (r, t) ∧
      (c.store.withTable .empty).ite (.inner 1) (.inner 0) .zero = .ok (r, t.withTable table)) ∧
    ∃ r t table, c.store.negate (.inner 2) = .ok (r, t) ∧
      (c.store.withTable .empty).negate (.inner 2) = .ok (r, t.withTable table) := by
  let calls : List Call := [.createHeld ⟨1⟩ .zero .one, .createHeld ⟨0⟩ .zero .one,
    .and (.inner 1) (.inner 0), .reference (.inner 2), .swap ⟨0⟩ ⟨1⟩]
  have hends : ((start 2 ⟨1, ⟨0⟩⟩).after calls).map (fun c =>
      (c.store.computed.results[(⟨.inner 1, .inner 0, .zero⟩ : NodeTriple)]?,
        c.store.alive (.inner 0), c.store.alive (.inner 1), c.store.alive (.inner 2))) =
      some (some (.inner 2), true, true, true) := by
    decide +kernel
  obtain ⟨c, hc, hends⟩ := Option.map_eq_some_iff.mp hends
  simp only [Prod.mk.injEq] at hends
  obtain ⟨hnoted, h0, h1, h2⟩ := hends
  have hidle := noIdle_of_after (.start 2 ⟨1, ⟨0⟩⟩) Diagram.noIdle_empty
    (by decide : ∀ call ∈ calls, call.AvoidsIdle) hc
  have hsub : ∀ (k : NodeTriple) (r : NodeId), ComputedTable.empty.results[k]? = some r →
      c.store.computed.results[k]? = some r := fun k r hk => by simp [ComputedTable.empty] at hk
  obtain ⟨hite, hnegate⟩ := synthesis_transparent (reachable_of_after hc) hidle hsub
  exact ⟨c, hc, hnoted, hidle, hsub, hite _ _ _ h1 h0 rfl, hnegate _ h2⟩

end Client

end DecisionGraph
