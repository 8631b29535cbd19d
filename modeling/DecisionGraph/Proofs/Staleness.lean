import DecisionGraph.Proofs.Noting
import DecisionGraph.Proofs.Transparency

/-!
# Handles that are gone

A reader who names a dead node is told so. Synthesis asks the computed table first, and an entry
counts while its result is alive, whatever has become of its operands. So a handle that is gone is
still honoured where an earlier result for it is remembered, and only there: without such an entry
the first step of the expansion asks for the levels of all operands.

A sweep puts an end to that. It drops every entry with a dead operand, and no later call notes one,
because a dead node has no level, and it never comes back. So a handle that is gone at a sweep is
forgotten for good.

* `Recalls`, `Proper.ite_of_dead`, `negate_of_dead` — what synthesis does with dead operands.
* `Forgotten` — dead nodes that no entry has as an operand.
* `noting_forgotten`, `Step.forgotten` — they stay so.
* `synthesis_on_stale` — dead operands in any state, and after a sweep.
* `synthesis_honours_stale` — an entry that outlives its operand.
-/

namespace DecisionGraph

namespace Store

variable {s t : Store} {held : Holding} {f g h n r : NodeId} {k : NodeTriple}
  {α : Type}

/-! ## Dead operands -/

/-- The first of the nodes that is not there. -/
def firstDead? (s : Store) (ns : List NodeId) : Option NodeId := ns.find? fun n => !s.alive n

/-- The computed table has a live result for the operands `k`. -/
def Recalls (s : Store) (k : NodeTriple) (r : NodeId) : Prop :=
  s.computed.results[k]? = some r ∧ s.alive r

theorem Recalls.eq {r' : NodeId} (h : s.Recalls k r) (h' : s.Recalls k r') : r = r' :=
  Option.some.inj (h.1.symm.trans h'.1)

theorem exists_firstDead {ns : List NodeId} (h : ∃ n ∈ ns, ¬ s.alive n) :
    ∃ n ∈ ns, ¬ s.alive n ∧ s.firstDead? ns = some n := by
  obtain ⟨m, hm, hdead⟩ := h
  have hsome : (s.firstDead? ns).isSome :=
    List.find?_isSome.mpr ⟨m, hm, by simpa using hdead⟩
  obtain ⟨n, hn⟩ := Option.isSome_iff_exists.mp hsome
  refine ⟨n, List.mem_of_find?_eq_some hn, ?_, hn⟩
  have := List.find?_some hn
  simpa using this

theorem firstDead?_cons (n : NodeId) (ns : List NodeId) :
    s.firstDead? (n :: ns) = if s.alive n then s.firstDead? ns else some n := by
  rw [firstDead?, List.find?_cons]
  cases s.alive n <;> rfl

theorem levelOf_of_dead (h : ¬ s.alive n) : s.levelOf n = .error (.dead n) := by
  cases n with
  | terminal value => exact absurd rfl h
  | inner i =>
    rw [Store.alive, Diagram.alive_inner, Option.not_isSome_iff_eq_none] at h
    simp only [levelOf, Diagram.branch, h, bind, Except.bind]

/-- Asking for the levels of nodes ends at the first dead one. -/
theorem levelOf_bind {ns : List NodeId} {ask : Level → Except Fault α}
    (hn : s.firstDead? (f :: ns) = some n)
    (hask : ∀ l, s.firstDead? ns = some n → ask l = .error (.dead n)) :
    (s.levelOf f >>= ask) = .error (.dead n) := by
  rw [firstDead?_cons] at hn
  split at hn
  · rename_i halive
    rw [levelOf_eq halive]
    exact hask _ hn
  · rename_i hdead
    cases hn
    rw [levelOf_of_dead hdead]
    rfl

/-- A question to the computed table: the result that it recalls, or none. -/
theorem consult_cases (s : Store) (k : NodeTriple) :
    (∃ r t, s.Recalls k r ∧ s.Twin t ∧ s.consult k = (some r, t)) ∨
      (∀ r, ¬ s.Recalls k r) ∧ ∃ t, s.Twin t ∧ s.consult k = (none, t) := by
  cases hlookup : s.computed.lookup k s.diagram.alive with
  | mk result computed =>
    have hconsult : s.consult k = (result, { s with computed := computed }) := by
      rw [Store.consult, hlookup]
    cases result with
    | some r =>
      exact Or.inl ⟨r, _, ComputedTable.of_lookup (congrArg Prod.fst hlookup),
        s.twin_setComputed _, hconsult⟩
    | none =>
      refine Or.inr ⟨fun r hr => ?_, _, s.twin_setComputed _, hconsult⟩
      have halive : s.diagram.alive r = true := hr.2
      simp [ComputedTable.lookup, hr.1, halive] at hlookup

/-- Proper operands of which one is dead: the computed table is asked, and then their levels. -/
theorem Proper.ite_of_dead (hp : Proper f g h) (hn : s.firstDead? [f, g, h] = some n) :
    (∀ r, s.Recalls ⟨f, g, h⟩ r → ∃ t, s.ite f g h = .ok (r, t) ∧ s.Twin t) ∧
      ((∀ r, ¬ s.Recalls ⟨f, g, h⟩ r) → s.ite f g h = .error (.dead n)) := by
  rcases s.consult_cases ⟨f, g, h⟩ with
    ⟨r, t, hrecalls, htwin, hconsult⟩ | ⟨hnone, t, htwin, hconsult⟩
  · refine ⟨fun r' hr' => ?_, fun hno => absurd hrecalls (hno r)⟩
    obtain rfl := hrecalls.eq hr'
    exact ⟨t, hp.ite_hit hconsult, htwin⟩
  · refine ⟨fun r hr => absurd hr (hnone r), fun _ => ?_⟩
    obtain ⟨c, rfl⟩ := htwin
    have hdepth : 3 * s.diagram.depth = 3 * s.diagram.slots.size + 2 + 1 := rfl
    rw [Store.ite, hdepth, iteWithin_succ, hp.iteStep_miss hconsult]
    exact levelOf_bind hn fun _ hn => levelOf_bind hn fun _ hn => levelOf_bind hn fun _ hn =>
      nomatch hn

/-- The complement of a dead node: the computed table is asked, and then for the node. -/
theorem negate_of_dead (hf : ¬ s.alive f) :
    (∀ r, s.Recalls ⟨f, .zero, .one⟩ r → ∃ t, s.negate f = .ok (r, t) ∧ s.Twin t) ∧
      ((∀ r, ¬ s.Recalls ⟨f, .zero, .one⟩ r) → s.negate f = .error (.dead f)) := by
  cases f with
  | terminal value => exact absurd rfl hf
  | inner i =>
    rcases s.consult_cases ⟨.inner i, .zero, .one⟩ with
      ⟨r, t, hrecalls, htwin, hconsult⟩ | ⟨hnone, t, htwin, hconsult⟩
    · refine ⟨fun r' hr' => ?_, fun hno => absurd hrecalls (hno r)⟩
      obtain rfl := hrecalls.eq hr'
      exact ⟨t, negateWithin_hit _ hconsult, htwin⟩
    · refine ⟨fun r hr => absurd hr (hnone r), fun _ => ?_⟩
      obtain ⟨c, rfl⟩ := htwin
      rw [Store.alive, Diagram.alive_inner, Option.not_isSome_iff_eq_none] at hf
      simp only [Store.negate, Diagram.depth, negateWithin, hconsult, Diagram.branch, hf, bind,
        Except.bind]

/-! ## Forgotten nodes -/

/-- The node was there and is gone, and no entry of the computed table has it as an operand. -/
structure Forgotten (s : Store) (n : NodeId) : Prop where
  issued : s.diagram.issued n
  dead : ¬ s.diagram.alive n
  unmentioned : ∀ (k : NodeTriple) (r : NodeId), s.computed.results[k]? = some r → n ∉ k.word

theorem Forgotten.not_recalls (h : s.Forgotten n) (hk : n ∈ k.word) (r : NodeId) :
    ¬ s.Recalls k r := fun hr => h.unmentioned k r hr.1 hk

/-- What is forgotten stays so, if no node comes back and nothing is noted. -/
theorem Forgotten.later (h : s.Forgotten n)
    (hfresh : s.diagram.fresh.toNat ≤ t.diagram.fresh.toNat)
    (hgone : ∀ m, m.toNat < s.diagram.fresh.toNat → t.diagram.alive m → s.diagram.alive m)
    (hwithin : t.computed.Within s.computed) : t.Forgotten n where
  issued := Diagram.issued_iff.mpr (Nat.lt_of_lt_of_le (Diagram.issued_iff.mp h.issued) hfresh)
  dead ha := h.dead (hgone n (Diagram.issued_iff.mp h.issued) ha)
  unmentioned k r hk := h.unmentioned k r (hwithin k r hk)

/-- The same, where neither the diagram nor the computed table has changed. -/
theorem Forgotten.of_eq (h : s.Forgotten n) (hd : t.diagram = s.diagram)
    (hc : t.computed = s.computed) : t.Forgotten n :=
  h.later (Nat.le_of_eq (congrArg (fun d => d.fresh.toNat) hd.symm)) (fun _ _ ha => hd ▸ ha)
    (hc ▸ .refl _)

theorem Forgotten.consult {result : Option NodeId} (h : s.Forgotten n)
    (hconsult : s.consult k = (result, t)) : t.Forgotten n := by
  cases hconsult
  exact h.later (Nat.le_refl _) (fun _ _ ha => ha) (s.computed.lookup_within k s.diagram.alive)

theorem Forgotten.remember (h : s.Forgotten n) (hk : n ∉ k.word) (r : NodeId) :
    (s.remember k r).Forgotten n where
  issued := h.issued
  dead := h.dead
  unmentioned k' r' hk' := by
    rcases ComputedTable.of_insert hk' with ⟨rfl, -⟩ | hk'
    · exact hk
    · exact h.unmentioned k' r' hk'

theorem Forgotten.addRef (h : s.Forgotten n) (m : NodeId) :
    IfGives (s.addRef m) fun t => t.Forgotten n := by
  unfold Store.addRef
  split
  · exact ifGives_ok (h.of_eq rfl rfl)
  · exact ifGives_error

theorem Forgotten.placed (h : s.Forgotten n) (b : Branch) : (s.placed b).Forgotten n :=
  have hgrows := Diagram.grows_push s.diagram b
  h.later hgrows.fresh_le hgrows.gone (.refl _)

theorem Forgotten.cons (h : s.Forgotten n) (v : Var) (low high : NodeId) :
    IfGives (s.cons v low high) fun p => p.2.Forgotten n := by
  unfold Store.cons
  refine .bind_of_forall fun found => ?_
  cases found with
  | some m => exact ifGives_ok h
  | none =>
    refine ((h.placed ⟨⟨low, high⟩, v⟩).addRef low).bind fun t ht => ?_
    refine (ht.addRef high).bind fun u hu => .bind_of_forall fun ⟨result, unique⟩ => ?_
    cases result with
    | error e => exact ifGives_error
    | ok _ => exact ifGives_ok (hu.of_eq rfl rfl)

theorem Forgotten.consReduced (h : s.Forgotten n) (v : Var) (low high : NodeId) :
    IfGives (s.consReduced v low high) fun p => p.2.Forgotten n := by
  unfold Store.consReduced
  split
  · exact ifGives_ok h
  · exact h.cons v low high

/-- A forgotten node is none of those that synthesis notes a result for. -/
theorem noting_forgotten (n : NodeId) : Noting (fun s => s.Forgotten n) fun m => m ≠ n where
  known_of_alive h ha heq := h.dead (heq ▸ ha)
  consult _ h := h.consult rfl
  consReduced v low high h := h.consReduced v low high
  remember r h _ hk := h.remember (fun hn => hk n hn rfl) r

/-- No call brings a dead node back, and none notes a result for it. -/
theorem Valid.perform_forgets (h : s.Valid held) {call : Call}
    (permitted : Client.Permits ⟨s, held⟩ call) (hn : s.Forgotten n) :
    Gives (s.perform call) fun p => p.2.Forgotten n := by
  by_cases hs : call.Synthesizes
  · exact gives_mono ((h.perform permitted).and ((noting_forgotten n).perform hs hn))
      fun _ hp => hp.2
  · exact gives_mono ((h.perform permitted).and (perform_within hs))
      fun p ⟨hperformed, hwithin⟩ => hn.later hperformed.moves.evolves.fresh_le
        hperformed.moves.evolves.gone hwithin

/-- What is dead after a sweep is forgotten. -/
theorem Swept.forgotten {count : Nat} (h : s.Swept count t) (hn : t.diagram.issued n)
    (hdead : ¬ t.diagram.alive n) : t.Forgotten n :=
  ⟨hn, hdead, fun _ _ hk hmem => hdead
    ((ComputedTable.purge_eq_some_iff.mp (h.computed ▸ hk)).2 n (List.mem_cons_of_mem _ hmem))⟩

end Store

namespace Client

open Relation (ReflTransGen)

variable {c d : Client} {n : NodeId}

theorem Step.forgotten (h : Step c d) (hc : Reachable c) (hn : c.store.Forgotten n) :
    d.store.Forgotten n := by
  cases h with
  | call permitted performed => exact (hc.valid.perform_forgets permitted hn).of_eq performed

/-- What is forgotten once is forgotten for good. -/
theorem forgotten_of_run (hc : Reachable c) (hn : c.store.Forgotten n)
    (run : ReflTransGen Step c d) : d.store.Forgotten n := by
  induction run with
  | refl => exact hn
  | tail run hstep ih => exact hstep.forgotten (hc.run run).1 ih

/-- In every reachable state, synthesis honours a dead operand if and only if the computed table has
a live result for it, and fails otherwise as it does with an empty table: the fault names the first
dead operand. After a sweep, a handle that is gone is not honoured any more, whatever comes next. -/
theorem synthesis_on_stale (hc : Reachable c) :
    (∀ f g k n, Store.Proper f g k → c.store.firstDead? [f, g, k] = some n →
      (∀ r, c.store.Recalls ⟨f, g, k⟩ r → ∃ t, c.store.ite f g k = .ok (r, t) ∧ c.store.Twin t) ∧
      ((∀ r, ¬ c.store.Recalls ⟨f, g, k⟩ r) → c.store.ite f g k = .error (.dead n)) ∧
      (c.store.withTable .empty).ite f g k = .error (.dead n)) ∧
    (∀ f, ¬ c.store.alive f →
      (∀ r, c.store.Recalls ⟨f, .zero, .one⟩ r →
        ∃ t, c.store.negate f = .ok (r, t) ∧ c.store.Twin t) ∧
      ((∀ r, ¬ c.store.Recalls ⟨f, .zero, .one⟩ r) → c.store.negate f = .error (.dead f)) ∧
      (c.store.withTable .empty).negate f = .error (.dead f)) ∧
    ∃ count t, c.store.collectGarbage = .ok (count, t) ∧
      ∀ d, ReflTransGen Step ⟨t, c.held⟩ d → ∀ n, t.diagram.issued n → ¬ t.alive n →
        (∀ f g k, Store.Proper f g k → n ∈ [f, g, k] →
          ∃ m ∈ [f, g, k], ¬ d.store.alive m ∧ d.store.ite f g k = .error (.dead m)) ∧
        d.store.negate n = .error (.dead n) := by
  have hempty : ∀ (k : NodeTriple) (r : NodeId), ¬ (c.store.withTable .empty).Recalls k r :=
    fun k r hr => by simpa [Store.withTable, ComputedTable.empty] using hr.1
  refine ⟨fun f g k n hp hn => ?_, fun f hf => ?_, ?_⟩
  · obtain ⟨hknown, hunknown⟩ := hp.ite_of_dead hn
    exact ⟨hknown, hunknown,
      (hp.ite_of_dead (s := c.store.withTable .empty) hn).2 (hempty ⟨f, g, k⟩)⟩
  · obtain ⟨hknown, hunknown⟩ := Store.negate_of_dead hf
    exact ⟨hknown, hunknown,
      (Store.negate_of_dead (s := c.store.withTable .empty) hf).2 (hempty ⟨f, .zero, .one⟩)⟩
  · obtain ⟨⟨count, t⟩, hrun, -, hswept⟩ := hc.valid.collectGarbage_gives
    have hperform : c.store.perform .collectGarbage = .ok (.ok (.collected count), t) := by
      simp only [Store.perform, Store.answer, hrun]
      rfl
    have hpermitted : c.Permits .collectGarbage :=
      ⟨fun _ hmem => (List.not_mem_nil hmem).elim, trivial⟩
    have hreached : Reachable ⟨t, c.held⟩ := hc.step (.call hpermitted hperform)
    refine ⟨count, t, hrun, fun d run n hn hdead => ?_⟩
    have hforgotten := forgotten_of_run hreached (hswept.forgotten hn hdead) run
    refine ⟨fun f g k hp hmem => ?_, ?_⟩
    · obtain ⟨m, hm, hmdead, hfirst⟩ :=
        Store.exists_firstDead (s := d.store) ⟨n, hmem, hforgotten.dead⟩
      exact ⟨m, hm, hmdead, (hp.ite_of_dead hfirst).2 (hforgotten.not_recalls hmem)⟩
    · exact (Store.negate_of_dead hforgotten.dead).2
        (hforgotten.not_recalls (k := ⟨n, .zero, .one⟩) List.mem_cons_self)

/-- A test of which the complement was noted and is held. It is honoured after it was collected, but
not after a sweep, even if its function has been made anew. -/
theorem synthesis_on_stale_swept : ∃ c d : Client, ∃ count t,
    (start 2 ⟨1, ⟨0⟩⟩).after [.createHeld ⟨0⟩ .zero .one, .negate (.inner 0),
      .reference (.inner 1), .release (.inner 0)] = some c ∧
    (∃ u, c.store.negate (.inner 0) = .ok (.inner 1, u)) ∧
    c.store.collectGarbage = .ok (count, t) ∧
    (⟨t, c.held⟩ : Client).after [.create ⟨0⟩ .zero .one, .negate (.inner 1)] = some d ∧
    d.store.negate (.inner 0) = .error (.dead (.inner 0)) ∧
    d.store.ite (.inner 1) (.inner 0) .zero = .error (.dead (.inner 0)) := by
  let calls : List Call := [.createHeld ⟨0⟩ .zero .one, .negate (.inner 0),
    .reference (.inner 1), .release (.inner 0)]
  let later : List Call := [.create ⟨0⟩ .zero .one, .negate (.inner 1)]
  have hends : ((start 2 ⟨1, ⟨0⟩⟩).after calls).map (fun c =>
      (c.store.alive (.inner 0), c.store.alive (.inner 1),
        c.store.computed.results[(⟨.inner 0, .zero, .one⟩ : NodeTriple)]?)) =
      some (false, true, some (.inner 1)) := by
    decide +kernel
  have hswept : (((start 2 ⟨1, ⟨0⟩⟩).after calls).bind fun c =>
      c.store.collectGarbage.toOption.bind fun p => (after ⟨p.2, c.held⟩ later).map fun d =>
        (p.2.diagram.issued (.inner 0), p.2.alive (.inner 0), d.store.alive (.inner 1))) =
      some (true, false, true) := by
    decide +kernel
  obtain ⟨c, hc, hends⟩ := Option.map_eq_some_iff.mp hends
  obtain ⟨-, hnegate, count, t, hrun, hlater⟩ := synthesis_on_stale (reachable_of_after hc)
  rw [hc, Option.bind_some, hrun, Except.toOption, Option.bind_some] at hswept
  obtain ⟨d, hd, hswept⟩ := Option.map_eq_some_iff.mp hswept
  simp only [Prod.mk.injEq] at hends hswept
  obtain ⟨hgone, hlive, hnoted⟩ := hends
  obtain ⟨hissued, hdead, hdlive⟩ := hswept
  obtain ⟨u, hhonoured, -⟩ := (hnegate _ (by simp [hgone])).1 (.inner 1) ⟨hnoted, hlive⟩
  obtain ⟨hite, hnegate'⟩ :=
    hlater d (run_iff_after.mpr ⟨later, hd⟩) (.inner 0) hissued (by simp [hdead])
  obtain ⟨m, hm, hmdead, hfault⟩ := hite (.inner 1) (.inner 0) .zero
    ⟨by decide, by decide, by decide, by decide, by decide⟩ (by simp)
  have hfirst : m = .inner 0 := by
    simp only [List.mem_cons, List.not_mem_nil, or_false] at hm
    rcases hm with rfl | rfl | rfl
    · exact absurd hdlive hmdead
    · rfl
    · exact absurd rfl hmdead
  exact ⟨c, d, count, t, hc, ⟨u, hhonoured⟩, hrun, hd, hnegate', hfirst ▸ hfault⟩

/-- A conjunction was noted and is held, and one of its operands is gone. Asked for again, it is
given all the same. -/
theorem synthesis_honours_stale : ∃ c : Client,
    (start 2 ⟨1, ⟨0⟩⟩).after [.createHeld ⟨0⟩ .zero .one, .createHeld ⟨1⟩ .zero .one,
      .ite (.inner 0) (.inner 1) .zero, .reference (.inner 2), .release (.inner 0)] = some c ∧
    Store.Proper (.inner 0) (.inner 1) .zero ∧
    c.store.diagram.issued (.inner 0) ∧ ¬ c.store.alive (.inner 0) ∧
    ∃ t, c.store.ite (.inner 0) (.inner 1) .zero = .ok (.inner 2, t) := by
  let calls : List Call := [.createHeld ⟨0⟩ .zero .one, .createHeld ⟨1⟩ .zero .one,
    .ite (.inner 0) (.inner 1) .zero, .reference (.inner 2), .release (.inner 0)]
  have hends : ((start 2 ⟨1, ⟨0⟩⟩).after calls).map (fun c =>
      (c.store.diagram.issued (.inner 0), c.store.alive (.inner 0),
        (c.store.ite (.inner 0) (.inner 1) .zero).toOption.map Prod.fst)) =
      some (true, false, some (.inner 2)) := by
    decide +kernel
  obtain ⟨c, hc, hends⟩ := Option.map_eq_some_iff.mp hends
  simp only [Prod.mk.injEq] at hends
  obtain ⟨hissued, hgone, hite⟩ := hends
  refine ⟨c, hc, ⟨by decide, by decide, by decide, by decide, by decide⟩, hissued,
    by simp [hgone], ?_⟩
  cases hrun : c.store.ite (.inner 0) (.inner 1) .zero with
  | error e =>
    rw [hrun] at hite
    cases hite
  | ok p =>
    rw [hrun, Except.toOption, Option.map_some, Option.some.injEq] at hite
    exact ⟨p.2, by rw [← hite]⟩

end Client

end DecisionGraph
