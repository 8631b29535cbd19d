import DecisionGraph.Proofs.Runs

/-!
# What synthesis notes

Synthesis asks the computed table, makes nodes and notes results. What all three keep, synthesis
keeps, whatever its operands are and however far it comes.

Of noting, this is needed only as it occurs. A result is noted after its operands have been asked
for their branch or their levels, so they were alive at some point. And it is noted only where no
identity tells it, or as a complement.

* `NodeTriple.Noted` — the operands for which results are noted.
* `Noting`, `Noting.perform` — what synthesis keeps.
* `ComputedTable.Keyed`, `Reachable.keyed` — the operands of all entries are such.
-/

namespace DecisionGraph

/-- Operands for which a result may be noted: no identity tells it, or it is the complement. -/
def NodeTriple.Noted (k : NodeTriple) : Prop :=
  Store.Proper k.first k.second k.third ∨ k.second = .zero ∧ k.third = .one

namespace Store

/-- Asking the computed table, making nodes and noting results keeps `P`. For the last, the operands
are `known`, as is every node that is alive while `P` holds. -/
structure Noting (P : Store → Prop) (known : NodeId → Prop) : Prop where
  known_of_alive : ∀ {s n}, P s → s.diagram.alive n → known n
  consult : ∀ {s} k, P s → P (s.consult k).2
  consReduced : ∀ {s} v low high, P s → IfGives (s.consReduced v low high) fun p => P p.2
  remember : ∀ {s k} r, P s → k.Noted → (∀ n ∈ k.word, known n) → P (s.remember k r)

section Noting

variable {P : Store → Prop} {known : NodeId → Prop} {s t : Store} {k : NodeTriple} {n r : NodeId}

theorem Noting.of_consult (hP : Noting P known) (h : P s) {result : Option NodeId}
    (hconsult : s.consult k = (result, t)) : P t := by
  simpa only [hconsult] using hP.consult k h

theorem Noting.known_of_levelOf (hP : Noting P known) (h : P s) {l : Level}
    (hl : s.levelOf n = .ok l) : known n :=
  hP.known_of_alive h (alive_of_levelOf hl)

theorem Noting.negateWithin (hP : Noting P known) (j : Nat) (h : P s) (f : NodeId) :
    IfGives (negateWithin j f s) fun p => P p.2 := by
  induction j generalizing f s with
  | zero => exact ifGives_error
  | succ j ih =>
    cases f with
    | terminal value => exact ifGives_ok h
    | inner i =>
      rw [Store.negateWithin]
      rcases hconsult : s.consult ⟨.inner i, .zero, .one⟩ with ⟨_ | r, t⟩
      · have ht := hP.of_consult h hconsult
        refine IfGives.bind (fun _ hb => hP.known_of_alive ht
          (Diagram.alive_of_branch? (Diagram.branch_eq_ok_iff.mp hb))) fun b hi => ?_
        have hterminal : ∀ value, known (.terminal value) := fun _ => hP.known_of_alive ht rfl
        have hkey : ∀ n ∈ (⟨.inner i, .zero, .one⟩ : NodeTriple).word, known n := by
          simpa [NodeTriple.word] using ⟨hi, hterminal false, hterminal true⟩
        exact (ih ht b.low).bind fun p hp => (ih hp b.high).bind fun q hq =>
          (hP.consReduced b.var p.1 q.1 hq).bind fun r hr =>
            ifGives_ok (hP.remember r.1 hr (Or.inr ⟨rfl, rfl⟩) hkey)
      · exact ifGives_ok (hP.of_consult h hconsult)

theorem Noting.cofactors (hP : Noting P known) (h : P s) (v : Var) (n : NodeId) :
    IfGives (s.cofactors v n) fun p => P p.2 :=
  (restrictWithin_keeps hP.consReduced h).bind fun _ hp =>
    (restrictWithin_keeps hP.consReduced hp).bind fun _ hq => ifGives_ok hq

theorem Noting.iteWithin (hP : Noting P known) (j : Nat) (h' : P s) (f g h : NodeId) :
    IfGives (iteWithin j f g h s) fun p => P p.2 := by
  induction j generalizing f g h s with
  | zero => exact ifGives_error
  | succ j ih =>
    rcases iteWithin_cases j f g h with ⟨r, -, -, hrun⟩ | ⟨-, hrun⟩ | hp
    · exact hrun s ▸ ifGives_ok h'
    · exact hrun s ▸ hP.negateWithin j h' f
    · rcases hconsult : s.consult ⟨f, g, h⟩ with ⟨_ | r, t⟩
      · rw [iteWithin_succ, hp.iteStep_miss hconsult]
        have ht := hP.of_consult h' hconsult
        -- the levels are asked for before anything else, and they tell that the operands are alive
        refine IfGives.bind (fun _ hl => hP.known_of_levelOf ht hl) fun _ hf => ?_
        refine IfGives.bind (fun _ hl => hP.known_of_levelOf ht hl) fun _ hg => ?_
        refine IfGives.bind (fun _ hl => hP.known_of_levelOf ht hl) fun _ hh => ?_
        have hkey : ∀ n ∈ (⟨f, g, h⟩ : NodeTriple).word, known n := by
          simpa [NodeTriple.word] using ⟨hf, hg, hh⟩
        refine .bind_of_forall fun v => (hP.cofactors ht v f).bind fun f' hf' =>
          (hP.cofactors hf' v g).bind fun g' hg' => (hP.cofactors hg' v h).bind fun h' hh' => ?_
        exact (ih hh' f'.1.high g'.1.high h'.1.high).bind fun p hp' =>
          (ih hp' f'.1.low g'.1.low h'.1.low).bind fun q hq =>
          (hP.consReduced v q.1 p.1 hq).bind fun r hr =>
            ifGives_ok (hP.remember r.1 hr (Or.inl hp) hkey)
      · rw [hp.iteWithin_hit j hconsult]
        exact ifGives_ok (hP.of_consult h' hconsult)

/-- Synthesis, by whatever operation. -/
theorem Noting.perform (hP : Noting P known) {call : Call} (hs : call.Synthesizes) (h : P s) :
    IfGives (s.perform call) fun p => P p.2 := by
  have hanswer : ∀ {x : Except Fault (NodeId × Store)}, IfGives x (fun p => P p.2) →
      IfGives (answer .node x) fun p => P p.2 := fun hx => hx.bind fun _ hp => ifGives_ok hp
  cases call with
  | ite f g k => exact hanswer (hP.iteWithin _ h f g k)
  | and f g => exact hanswer (hP.iteWithin _ h f g .zero)
  | or f g => exact hanswer (hP.iteWithin _ h f .one g)
  | implies f g => exact hanswer (hP.iteWithin _ h f g .one)
  | negate f => exact hanswer (hP.negateWithin _ h f)
  | xor f g =>
    exact hanswer ((hP.negateWithin _ h g).bind fun p hp => hP.iteWithin _ hp f p.1 g)
  | create _ _ _ | createHeld _ _ _ | addVariable | restrict _ _ _ | reduce _ | swap _ _ | sift _
  | reference _ | release _ | delete _ | collectGarbage => exact hs.elim

end Noting

end Store

/-! ## The operands of entries -/

namespace ComputedTable

/-- All entries are for operands for which results may be noted. -/
def Keyed (t : ComputedTable) : Prop :=
  ∀ (k : NodeTriple) (r : NodeId), t.results[k]? = some r → k.Noted

theorem keyed_empty : empty.Keyed := fun k r hk => by
  simp [empty] at hk

theorem Keyed.within {t t' : ComputedTable} (h : t.Keyed) (hw : t'.Within t) : t'.Keyed :=
  fun k r hk => h k r (hw k r hk)

end ComputedTable

/-- Synthesis keeps this by the very choice of what it notes. -/
theorem Store.noting_keyed : Noting (fun s => s.computed.Keyed) fun _ => True where
  known_of_alive _ _ := trivial
  consult k h := h.within (ComputedTable.lookup_within _ k _)
  consReduced v low high h :=
    (consReduced_computed rfl v low high).mono fun _ hp => hp ▸ h
  remember _ h hk _ k' r' hentry := by
    rcases ComputedTable.of_insert hentry with ⟨rfl, -⟩ | hentry
    · exact hk
    · exact h k' r' hentry

theorem Client.Reachable.keyed {c : Client} (hc : Reachable c) : c.store.computed.Keyed := by
  induction hc with
  | start varCount config => exact ComputedTable.keyed_empty
  | step hc hstep ih =>
    cases hstep with
    | @call call _ _ permitted performed =>
      by_cases hs : call.Synthesizes
      · exact Store.noting_keyed.perform hs ih _ performed
      · exact ih.within (Store.perform_within hs _ performed)

end DecisionGraph
