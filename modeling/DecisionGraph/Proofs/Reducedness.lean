import DecisionGraph.Proofs.Equivalence
import DecisionGraph.Proofs.Noting

/-!
# Synthesis on reduced operands

Synthesis makes no idle test. But it answers with operands and with noted results, and there may be
idle tests below these. Where there are none below the operands, one can still come in by an entry
that was noted when there were some: an exchange may have rotated them away since, and left one that
is below the result. That is what happens in `ite_keeps_idle`.

So the table has to be clean: no entry may lead from operands with no idle test below them to a
result with one. In a state in which it is, whatever run has led there, synthesis on such operands
gives the one such node of its function, and gives it again in every later state of that kind. In
any other state an entry is found that leads astray.

It takes a change of the order to make a clean table unclean, and a noted result that has an idle
test below it by then. Runs in which this never happens keep the table clean throughout.

* `Valid.perform_clean` — what each call does to a clean table.
* `Valid.ite_settles`, `Settles.ite_eq` — with a clean table, if-then-else settles.
* `Valid.clean_iff` — whether a table is clean can be computed.
* `ite_reduced`, `clean_iff_forall_ite` — if-then-else in states with a clean table, and in others.
* `StepIf`, `Careful`, `clean_of_careful`, `ite_reduced_of_careful` — runs that keep it clean.
* `careful_of_pure`, `ite_reduced_of_pure` — such runs are those in which synthesis is asked for on
  reduced operands only, up to the last change of the order.
-/

namespace DecisionGraph

instance Diagram.decidableIdle (d : Diagram) : DecidablePred d.Idle := fun n =>
  match hb : d.branch? n with
  | some b => decidable_of_iff (b.low = b.high)
      ⟨fun heq => ⟨b, hb, heq⟩, fun ⟨_, hb', heq⟩ => Option.some.inj (hb.symm.trans hb') ▸ heq⟩
  | none => .isFalse fun ⟨_, hb', _⟩ => nomatch hb.symm.trans hb'

/-- Whether a traversal from `n` meets no idle test. -/
def Diagram.meetsNoIdle (d : Diagram) (n : NodeId) : Bool :=
  match d.reachable n with
  | .ok ns => ns.all fun m => decide (¬ d.Idle m)
  | .error _ => false

/-- `Clean` as a computation, by traversals from the nodes of all entries. -/
def ComputedTable.isClean (t : ComputedTable) (d : Diagram) (all : Prop) [Decidable all] : Bool :=
  t.results.toList.all fun p => decide ((∀ n ∈ p.2 :: p.1.word, d.alive n) →
    (all ∨ ∀ n ∈ p.1.word, d.meetsNoIdle n) → d.meetsNoIdle p.2)

namespace Store

variable {s t : Store} {held held' : Holding} {f g k n : NodeId} {F G H : Array Bool → Bool}
  {all : Prop}

/-! ## Calls on a clean table -/

theorem Valid.ite_clean (h : s.Valid held) (hf : s.diagram.alive f) (hg : s.diagram.alive g)
    (hk : s.diagram.alive k) (hclean : s.computed.Clean s.diagram all)
    (hpure : all → s.diagram.Reduced f ∧ s.diagram.Reduced g ∧ s.diagram.Reduced k) :
    Gives (s.ite f g k) fun p => p.2.computed.Clean p.2.diagram all :=
  gives_mono (h.ite_cleanly (by simpa using ⟨hf, hg, hk⟩)) fun _ ⟨_, _, hcleanly⟩ =>
    (hcleanly all (by simpa using hpure) hclean).1

theorem Valid.xor_clean (h : s.Valid held) (hf : s.diagram.alive f) (hg : s.diagram.alive g)
    (hclean : s.computed.Clean s.diagram all)
    (hpure : all → s.diagram.Reduced f ∧ s.diagram.Reduced g) :
    Gives (s.xor f g) fun p => p.2.computed.Clean p.2.diagram all := by
  unfold Store.xor
  refine gives_bind (h.negate_cleanly hg) fun ⟨n, t⟩ ⟨hmade, hanswers, hkeeps⟩ => ?_
  have hextends : ∀ {m}, s.diagram.alive m → s.diagram.Reduced m → t.diagram.Reduced m :=
    fun hm hr => hr.extends hmade.grew.grows.subset h.closed hm
  exact hmade.valid.ite_clean (hmade.grew.alive hf) hmade.alive (hmade.grew.alive hg)
    (hkeeps all hclean) fun ha =>
      ⟨hextends hf (hpure ha).1, hanswers.reduced rfl rfl, hextends hg (hpure ha).2⟩

/-- Synthesis keeps a clean table clean. Where no result may have an idle test below it, the
operands must have none. -/
theorem Valid.synthesis_clean (h : s.Valid held) {call : Call} (hs : call.Synthesizes)
    (halive : ∀ n ∈ call.operands, s.diagram.alive n)
    (hclean : s.computed.Clean s.diagram all)
    (hpure : all → ∀ n ∈ call.operands, s.diagram.Reduced n) :
    Gives (s.perform call) fun p => p.2.computed.Clean p.2.diagram all := by
  have hterminal := s.diagram.reduced_terminal
  cases call with
  | ite f g k =>
    simp only [Call.operands, List.forall_mem_cons] at halive hpure
    exact gives_answer (h.ite_clean halive.1 halive.2.1 halive.2.2.1 hclean fun ha =>
      ⟨(hpure ha).1, (hpure ha).2.1, (hpure ha).2.2.1⟩) fun _ _ hp => hp
  | and f g =>
    simp only [Call.operands, List.forall_mem_cons] at halive hpure
    exact gives_answer (h.ite_clean halive.1 halive.2.1 rfl hclean fun ha =>
      ⟨(hpure ha).1, (hpure ha).2.1, hterminal _⟩) fun _ _ hp => hp
  | or f g =>
    simp only [Call.operands, List.forall_mem_cons] at halive hpure
    exact gives_answer (h.ite_clean halive.1 rfl halive.2.1 hclean fun ha =>
      ⟨(hpure ha).1, hterminal _, (hpure ha).2.1⟩) fun _ _ hp => hp
  | xor f g =>
    simp only [Call.operands, List.forall_mem_cons] at halive hpure
    exact gives_answer (h.xor_clean halive.1 halive.2.1 hclean fun ha =>
      ⟨(hpure ha).1, (hpure ha).2.1⟩) fun _ _ hp => hp
  | implies f g =>
    simp only [Call.operands, List.forall_mem_cons] at halive hpure
    exact gives_answer (h.ite_clean halive.1 halive.2.1 rfl hclean fun ha =>
      ⟨(hpure ha).1, (hpure ha).2.1, hterminal _⟩) fun _ _ hp => hp
  | negate f =>
    exact gives_answer (h.negate_cleanly (halive f List.mem_cons_self))
      fun _ _ ⟨_, _, hkeeps⟩ => hkeeps all hclean
  | create _ _ _ | createHeld _ _ _ | addVariable | restrict _ _ _ | reduce _ | swap _ _ | sift _
  | reference _ | release _ | delete _ | collectGarbage => exact hs.elim

/-- Every call keeps a clean table clean, but for synthesis on operands with idle tests below them,
where these may not be noted, and changes of the order, where results with idle tests below them
have been noted. -/
theorem Valid.perform_clean (h : s.Valid held) {call : Call}
    (permitted : Client.Permits ⟨s, held⟩ call) (hclean : s.computed.Clean s.diagram all)
    (hpure : call.Synthesizes → all → ∀ n ∈ call.operands, s.diagram.Reduced n)
    (hreorder : call.Reorders → s.computed.Clean s.diagram True) :
    Gives (s.perform call) fun p => p.2.computed.Clean p.2.diagram all := by
  by_cases hs : call.Synthesizes
  · exact h.synthesis_clean hs permitted.1 hclean (hpure hs)
  refine gives_mono ((h.perform permitted).and (perform_within hs))
    fun p ⟨hperformed, hwithin⟩ => ?_
  have hfaithful := h.faithful.of_subset hwithin
  by_cases hr : call.Reorders
  · exact (((hreorder hr).within hwithin).evolves hfaithful hperformed.moves.evolves
      (Or.inl trivial)).weaken all
  · exact (hclean.within hwithin).evolves hfaithful hperformed.moves.evolves
      (Or.inr (hperformed.raw hr))

/-! ## Nodes with no idle test below them -/

/-- A traversal finds out whether there is an idle test below a live node. -/
theorem Valid.reduced_iff (h : s.Valid held) (ha : s.diagram.alive n) :
    s.diagram.Reduced n ↔ s.diagram.meetsNoIdle n := by
  obtain ⟨ns, hns, -, hmem⟩ := Diagram.reachable_gives h.closed h.layered ha
  simp only [Diagram.meetsNoIdle, hns, List.all_eq_true, decide_eq_true_eq, hmem, Diagram.Reduced]

theorem Valid.forall_reduced (h : s.Valid held) {ns : List NodeId}
    (hns : ns.all fun n => s.diagram.alive n && s.diagram.meetsNoIdle n) :
    ∀ n ∈ ns, s.diagram.alive n ∧ s.diagram.Reduced n := by
  simp only [List.all_eq_true, Bool.and_eq_true] at hns
  exact fun n hn => ⟨(hns n hn).1, (h.reduced_iff (hns n hn).1).mpr (hns n hn).2⟩

/-- So it can be found out whether the table is clean. -/
theorem Valid.clean_iff (h : s.Valid held) (all : Prop) [Decidable all] :
    s.computed.Clean s.diagram all ↔ s.computed.isClean s.diagram all := by
  simp only [ComputedTable.Clean, ComputedTable.isClean, List.all_eq_true, Prod.forall,
    Std.ExtTreeMap.mem_toList_iff_getElem?_eq_some, decide_eq_true_eq]
  refine forall₄_congr fun k r _ ha => ?_
  obtain ⟨hr, hk⟩ := List.forall_mem_cons.mp ha
  rw [h.reduced_iff hr]
  exact imp_congr_left (or_congr_right (forall₂_congr fun n hn => h.reduced_iff (hk n hn)))

/-! ## If-then-else with a clean table -/

/-- With a clean table, if-then-else of operands with no idle test below them gives a node with none
below it, and the table stays clean. -/
theorem Valid.ite_reduces (h : s.Valid held) (hclean : s.computed.Clean s.diagram False)
    (hf : s.diagram.alive f) (hg : s.diagram.alive g) (hk : s.diagram.alive k)
    (hpure : ∀ n ∈ [f, g, k], s.diagram.Reduced n) :
    Gives (s.ite f g k) fun p =>
      p.2.diagram.Reduced p.1 ∧ p.2.computed.Clean p.2.diagram False :=
  gives_mono (h.ite_cleanly (by simpa using ⟨hf, hg, hk⟩)) fun _ ⟨_, _, hcleanly⟩ =>
    have ⟨hclean, hreduced⟩ := hcleanly False False.elim hclean
    ⟨hreduced hpure, hclean⟩

/-- With a clean table, if-then-else of operands with no idle test below them ends with the one such
node of its function. -/
theorem Valid.ite_settles (h : s.Valid held) (hclean : s.computed.Clean s.diagram False)
    (hf : s.diagram.alive f) (hg : s.diagram.alive g) (hk : s.diagram.alive k)
    (hpure : ∀ n ∈ [f, g, k], s.diagram.Reduced n) (hF : s.Denotes f F) (hG : s.Denotes g G)
    (hH : s.Denotes k H) :
    Gives (s.ite f g k) fun p =>
      s.Settles held (fun values => if F values then G values else H values) p.1 p.2 := by
  obtain ⟨⟨r, t⟩, hrun, hmade, -⟩ := h.ite (f := f) (g := g) (h := k)
    (by simpa using ⟨hf, hg, hk⟩)
  obtain ⟨hreduced, -⟩ := (h.ite_reduces hclean hf hg hk hpure).of_eq hrun
  obtain ⟨_, hrun', -, hdenotes, -⟩ := h.ite_computes hf hg hk hF hG hH
  cases hrun.symm.trans hrun'
  exact ⟨(r, t), hrun, hmade.toBuilt, hdenotes, hreduced⟩

/-- A node that stays denotes the same function later. -/
theorem Moves.denotes (h : s.Moves t) (hs : s.Valid held) (ht : t.Valid held')
    (ha : s.diagram.alive n) (ha' : t.diagram.alive n) (hF : s.Denotes n F) : t.Denotes n F := by
  intro values hvalues
  have hvalues' : s.varCount ≤ values.size := Nat.le_trans h.varCount_le hvalues
  obtain ⟨x, hx, hx'⟩ := h.evaluate hs ht ha ha' hvalues' hvalues fun _ _ => rfl
  rw [hF values hvalues', Except.ok.injEq] at hx
  exact hx ▸ hx'

/-- What if-then-else selects under some values. -/
def selected (s : Store) (f g k : NodeId) (values : Array Bool) : Except Fault Bool := do
  if ← s.evaluate f values then s.evaluate g values else s.evaluate k values

theorem selected_eq (hF : s.Denotes f F) (hG : s.Denotes g G) (hH : s.Denotes k H)
    {values : Array Bool} (hvalues : s.varCount ≤ values.size) :
    s.selected f g k values = .ok (if F values then G values else H values) := by
  rw [selected, hF values hvalues]
  cases hcondition : F values
  · exact hH values hvalues
  · exact hG values hvalues

/-- The node that a function has been settled with is what if-then-else gives where that function is
selected, with a clean table and from operands with no idle test below them. -/
theorem Settles.ite_eq (hr : s.Settles held F n t) (hclean : t.computed.Clean t.diagram False)
    (hf : t.diagram.alive f) (hg : t.diagram.alive g) (hk : t.diagram.alive k)
    (hpure : ∀ m ∈ [f, g, k], t.diagram.Reduced m)
    (heq : ∀ values : Array Bool, values.size = t.varCount →
      t.selected f g k values = .ok (F values)) : ∃ u, t.ite f g k = .ok (n, u) := by
  obtain ⟨F', hF'⟩ := hr.valid.exists_denotes hf
  obtain ⟨G', hG'⟩ := hr.valid.exists_denotes hg
  obtain ⟨H', hH'⟩ := hr.valid.exists_denotes hk
  obtain ⟨⟨m, u⟩, hrun, hm⟩ := hr.valid.ite_settles hclean hf hg hk hpure hF' hG' hH'
  obtain rfl : n = m := (hr.eq_iff hm).mpr fun values hsize => by
    have hsize : values.size = t.varCount := hsize.trans hr.varCount.symm
    have hselected := heq values hsize
    rw [selected_eq hF' hG' hH' (Nat.le_of_eq hsize.symm), Except.ok.injEq] at hselected
    exact hselected.symm
  exact ⟨u, hrun⟩

end Store

namespace Client

open Relation (ReflTransGen)

variable {b c d : Client} {f g k r : NodeId} {t : Store} {P : Client → Call → Prop}

/-! ## Steps on a condition -/

/-- A permitted call for which `P` holds where its turn comes. -/
inductive StepIf (P : Client → Call → Prop) : Client → Client → Prop where
  | call {c : Client} {call : Call} {result : Except Rejection Answer} {s : Store}
      (permitted : c.Permits call) (holds : P c call)
      (performed : c.store.perform call = .ok (result, s)) :
      StepIf P c ⟨s, heldAfter c.held call result⟩

theorem StepIf.step (h : StepIf P c d) : Step c d := by
  cases h with
  | call permitted _ performed => exact .call permitted performed

theorem Reachable.runIf (hc : Reachable c) (run : ReflTransGen (StepIf P) c d) :
    Reachable d ∧ c.store.Moves d.store :=
  hc.run (ReflTransGen.mono (fun _ _ => StepIf.step) _ _ run)

/-- A call of if-then-else is a step. -/
theorem StepIf.ite (hf : c.store.alive f) (hg : c.store.alive g) (hk : c.store.alive k)
    (hP : P c (.ite f g k)) (hrun : c.store.ite f g k = .ok (r, t)) :
    StepIf P c ⟨t, c.held⟩ := by
  have hpermitted : c.Permits (.ite f g k) :=
    ⟨by simpa [Call.operands] using ⟨hf, hg, hk⟩, trivial⟩
  have hperform : c.store.perform (.ite f g k) = .ok (.ok (.node r), t) := by
    simp only [Store.perform, Store.answer, hrun]
    rfl
  exact .call hpermitted hP hperform

/-! ## If-then-else -/

/-- What if-then-else has given with a clean table, it gives again in a later state, if the node is
there and the table is clean. -/
theorem Reachable.ite_again (hc : Reachable c)
    (hclean : c.store.computed.Clean c.store.diagram False)
    (hf : c.store.alive f) (hg : c.store.alive g) (hk : c.store.alive k)
    (hpure : ∀ n ∈ [f, g, k], c.store.diagram.Reduced n)
    (hrun : c.store.ite f g k = .ok (r, t)) (run : ReflTransGen Step ⟨t, c.held⟩ d)
    (hclean' : d.store.computed.Clean d.store.diagram False) (hr : d.store.alive r)
    {f' g' k' : NodeId} (hf' : d.store.alive f') (hg' : d.store.alive g') (hk' : d.store.alive k')
    (hpure' : ∀ n ∈ [f', g', k'], d.store.diagram.Reduced n)
    (heq : ∀ values : Array Bool, values.size = d.store.varCount →
      c.store.selected f g k values = d.store.selected f' g' k' values) :
    ∃ u, d.store.ite f' g' k' = .ok (r, u) := by
  obtain ⟨F, hF⟩ := hc.valid.exists_denotes hf
  obtain ⟨G, hG⟩ := hc.valid.exists_denotes hg
  obtain ⟨H, hH⟩ := hc.valid.exists_denotes hk
  have hsettles := (hc.valid.ite_settles hclean hf hg hk hpure hF hG hH).of_eq hrun
  have hstep : StepIf (fun _ _ => True) c ⟨t, c.held⟩ := .ite hf hg hk trivial hrun
  obtain ⟨hd, hmoves⟩ := (hc.step hstep.step).run run
  -- the node keeps its function, and no idle test comes below it
  have hsettled := hd.valid.settles hr
    (hmoves.denotes hsettles.valid hd.valid hsettles.alive hr hsettles.denotes)
    (hmoves.evolves.reduced r hsettles.alive hr hsettles.reduced)
  refine hsettled.ite_eq hclean' hf' hg' hk' hpure' fun values hsize => ?_
  have hcount : c.store.varCount ≤ values.size :=
    hsize ▸ hsettles.varCount ▸ hmoves.varCount_le
  rw [← heq values hsize, Store.selected_eq hF hG hH hcount]

/-- In every reachable state with a clean table, if-then-else of operands with no idle test below
them gives a node with none below it, and leaves the table clean. As long as that node is there, it
is given again in every later state with a clean table, for such operands whenever the same is
selected from them. -/
theorem ite_reduced (hc : Reachable c) (hclean : c.store.computed.Clean c.store.diagram False)
    (hf : c.store.alive f) (hg : c.store.alive g) (hk : c.store.alive k)
    (hpure : ∀ n ∈ [f, g, k], c.store.diagram.Reduced n) :
    ∃ r t, c.store.ite f g k = .ok (r, t) ∧ t.diagram.Reduced r ∧
      t.computed.Clean t.diagram False ∧
      ∀ d, ReflTransGen Step ⟨t, c.held⟩ d → d.store.computed.Clean d.store.diagram False →
        d.store.alive r → ∀ f' g' k', d.store.alive f' → d.store.alive g' → d.store.alive k' →
          (∀ n ∈ [f', g', k'], d.store.diagram.Reduced n) →
          (∀ values : Array Bool, values.size = d.store.varCount →
            c.store.selected f g k values = d.store.selected f' g' k' values) →
          ∃ u, d.store.ite f' g' k' = .ok (r, u) := by
  obtain ⟨⟨r, t⟩, hrun, hreduced, hclean₁⟩ := hc.valid.ite_reduces hclean hf hg hk hpure
  exact ⟨r, t, hrun, hreduced, hclean₁, fun d run hclean' hr f' g' k' =>
    hc.ite_again hclean hf hg hk hpure hrun run hclean' hr⟩

/-- A conjunction that is noted before an exchange of its two variables, and besides it another one,
with an idle test below it. The first is found again, and once more after the exchange back. -/
theorem ite_reduced_exchanged : ∃ c d : Client, ∃ r t u,
    (start 3 ⟨1, ⟨0⟩⟩).after [.createHeld ⟨2⟩ .zero .one, .createHeld ⟨1⟩ .zero .one,
      .createHeld ⟨1⟩ .zero .zero, .createHeld ⟨0⟩ .zero .one, .and (.inner 1) (.inner 0),
      .reference (.inner 4), .and (.inner 3) (.inner 2), .swap ⟨1⟩ ⟨2⟩] = some c ∧
    ¬ c.store.computed.Clean c.store.diagram True ∧
    c.store.ite (.inner 1) (.inner 0) .zero = .ok (r, t) ∧ t.diagram.Reduced r ∧
    Client.after ⟨t, c.held⟩ [.swap ⟨2⟩ ⟨1⟩] = some d ∧
    d.store.ite (.inner 0) (.inner 1) .zero = .ok (r, u) := by
  let calls : List Call := [.createHeld ⟨2⟩ .zero .one, .createHeld ⟨1⟩ .zero .one,
    .createHeld ⟨1⟩ .zero .zero, .createHeld ⟨0⟩ .zero .one, .and (.inner 1) (.inner 0),
    .reference (.inner 4), .and (.inner 3) (.inner 2), .swap ⟨1⟩ ⟨2⟩]
  let operands : List NodeId := [.inner 1, .inner 0, .zero]
  let ready (c : Client) : Bool := c.store.computed.isClean c.store.diagram False &&
    operands.all fun n => c.store.diagram.alive n && c.store.diagram.meetsNoIdle n
  have hends : ((start 3 ⟨1, ⟨0⟩⟩).after calls).map (fun c =>
      (c.store.computed.isClean c.store.diagram True, ready c,
        (c.store.ite (.inner 1) (.inner 0) .zero).toOption.bind fun p =>
          (Client.after ⟨p.2, c.held⟩ [.swap ⟨2⟩ ⟨1⟩]).map fun d =>
            (ready d && d.store.alive p.1, d.store.varCount, decide (∀ x y z : Bool,
              c.store.selected (.inner 1) (.inner 0) .zero #[x, y, z] =
                d.store.selected (.inner 0) (.inner 1) .zero #[x, y, z])))) =
      some (false, true, some (true, 3, true)) := by
    decide +kernel
  obtain ⟨c, hc, hends⟩ := Option.map_eq_some_iff.mp hends
  simp only [Prod.mk.injEq] at hends
  obtain ⟨hraw, hreadyc, hends⟩ := hends
  have hready : ∀ {e : Client}, Reachable e → ready e →
      e.store.computed.Clean e.store.diagram False ∧
        ∀ n ∈ operands, e.store.diagram.alive n ∧ e.store.diagram.Reduced n := fun he hready =>
    have ⟨hclean, hns⟩ := Bool.and_eq_true_iff.mp hready
    ⟨(he.valid.clean_iff False).mpr hclean, he.valid.forall_reduced hns⟩
  have h1 : NodeId.inner 1 ∈ operands := List.mem_cons_self
  have h0 : NodeId.inner 0 ∈ operands := List.mem_cons_of_mem _ List.mem_cons_self
  have hreached := reachable_of_after hc
  obtain ⟨hclean, hns⟩ := hready hreached hreadyc
  obtain ⟨r, t, hrun, hreduced, -, hagain⟩ := ite_reduced hreached hclean (hns _ h1).1
    (hns _ h0).1 rfl fun n hn => (hns n hn).2
  rw [hrun, Except.toOption, Option.bind_some] at hends
  obtain ⟨d, hd, hends⟩ := Option.map_eq_some_iff.mp hends
  simp only [Prod.mk.injEq, decide_eq_true_eq, Bool.and_eq_true] at hends
  obtain ⟨⟨hreadyd, hr⟩, hcount, hselected⟩ := hends
  have hstep : StepIf (fun _ _ => True) c ⟨t, c.held⟩ :=
    .ite (hns _ h1).1 (hns _ h0).1 rfl trivial hrun
  have run := run_iff_after.mpr ⟨_, hd⟩
  obtain ⟨hclean', hns'⟩ := hready ((hreached.step hstep.step).run run).1 hreadyd
  obtain ⟨u, hrun'⟩ := hagain d run hclean' hr (.inner 0) (.inner 1) .zero (hns' _ h0).1
    (hns' _ h1).1 rfl (fun n hn => (hns' n ((List.Perm.swap _ _ _).subset hn)).2)
    fun values hsize => by
      rw [hcount] at hsize
      obtain ⟨values⟩ := values
      obtain ⟨x, y, z, rfl⟩ := List.length_eq_three.mp hsize
      exact hselected x y z
  refine ⟨c, d, r, t, u, hc, fun hall => ?_, hrun, hreduced, hd, hrun'⟩
  rw [hreached.valid.clean_iff True, hraw] at hall
  cases hall

/-- An entry that was noted when there was an idle test below the operands, and is found after an
exchange has rotated it away. It names the test all the same. -/
theorem ite_keeps_idle : ∃ c : Client,
    (start 2 ⟨1, ⟨0⟩⟩).after [.createHeld ⟨1⟩ .zero .zero, .createHeld ⟨1⟩ .zero .one,
      .createHeld ⟨0⟩ (.inner 0) (.inner 1), .createHeld ⟨0⟩ (.inner 1) (.inner 0),
      .createHeld ⟨0⟩ .one .zero, .ite (.inner 4) (.inner 2) (.inner 3), .swap ⟨0⟩ ⟨1⟩] = some c ∧
    (∀ n ∈ [NodeId.inner 4, .inner 2, .inner 3], c.store.alive n ∧ c.store.diagram.Reduced n) ∧
    ∃ r t, c.store.ite (.inner 4) (.inner 2) (.inner 3) = .ok (r, t) ∧ ¬ t.diagram.Reduced r := by
  let calls : List Call := [.createHeld ⟨1⟩ .zero .zero, .createHeld ⟨1⟩ .zero .one,
    .createHeld ⟨0⟩ (.inner 0) (.inner 1), .createHeld ⟨0⟩ (.inner 1) (.inner 0),
    .createHeld ⟨0⟩ .one .zero, .ite (.inner 4) (.inner 2) (.inner 3), .swap ⟨0⟩ ⟨1⟩]
  have hends : ((start 2 ⟨1, ⟨0⟩⟩).after calls).map (fun c =>
      ([NodeId.inner 4, .inner 2, .inner 3].all fun n =>
          c.store.diagram.alive n && c.store.diagram.meetsNoIdle n,
        (c.store.ite (.inner 4) (.inner 2) (.inner 3)).toOption.map fun p =>
          decide (p.2.diagram.Idle p.1))) =
      some (true, some true) := by
    decide +kernel
  obtain ⟨c, hc, hends⟩ := Option.map_eq_some_iff.mp hends
  simp only [Prod.mk.injEq] at hends
  obtain ⟨hns, hidle⟩ := hends
  have hvalid := (reachable_of_after hc).valid
  have hns := hvalid.forall_reduced hns
  obtain ⟨⟨r, t⟩, hrun, -⟩ := hvalid.ite fun n hn => (hns n hn).1
  rw [hrun, Except.toOption, Option.map_some, Option.some.injEq, decide_eq_true_eq] at hidle
  exact ⟨c, hc, hns, r, t, hrun, fun hr => hr r .refl hidle⟩

/-- Only where the table is clean, if-then-else gives such nodes throughout: an entry that is not
clean would be found. -/
theorem clean_iff_forall_ite (hc : Reachable c) :
    c.store.computed.Clean c.store.diagram False ↔
      ∀ f g k, c.store.alive f → c.store.alive g → c.store.alive k →
        (∀ n ∈ [f, g, k], c.store.diagram.Reduced n) →
        ∃ r t, c.store.ite f g k = .ok (r, t) ∧ t.diagram.Reduced r := by
  constructor
  · intro hclean f g k hf hg hk hpure
    obtain ⟨⟨r, t⟩, hrun, hreduced, -⟩ := hc.valid.ite_reduces hclean hf hg hk hpure
    exact ⟨r, t, hrun, hreduced⟩
  · rintro hlaw ⟨f, g, k⟩ r hentry halive (hfalse | hpure)
    · exact hfalse.elim
    obtain ⟨hr, hf, hg, hk⟩ : c.store.alive r ∧ c.store.alive f ∧ c.store.alive g ∧
        c.store.alive k := by simpa [NodeTriple.word, Store.alive] using halive
    rcases hc.keyed _ r hentry with hproper | ⟨hzero, hone⟩
    · obtain ⟨t, htwin, hconsult⟩ := Store.consult_of_entry hentry hr
      obtain ⟨r', t', hrun, hreduced⟩ := hlaw f g k hf hg hk hpure
      rw [hproper.ite_hit hconsult] at hrun
      cases hrun
      exact htwin.diagram ▸ hreduced
    · exact (hc.valid.faithful.answers _ r hentry halive).reduced hzero hone

/-! ## Careful runs -/

/-- The order is changed only while no noted result has an idle test below it. -/
def Careful (c : Client) (call : Call) : Prop :=
  call.Reorders → c.store.computed.Clean c.store.diagram True

/-- Synthesis is asked for only where no operand has an idle test below it. -/
def OnReduced (c : Client) (call : Call) : Prop :=
  call.Synthesizes → ∀ n ∈ call.operands, c.store.diagram.Reduced n

/-- The order is not changed. -/
def KeepsOrder (_ : Client) (call : Call) : Prop := ¬ call.Reorders

/-- A run whose calls keep the table clean in one of the two senses. -/
theorem clean_of_run {all : Prop} (hc : Reachable c)
    (hclean : c.store.computed.Clean c.store.diagram all)
    (hpure : ∀ (e : Client) (call : Call), P e call → all → e.OnReduced call)
    (hreorder : ∀ (e : Client) (call : Call), P e call →
      e.store.computed.Clean e.store.diagram all → e.Careful call)
    (run : ReflTransGen (StepIf P) c d) : d.store.computed.Clean d.store.diagram all := by
  induction run with
  | refl => exact hclean
  | tail run hstep ih =>
    cases hstep with
    | @call call _ _ permitted holds performed =>
      exact ((hc.runIf run).1.valid.perform_clean permitted ih
        (fun hs ha => hpure _ call holds ha hs) (hreorder _ call holds ih)).of_eq performed

theorem clean_of_careful {varCount : Nat} {config : Config}
    (run : ReflTransGen (StepIf Careful) (start varCount config) c) :
    c.store.computed.Clean c.store.diagram False :=
  clean_of_run (.start varCount config) (ComputedTable.clean_empty _ _)
    (fun _ _ _ => False.elim) (fun _ _ hcareful _ => hcareful) run

/-- Runs in which synthesis is asked for on reduced operands only, up to the last change of the
order, are careful. -/
theorem careful_of_pure {varCount : Nat} {config : Config}
    (run : ReflTransGen (StepIf OnReduced) (start varCount config) b)
    (run' : ReflTransGen (StepIf KeepsOrder) b c) :
    ReflTransGen (StepIf Careful) (start varCount config) c := by
  have hcareful : ReflTransGen (StepIf Careful) (start varCount config) b := by
    clear run'
    induction run with
    | refl => exact .refl
    | @tail e _ run hstep ih =>
      have hclean : e.store.computed.Clean e.store.diagram True :=
        clean_of_run (.start varCount config) (ComputedTable.clean_empty _ _)
          (fun _ _ hpure _ => hpure) (fun _ _ _ hclean _ => hclean) run
      cases hstep with
      | call permitted _ performed => exact ih.tail (.call permitted (fun _ => hclean) performed)
  refine hcareful.trans (ReflTransGen.mono (fun _ _ hstep => ?_) _ _ run')
  cases hstep with
  | call permitted holds performed =>
    exact .call permitted (fun hreorders => absurd hreorders holds) performed

/-- In careful runs, if-then-else of operands with no idle test below them gives a node with none
below it, and gives it again as long as it is there. -/
theorem ite_reduced_of_careful {varCount : Nat} {config : Config}
    (run : ReflTransGen (StepIf Careful) (start varCount config) c) (hf : c.store.alive f)
    (hg : c.store.alive g) (hk : c.store.alive k)
    (hpure : ∀ n ∈ [f, g, k], c.store.diagram.Reduced n) :
    ∃ r t, c.store.ite f g k = .ok (r, t) ∧ t.diagram.Reduced r ∧
      ∀ d, ReflTransGen (StepIf Careful) ⟨t, c.held⟩ d → d.store.alive r →
        ∀ f' g' k', d.store.alive f' → d.store.alive g' → d.store.alive k' →
          (∀ n ∈ [f', g', k'], d.store.diagram.Reduced n) →
          (∀ values : Array Bool, values.size = d.store.varCount →
            c.store.selected f g k values = d.store.selected f' g' k' values) →
          ∃ u, d.store.ite f' g' k' = .ok (r, u) := by
  have hc := ((Reachable.start varCount config).runIf run).1
  have hclean := clean_of_careful run
  obtain ⟨⟨r, t⟩, hrun, hreduced, -⟩ := hc.valid.ite_reduces hclean hf hg hk hpure
  refine ⟨r, t, hrun, hreduced, fun d run' hr f' g' k' => ?_⟩
  have run₁ := run.tail (StepIf.ite hf hg hk False.elim hrun)
  exact hc.ite_again hclean hf hg hk hpure hrun
    (ReflTransGen.mono (fun _ _ => StepIf.step) _ _ run') (clean_of_careful (run₁.trans run')) hr

/-- In particular, if-then-else does so if, up to the last change of the order, synthesis has been
asked for on such operands only. -/
theorem ite_reduced_of_pure {varCount : Nat} {config : Config}
    (run : ReflTransGen (StepIf OnReduced) (start varCount config) b)
    (run' : ReflTransGen (StepIf KeepsOrder) b c) (hf : c.store.alive f) (hg : c.store.alive g)
    (hk : c.store.alive k) (hpure : ∀ n ∈ [f, g, k], c.store.diagram.Reduced n) :
    ∃ r t, c.store.ite f g k = .ok (r, t) ∧ t.diagram.Reduced r := by
  obtain ⟨r, t, hrun, hreduced, -⟩ :=
    ite_reduced_of_careful (careful_of_pure run run') hf hg hk hpure
  exact ⟨r, t, hrun, hreduced⟩

end Client

end DecisionGraph
