import DecisionGraph.Proofs.Runs

/-!
# Calls under the contract

A client that keeps to the contract never sees a call break off. No look-up names a dead node or a
place outside of a table, no fresh node meets a live one of its shape, the unique table knows every
node that is collected, reduction finds the canonical nodes that it needs, and no counter falls
below zero. This holds in the middle of an exchange and of a cascade as between two calls, since
every step of a call passes its fault on.

What is left are refusals. Only three calls can be refused, and each refusal says what is the
matter.

* `Store.Refuses` — the refusals of a call, with their conditions.
* `Store.Readable` — the questions about a node that are answered.
* `Client.Keeps` — lists of calls that keep to the contract.
* `Client.never_breaks_off` — what such a client sees.
-/

namespace DecisionGraph

namespace Store

variable {s : Store} {held : Holding} {n : NodeId} {α : Type}

/-- What a call may be refused with, and when. Sifting exchanges neighbours only, so that nothing
but a shape can be in its way. -/
inductive Refuses (s : Store) : Call → Rejection → Prop where
  | restrict {f : NodeId} {positive negative : Option Var} {e : Rejection}
      (h : s.Forbids positive negative e) : Refuses s (.restrict f positive negative) e
  | swap {v w : Var} {e : Rejection} (h : s.Hinders v w e) : Refuses s (.swap v w) e
  | sift {f : NodeId} {e : Rejection} (h : Clash e) : Refuses s (.sift f) e

/-! ## Refusals -/

/-- A step that cannot be rejected is not refused. -/
theorem answer_not_rejected {f : α → Answer} {x : Except Fault (α × Store)}
    {E : Rejection → Prop} : IfGives (answer f x) fun p => ∀ e, p.1 = .error e → E e :=
  .bind_of_forall fun _ => ifGives_ok fun _ he => nomatch he

theorem answerOr_rejected {f : α → Answer} {x : Except Fault (Except Rejection α × Store)}
    {E : Rejection → Prop} (hx : Gives x fun p => ∀ e, p.1 = .error e → E e) :
    IfGives (answerOr f x) fun p => ∀ e, p.1 = .error e → E e := by
  obtain ⟨⟨result, t⟩, rfl, hE⟩ := hx
  cases result with
  | ok a => exact ifGives_ok fun _ he => nomatch he
  | error e => exact ifGives_ok fun _ he => Except.error.inj he ▸ hE e rfl

/-- A permitted call is refused only for a reason. -/
theorem Valid.perform_refuses (h : s.Valid held) {call : Call}
    (halive : ∀ n ∈ call.operands, s.alive n) :
    IfGives (s.perform call) fun p => ∀ e, p.1 = .error e → s.Refuses call e := by
  cases call with
  | restrict f positive negative =>
    refine answerOr_rejected (gives_mono (h.restrict (halive f List.mem_cons_self) positive
      negative) fun p hp e he => ?_)
    rcases hp with ⟨r, hr, -⟩ | ⟨e', rfl, he'⟩
    · exact nomatch hr.symm.trans he
    · exact Except.error.inj he ▸ .restrict he'
  | swap v w =>
    refine answerOr_rejected (gives_mono (h.swap_or_hinders v w) fun p hp e he => ?_)
    rcases hp with ⟨hok, -⟩ | ⟨e', rfl, he'⟩
    · exact nomatch hok.symm.trans he
    · exact Except.error.inj he ▸ .swap he'
  | sift f =>
    exact answerOr_rejected (gives_mono (h.sift_or_clash (halive f List.mem_cons_self))
      fun p hp e he => .sift (hp.2 e he))
  | create _ _ _ | createHeld _ _ _ | addVariable | ite _ _ _ | and _ _ | or _ _ | xor _ _
  | implies _ _ | negate _ | reduce _ | reference _ | release _ | delete _ | collectGarbage =>
    exact answer_not_rejected

/-! ## Questions -/

/-- The questions about a node are answered. The variables below it are managed, so that they have
levels, and values under every assignment to all variables. -/
structure Readable (s : Store) (n : NodeId) : Prop where
  node : ∃ record, s.node n = .ok record
  size : ∃ count, s.size n = .ok count
  satCount : ∃ count, s.satCount n = .ok count
  evaluate : ∀ values : Array Bool, s.varCount ≤ values.size → ∃ x, s.evaluate n values = .ok x
  managed : ∀ v, s.diagram.Occurs n v → v.index < s.varCount

theorem Valid.readable (h : s.Valid held) (ha : s.diagram.alive n) : s.Readable n where
  node := by
    cases n with
    | terminal value => exact ⟨_, rfl⟩
    | inner i =>
      obtain ⟨b, hb⟩ := Diagram.exists_branch ha
      exact ⟨.ofBranch (.inner i) b (s.refCount (.inner i)), by simp [Store.node, node?, hb]⟩
  size := h.size_gives ha
  satCount := (Diagram.satCount_gives h.closed h.layered s.varCount ha).imp fun _ hk => hk.1
  evaluate values hvalues := by
    obtain ⟨x, hx⟩ := h.exists_value ha (assignmentOf values)
    exact ⟨x, (h.evaluate_eq_ok_iff ha hvalues).mpr hx⟩
  managed v hv := VarOrder.knows_iff.mp (hv.knows h.sound.knows)

end Store

namespace Client

variable {c d : Client}

/-! ## Runs under the contract -/

/-- Each call of the list keeps to the contract where its turn comes. -/
def Keeps : Client → List Call → Prop
  | _, [] => True
  | c, call :: calls => c.Permits call ∧ ∀ result s, c.store.perform call = .ok (result, s) →
      Keeps ⟨s, heldAfter c.held call result⟩ calls

theorem keeps_of_after {calls : List Call} (h : c.after calls = some d) : c.Keeps calls := by
  induction calls generalizing c with
  | nil => trivial
  | cons call calls ih =>
    obtain ⟨result, s, permitted, performed, h⟩ := after_cons_iff.mp h
    refine ⟨permitted, fun result' s' performed' => ?_⟩
    cases performed.symm.trans performed'
    exact ih h

/-- Calls that keep to the contract all end. -/
theorem Reachable.after_of_keeps (hc : Reachable c) {calls : List Call} (h : c.Keeps calls) :
    ∃ d, c.after calls = some d := by
  induction calls generalizing c with
  | nil => exact ⟨c, rfl⟩
  | cons call calls ih =>
    obtain ⟨permitted, hrest⟩ := h
    obtain ⟨⟨result, s⟩, performed, -⟩ := hc.valid.perform permitted
    obtain ⟨d, hd⟩ := ih (hc.step (.call permitted performed)) (hrest result s performed)
    exact ⟨d, after_cons_iff.mpr ⟨result, s, permitted, performed, hd⟩⟩

/-- Where all calls have kept to the contract, none has broken off, and no further one that keeps to
it does: it has a result, or it is refused for a reason. And all questions about live nodes are
answered. -/
theorem never_breaks_off {varCount : Nat} {config : Config} {calls : List Call}
    (keeps : (start varCount config).Keeps calls) :
    ∃ c, (start varCount config).after calls = some c ∧
      (∀ call, c.Permits call → ∃ result s, c.store.perform call = .ok (result, s) ∧
        ∀ e, result = .error e → c.store.Refuses call e) ∧
      ∀ n, c.store.alive n → c.store.Readable n := by
  obtain ⟨c, hc⟩ := (Reachable.start varCount config).after_of_keeps keeps
  have hvalid := (reachable_of_after hc).valid
  refine ⟨c, hc, fun call permitted => ?_, fun n ha => hvalid.readable ha⟩
  obtain ⟨⟨result, s⟩, performed, -, hrefuses⟩ :=
    (hvalid.perform permitted).and (hvalid.perform_refuses permitted.1)
  exact ⟨result, s, performed, hrefuses⟩

/-- An idle test that would take the shape of its child keeps its variable from moving down. The
exchange is refused before and after a variable is added, and the function of the test can be
counted all the same. -/
theorem never_breaks_off_refused : ∃ c : Client,
    (start 2 ⟨1, ⟨0⟩⟩).after [.createHeld ⟨1⟩ .zero .one, .createHeld ⟨0⟩ (.inner 0) (.inner 0),
      .swap ⟨0⟩ ⟨1⟩, .addVariable, .restrict (.inner 1) (some ⟨3⟩) none, .release (.inner 0)] =
        some c ∧
    (∃ s, c.store.perform (.swap ⟨0⟩ ⟨1⟩) =
      .ok (.error (.shapeTaken ⟨1⟩ (.inner 0) (.inner 0)), s)) ∧
    c.store.Refuses (.swap ⟨0⟩ ⟨1⟩) (.shapeTaken ⟨1⟩ (.inner 0) (.inner 0)) ∧
    c.store.satCount (.inner 1) = .ok 4 ∧
    ∃ x, c.store.evaluate (.inner 1) #[false, true, false] = .ok x := by
  let calls : List Call := [.createHeld ⟨1⟩ .zero .one, .createHeld ⟨0⟩ (.inner 0) (.inner 0),
    .swap ⟨0⟩ ⟨1⟩, .addVariable, .restrict (.inner 1) (some ⟨3⟩) none, .release (.inner 0)]
  have hends : ((start 2 ⟨1, ⟨0⟩⟩).after calls).map (fun c =>
      (decide (c.Permits (.swap ⟨0⟩ ⟨1⟩)), c.store.alive (.inner 1), c.store.varCount)) =
        some (true, true, 3) := by
    decide +kernel
  have hsees : ((start 2 ⟨1, ⟨0⟩⟩).after calls).map (fun c =>
      (c.store.satCount (.inner 1), (c.store.perform (.swap ⟨0⟩ ⟨1⟩)).map Prod.fst)) =
        some (.ok 4, .ok (.error (.shapeTaken ⟨1⟩ (.inner 0) (.inner 0)))) := by
    decide +kernel
  obtain ⟨d, hd, -⟩ := Option.map_eq_some_iff.mp hends
  obtain ⟨c, hc, hcalls, hreads⟩ := never_breaks_off (keeps_of_after hd)
  rw [hc, Option.map_some, Option.some.injEq] at hends hsees
  simp only [Prod.mk.injEq, decide_eq_true_eq] at hends
  rw [Prod.mk.injEq] at hsees
  obtain ⟨permitted, halive, hcount⟩ := hends
  obtain ⟨hsat, hswap⟩ := hsees
  obtain ⟨result, s, hrun, hrefuses⟩ := hcalls _ permitted
  rw [hrun, Except.map, Except.ok.injEq] at hswap
  dsimp only at hswap
  subst hswap
  exact ⟨c, hc, ⟨s, hrun⟩, hrefuses _ rfl, hsat,
    (hreads _ halive).evaluate _ (Nat.le_of_eq (by rw [hcount]; rfl))⟩

end Client

end DecisionGraph
