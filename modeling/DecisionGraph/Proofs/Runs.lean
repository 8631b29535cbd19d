import Mathlib.Logic.Relation
import DecisionGraph.Client
import DecisionGraph.Proofs.Sifting
import DecisionGraph.Proofs.Synthesis

/-!
# Runs

Every permitted call ends, rejected or not, in a valid store for what the client then holds
(`Valid.perform`). So the store of every reachable client is valid, and of what a client sees in a
run, two things follow here: the counts of references are exact, and a node keeps its function for
as long as it is there.

* `Performed`, `Valid.perform` — one call.
* `Reachable.valid`, `Reachable.run` — the invariant along runs, and what a run does to nodes.
* `after`, `run_iff_after` — the client after a list of calls.
* `noIdle_of_after` — idle tests come from calls that ask for them.
-/

namespace DecisionGraph

/-- The calls that change the order of the variables. -/
def Call.Reorders : Call → Prop
  | swap _ _ | sift _ => True
  | _ => False

namespace Store

variable {s t : Store} {held : Holding} {n : NodeId} {α : Type}

/-! ## One call -/

theorem gives_answer {f : α → Answer} {x : Except Fault (α × Store)} {P : α × Store → Prop}
    {Q : Except Rejection Answer × Store → Prop} (hx : Gives x P)
    (hPQ : ∀ a t, P (a, t) → Q (.ok (f a), t)) : Gives (answer f x) Q :=
  gives_bind hx fun p hp => gives_pure (hPQ p.1 p.2 hp)

theorem gives_answerOr {f : α → Answer} {x : Except Fault (Except Rejection α × Store)}
    {P : Except Rejection α × Store → Prop} {Q : Except Rejection Answer × Store → Prop}
    (hx : Gives x P) (hPQ : ∀ a t, P (a, t) → Q (a.map f, t)) : Gives (answerOr f x) Q :=
  gives_bind hx fun p hp => gives_pure (hPQ p.1 p.2 hp)

theorem lt_levelIn_of_testable {v : Var} {low high : NodeId}
    (h : Client.Testable s v low high) (hn : n ∈ [low, high]) :
    s.diagram.alive n ∧ s.order.levelOf v < s.diagram.levelIn s.order n := by
  obtain ⟨l, hl, hlt⟩ := h.2 n hn
  have ha := alive_of_levelOf hl
  rw [levelOf_eq ha, Except.ok.injEq] at hl
  exact ⟨ha, hl ▸ hlt⟩

theorem Valid.create_of_testable (h : s.Valid held) {v : Var} {low high : NodeId}
    (hv : Client.Testable s v low high) :
    Gives (s.create v low high) fun p =>
      s.Built held p.1 p.2 ∧ (low ≠ high → s.Adds [p.1] p.2) := by
  obtain ⟨hlow, hllow⟩ := lt_levelIn_of_testable hv (n := low) (by simp)
  obtain ⟨hhigh, hlhigh⟩ := lt_levelIn_of_testable hv (n := high) (by simp)
  exact gives_mono (h.create hv.1 hlow hhigh hllow hlhigh) fun p ⟨hvalid, hcons⟩ =>
    ⟨hcons.built hvalid, hcons.adds⟩

/-- What a call does: the store it leaves is valid for what the client then holds, and has idle
tests only if there were some or the call asks for one. An idle test below a node goes away only if
the call reorders. -/
structure Performed (held : Holding) (s : Store) (call : Call)
    (p : Except Rejection Answer × Store) : Prop where
  valid : p.2.Valid (Client.heldAfter held call p.1)
  moves : s.Moves p.2
  noIdle : call.AvoidsIdle → s.diagram.NoIdle → p.2.diagram.NoIdle
  raw : ¬ call.Reorders → ∀ n, s.diagram.alive n → p.2.diagram.alive n →
    p.2.diagram.Reduced n → s.diagram.Reduced n

theorem Made.performed (hn : s.Made held n t) (hc : s.diagram.Closed) {call : Call}
    {result : Except Rejection Answer} (hheld : Client.heldAfter held call result = held) :
    Performed held s call (result, t) where
  valid := hheld.symm ▸ hn.valid
  moves := hn.grew.moves hc
  noIdle _ := Diagram.Gains.noIdle hn.adds
  raw _ _ _ _ := hn.grew.grows.subset.reduced

/-- A call that is rejected before anything has changed. -/
theorem Valid.performed_rejected (h : s.Valid held) {call : Call}
    {result : Except Rejection Answer} (hheld : Client.heldAfter held call result = held) :
    Performed held s call (result, s) where
  valid := hheld.symm ▸ h
  moves := .refl s
  noIdle _ := id
  raw _ _ _ _ := id

/-- A permitted call ends. -/
theorem Valid.perform (h : s.Valid held) {call : Call}
    (permitted : Client.Permits ⟨s, held⟩ call) :
    Gives (s.perform call) (Performed held s call) := by
  obtain ⟨halive, hobligation⟩ := permitted
  cases call with
  | create v low high =>
    exact gives_answer (h.create_of_testable hobligation) fun _ _ ⟨hb, hadds⟩ =>
      ⟨hb.valid, hb.grew.moves h.closed, fun hne => Diagram.Gains.noIdle (hadds hne),
        fun _ _ _ _ => hb.grew.grows.subset.reduced⟩
  | createHeld v low high =>
    refine gives_answer (P := fun p => p.2.Valid (held.take p.1) ∧ s.Moves p.2 ∧
      (low ≠ high → s.diagram.NoIdle → p.2.diagram.NoIdle) ∧ s.diagram.Extends p.2.diagram) ?_
      fun _ _ ⟨hvalid, hmoves, hidle, hsub⟩ => ⟨hvalid, hmoves, hidle, fun _ _ _ _ => hsub.reduced⟩
    refine gives_bind (h.create_of_testable hobligation) fun ⟨n, t⟩ ⟨hb, hadds⟩ => ?_
    refine gives_mono (hb.valid.reference hb.alive) fun p ⟨hn, ht, hvalid⟩ => ?_
    rw [hn]
    rw [ht] at hvalid ⊢
    exact ⟨hvalid, (hb.grew.moves h.closed).trans (moves_recount t n (· + 1)),
      fun hne => Diagram.Gains.noIdle (hadds hne), hb.grew.grows.subset⟩
  | addVariable =>
    exact gives_answer (gives_ok (P := (· = s.addVariable)) rfl) fun _ _ hp => by
      cases hp
      exact ⟨h.addVariable, moves_addVariable s, fun _ hs => hs, fun _ _ _ _ hr => hr⟩
  | ite f g k =>
    exact gives_answer (h.ite halive) fun _ _ ⟨hn, _⟩ => hn.performed h.closed rfl
  | and f g =>
    exact gives_answer (h.and (halive f List.mem_cons_self)
      (halive g (List.mem_cons_of_mem _ List.mem_cons_self))) fun _ _ ⟨hn, _⟩ =>
      hn.performed h.closed rfl
  | or f g =>
    exact gives_answer (h.or (halive f List.mem_cons_self)
      (halive g (List.mem_cons_of_mem _ List.mem_cons_self))) fun _ _ ⟨hn, _⟩ =>
      hn.performed h.closed rfl
  | xor f g =>
    exact gives_answer (h.xor (halive f List.mem_cons_self)
      (halive g (List.mem_cons_of_mem _ List.mem_cons_self))) fun _ _ ⟨hb, _, _, _, _, hadds, _⟩ =>
      ⟨hb.valid, hb.grew.moves h.closed, fun _ => Diagram.Gains.noIdle hadds,
        fun _ _ _ _ => hb.grew.grows.subset.reduced⟩
  | implies f g =>
    exact gives_answer (h.implies (halive f List.mem_cons_self)
      (halive g (List.mem_cons_of_mem _ List.mem_cons_self))) fun _ _ ⟨hn, _⟩ =>
      hn.performed h.closed rfl
  | negate f =>
    exact gives_answer (h.negate (halive f List.mem_cons_self)) fun _ _ ⟨hn, _⟩ =>
      hn.performed h.closed rfl
  | restrict f positive negative =>
    refine gives_answerOr (h.restrict (halive f List.mem_cons_self) positive negative)
      fun result t hp => ?_
    rcases hp with ⟨r, rfl, hn⟩ | ⟨e, hp, -⟩
    · exact hn.performed h.closed rfl
    · cases hp
      exact h.performed_rejected rfl
  | reduce f =>
    exact gives_answer (h.reduce (halive f List.mem_cons_self)) fun _ _ ⟨hn, _⟩ =>
      hn.performed h.closed rfl
  | swap v w =>
    apply gives_answerOr (h.swap v w)
    intro result t hp
    rcases hp with ⟨-, hvalid, htidy, -⟩ | ⟨e, hp⟩
    · exact ⟨hvalid, htidy.toMoves, fun _ => htidy.noIdle h hvalid, fun hr => absurd trivial hr⟩
    · cases hp
      exact h.performed_rejected rfl
  | sift f =>
    exact gives_answerOr (h.sift (halive f List.mem_cons_self)) fun _ _ ⟨hsifted, _⟩ =>
      ⟨hsifted.valid, hsifted.toMoves, fun _ => hsifted.noIdle, fun hr => absurd trivial hr⟩
  | reference f =>
    refine gives_answer (h.reference (halive f List.mem_cons_self)) fun _ t ⟨_, ht, hvalid⟩ => ?_
    obtain rfl : t = s.recount f (· + 1) := ht
    exact ⟨hvalid, moves_recount s f (· + 1), fun _ hs => hs, fun _ _ _ _ hr => hr⟩
  | release f =>
    exact gives_answer (h.release_gives (halive f List.mem_cons_self) hobligation)
      fun _ t ⟨hvalid, hshed, _⟩ =>
        ⟨hvalid, hshed.moves hvalid.sound, fun _ => hshed.shrinks.subset.noIdle,
          fun _ _ _ ha hr => hr.extends hshed.shrinks.subset hvalid.closed ha⟩
  | delete f =>
    exact gives_answer (h.delete_gives f) fun _ _ ⟨hvalid, hmoves, hshrinks⟩ =>
      ⟨hvalid, hmoves, fun _ => hshrinks.subset.noIdle,
        fun _ _ _ ha hr => hr.extends hshrinks.subset hvalid.closed ha⟩
  | collectGarbage =>
    exact gives_answer h.collectGarbage_gives fun _ _ ⟨hvalid, hswept⟩ =>
      ⟨hvalid, hswept.moves hvalid, fun _ => hswept.shrinks.subset.noIdle,
        fun _ _ _ ha hr => hr.extends hswept.shrinks.subset hvalid.closed ha⟩

/-- A node that stays has the same value later, whatever values the new variables get. -/
theorem Moves.evaluate (h : s.Moves t) {held' : Holding} (hs : s.Valid held) (ht : t.Valid held')
    (ha : s.diagram.alive n) (ha' : t.diagram.alive n) {values values' : Array Bool}
    (hvalues : s.varCount ≤ values.size) (hvalues' : t.varCount ≤ values'.size)
    (heq : ∀ i, i < s.varCount → values'[i]? = values[i]?) :
    ∃ x, s.evaluate n values = .ok x ∧ t.evaluate n values' = .ok x := by
  obtain ⟨x, hx⟩ := hs.exists_value ha (assignmentOf values)
  refine ⟨x, (hs.evaluate_eq_ok_iff ha hvalues).mpr hx, (ht.evaluate_eq_ok_iff ha' hvalues').mpr ?_⟩
  refine (h.evolves.value n ha ha' _ x).mp (hx.congr fun v hv => ?_)
  have hknows := VarOrder.knows_iff.mp (hv.knows hs.sound.knows)
  simp only [assignmentOf, Array.getD_eq_getD_getElem?, heq v.index hknows]

end Store

namespace Client

open Relation (ReflTransGen)

variable {c d e : Client} {n : NodeId}

/-! ## Runs of a client -/

theorem Reachable.valid (h : Reachable c) : c.store.Valid c.held := by
  induction h with
  | start varCount config => exact Store.valid_new varCount config
  | step _ hstep ih =>
    cases hstep with
    | call permitted performed => exact ((ih.perform permitted).of_eq performed).valid

theorem Step.moves (h : Step c d) (hc : Reachable c) : c.store.Moves d.store := by
  cases h with
  | call permitted performed => exact ((hc.valid.perform permitted).of_eq performed).moves

theorem Reachable.run (hc : Reachable c) (run : ReflTransGen Step c d) :
    Reachable d ∧ c.store.Moves d.store := by
  induction run with
  | refl => exact ⟨hc, .refl _⟩
  | tail _ hstep ih => exact ⟨ih.1.step hstep, ih.2.trans (hstep.moves ih.1)⟩

/-! ## Lists of calls -/

instance (s : Store) (v : Var) (low high : NodeId) : Decidable (Testable s v low high) :=
  inferInstanceAs (Decidable (_ ∧ _))

instance (c : Client) : DecidablePred c.Obligation
  | .create v low high => inferInstanceAs (Decidable (Testable c.store v low high))
  | .createHeld v low high => inferInstanceAs (Decidable (Testable c.store v low high))
  | .release n => inferInstanceAs (Decidable (0 < c.held n ∨ c.store.refCount n = 0))
  | .addVariable | .ite _ _ _ | .and _ _ | .or _ _ | .xor _ _ | .implies _ _ | .negate _
  | .restrict _ _ _ | .reduce _ | .swap _ _ | .sift _ | .reference _ | .delete _
  | .collectGarbage => .isTrue trivial

instance (c : Client) : DecidablePred c.Permits := fun _ => inferInstanceAs (Decidable (_ ∧ _))

/-- The client after the calls of a list, if each is permitted where its turn comes. -/
def after (c : Client) : List Call → Option Client
  | [] => some c
  | call :: calls =>
    if c.Permits call then
      match c.store.perform call with
      | .ok (result, s) => after ⟨s, heldAfter c.held call result⟩ calls
      | .error _ => none
    else none

theorem after_cons_iff {call : Call} {calls : List Call} :
    c.after (call :: calls) = some d ↔ ∃ result s, c.Permits call ∧
      c.store.perform call = .ok (result, s) ∧
      after ⟨s, heldAfter c.held call result⟩ calls = some d := by
  constructor
  · intro h
    unfold after at h
    split at h
    · split at h
      · exact ⟨_, _, ‹_›, ‹_›, h⟩
      · cases h
    · cases h
  · rintro ⟨result, s, permitted, performed, h⟩
    rw [after, if_pos permitted, performed]
    exact h

/-- The runs are what lists of calls lead to. -/
theorem run_iff_after : ReflTransGen Step c d ↔ ∃ calls, c.after calls = some d := by
  constructor
  · intro run
    induction run using ReflTransGen.head_induction_on with
    | refl => exact ⟨[], rfl⟩
    | head hstep _ ih =>
      obtain ⟨calls, hcalls⟩ := ih
      cases hstep with
      | @call call _ _ permitted performed =>
        exact ⟨call :: calls, after_cons_iff.mpr ⟨_, _, permitted, performed, hcalls⟩⟩
  · rintro ⟨calls, hcalls⟩
    induction calls generalizing c with
    | nil =>
      cases hcalls
      exact .refl
    | cons call calls ih =>
      obtain ⟨_, _, permitted, performed, hcalls⟩ := after_cons_iff.mp hcalls
      exact .head (.call permitted performed) (ih hcalls)

theorem reachable_of_after {varCount : Nat} {config : Config} {calls : List Call}
    (h : (start varCount config).after calls = some c) : Reachable c :=
  ((Reachable.start varCount config).run (run_iff_after.mpr ⟨calls, h⟩)).1

/-- Calls that do not ask for an idle test bring none. -/
theorem noIdle_of_after {calls : List Call} (hc : Reachable c) (hidle : c.store.diagram.NoIdle)
    (havoids : ∀ call ∈ calls, call.AvoidsIdle) (h : c.after calls = some d) :
    d.store.diagram.NoIdle := by
  induction calls generalizing c with
  | nil =>
    cases h
    exact hidle
  | cons call calls ih =>
    obtain ⟨_, _, permitted, performed, h⟩ := after_cons_iff.mp h
    have hperformed := (hc.valid.perform permitted).of_eq performed
    exact ih (hc.step (.call permitted performed))
      (hperformed.noIdle (havoids call List.mem_cons_self) hidle)
      (fun call' hmem => havoids call' (List.mem_cons_of_mem _ hmem)) h

/-! ## What clients see -/

/-- The count of a node is the number of edges into it and what the client holds of it, in every
reachable state and after every permitted call from there. -/
theorem refCount_exact (h : Reachable c) :
    (∀ n, c.store.refCount n = c.store.diagram.edgesInto n + c.held n) ∧
      ∀ call, c.Permits call → ∃ result s, c.store.perform call = .ok (result, s) ∧
        ∀ n, s.refCount n = s.diagram.edgesInto n + heldAfter c.held call result n := by
  refine ⟨h.valid.sound.counted, fun call permitted => ?_⟩
  obtain ⟨⟨result, s⟩, hrun, hperformed⟩ := h.valid.perform permitted
  exact ⟨result, s, hrun, hperformed.valid.sound.counted⟩

/-- A node that is held once, below a test with two edges into it. -/
theorem refCount_exact_shared_child : ∃ c : Client,
    (start 2 ⟨1, ⟨0⟩⟩).after [.create ⟨1⟩ .zero .one, .create ⟨0⟩ (.inner 0) (.inner 0),
      .reference (.inner 0)] = some c ∧
    c.store.refCount (.inner 0) = c.store.diagram.edgesInto (.inner 0) + c.held (.inner 0) ∧
    c.store.diagram.edgesInto (.inner 0) = 2 ∧ c.held (.inner 0) = 1 := by
  let calls : List Call :=
    [.create ⟨1⟩ .zero .one, .create ⟨0⟩ (.inner 0) (.inner 0), .reference (.inner 0)]
  have hends : ((start 2 ⟨1, ⟨0⟩⟩).after calls).map
      (fun c => (c.store.diagram.edgesInto (.inner 0), c.held (.inner 0))) = some (2, 1) := by
    decide +kernel
  obtain ⟨c, hc, hcounts⟩ := Option.map_eq_some_iff.mp hends
  rw [Prod.mk.injEq] at hcounts
  exact ⟨c, hc, (refCount_exact (reachable_of_after hc)).1 (.inner 0), hcounts⟩

/-- Between two points of a run: a node that is there at both was there in between and has the same
value at both, a node that is gone stays gone, and a node that is new has a number above all numbers
that have been given out. -/
theorem handle_stable (hc : Reachable c) (run : ReflTransGen Step c d) :
    (∀ n, c.store.alive n → d.store.alive n →
      (∀ e, ReflTransGen Step c e → ReflTransGen Step e d → e.store.alive n) ∧
      ∀ values values' : Array Bool, c.store.varCount ≤ values.size →
        d.store.varCount ≤ values'.size →
        (∀ i, i < c.store.varCount → values'[i]? = values[i]?) →
        ∃ x, c.store.evaluate n values = .ok x ∧ d.store.evaluate n values' = .ok x) ∧
    (∀ e n, ReflTransGen Step c e → ReflTransGen Step e d → c.store.alive n →
      ¬ e.store.alive n → ¬ d.store.alive n) ∧
    ∀ n, ¬ c.store.alive n → d.store.alive n →
      c.store.diagram.fresh.toNat ≤ n.toNat ∧
        ∀ b m, Reachable b → ReflTransGen Step b c → b.store.alive m → m.toNat < n.toNat := by
  have hbetween : ∀ e n, ReflTransGen Step c e → ReflTransGen Step e d → c.store.alive n →
      d.store.alive n → e.store.alive n := by
    intro e n hce hed ha ha'
    obtain ⟨he, hmoves⟩ := hc.run hce
    exact hmoves.evolves.alive_between (he.run hed).2.evolves ha ha'
  obtain ⟨hd, hmoves⟩ := hc.run run
  refine ⟨fun n ha ha' => ⟨fun e hce hed => hbetween e n hce hed ha ha', ?_⟩, ?_, ?_⟩
  · intro values values' hvalues hvalues' heq
    exact hmoves.evaluate hc.valid hd.valid ha ha' hvalues hvalues' heq
  · exact fun e n hce hed ha hgone ha' => hgone (hbetween e n hce hed ha ha')
  · intro n hgone ha'
    have hfresh : c.store.diagram.fresh.toNat ≤ n.toNat :=
      Nat.not_lt.mp fun hlt => hgone (hmoves.evolves.gone n hlt ha')
    refine ⟨hfresh, fun b m hb hbc ham => ?_⟩
    have hm := Diagram.toNat_lt_fresh (d := b.store.diagram) ham
    exact Nat.lt_of_lt_of_le hm (Nat.le_trans (hb.run hbc).2.evolves.fresh_le hfresh)

/-- A held node that an exchange of its variable rotates. -/
theorem handle_stable_swap : ∃ c d : Client,
    (start 2 ⟨1, ⟨0⟩⟩).after [.create ⟨1⟩ .zero .one, .createHeld ⟨0⟩ .zero (.inner 0)] = some c ∧
    c.after [.swap ⟨0⟩ ⟨1⟩, .addVariable, .collectGarbage] = some d ∧
    c.store.diagram.branch? (.inner 1) ≠ d.store.diagram.branch? (.inner 1) ∧
    ∃ x, c.store.evaluate (.inner 1) #[true, true] = .ok x ∧
      d.store.evaluate (.inner 1) #[true, true, false] = .ok x := by
  let before : List Call := [.create ⟨1⟩ .zero .one, .createHeld ⟨0⟩ .zero (.inner 0)]
  let between : List Call := [.swap ⟨0⟩ ⟨1⟩, .addVariable, .collectGarbage]
  have hends : ((start 2 ⟨1, ⟨0⟩⟩).after before).map
      (fun c => (c.store.diagram.branch? (.inner 1), c.store.varCount)) =
        some (some ⟨⟨.zero, .inner 0⟩, ⟨0⟩⟩, 2) := by
    decide +kernel
  have hends' : (((start 2 ⟨1, ⟨0⟩⟩).after before).bind fun c => c.after between).map
      (fun d => (d.store.diagram.branch? (.inner 1), d.store.varCount)) =
        some (some ⟨⟨.zero, .inner 2⟩, ⟨1⟩⟩, 3) := by
    decide +kernel
  obtain ⟨c, hc, hcb⟩ := Option.map_eq_some_iff.mp hends
  rw [hc, Option.bind_some] at hends'
  obtain ⟨d, hd, hdb⟩ := Option.map_eq_some_iff.mp hends'
  rw [Prod.mk.injEq] at hcb hdb
  obtain ⟨hcb, hcv⟩ := hcb
  obtain ⟨hdb, hdv⟩ := hdb
  have run := run_iff_after.mpr ⟨between, hd⟩
  have hkept := (handle_stable (reachable_of_after hc) run).1 (.inner 1)
    (Diagram.alive_of_branch? hcb) (Diagram.alive_of_branch? hdb)
  refine ⟨c, d, hc, hd, ?_, hkept.2 _ _ ?_ ?_ ?_⟩
  · rw [hcb, hdb]
    decide
  · rw [hcv]
    decide
  · rw [hdv]
    decide
  · intro i hi
    rw [hcv] at hi
    match i, hi with
    | 0, _ | 1, _ => rfl

end Client

end DecisionGraph
