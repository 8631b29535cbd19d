import DecisionGraph.Action

/-!
# Outcomes of calls

A postcondition is mostly total: `Gives x P` says that `x` is not broken off by a fault and that its
result satisfies `P`. Where a fault cannot be excluded from what is at hand, as for a part of a
store that a call does not write to, `IfGives x P` says it of the result if there is one.

* `gives_bind`, `gives_mono` — postconditions of composed runs.
* `IfGives`, `Gives.and` — what results are like, if there are any.
* `gives_mapM` — a list of runs that do not depend on each other.
* `Action.gives_bind`, `Action.gives_step` — the same for actions, where a rejection ends the run
  but keeps the store.
-/

namespace DecisionGraph

/-- The run `x` is not broken off, and its result satisfies `P`. -/
def Gives {ε α : Type} (x : Except ε α) (P : α → Prop) : Prop := ∃ a, x = .ok a ∧ P a

section Gives

variable {ε α β : Type} {P : α → Prop}

theorem gives_ok {a : α} (h : P a) : Gives (.ok a : Except ε α) P := ⟨a, rfl, h⟩

theorem gives_pure {a : α} (h : P a) : Gives (pure a : Except ε α) P := ⟨a, rfl, h⟩

theorem gives_of_eq {x : Except ε α} {a : α} (hx : x = .ok a) (h : P a) : Gives x P := ⟨a, hx, h⟩

theorem Gives.of_eq {x : Except ε α} {a : α} (h : Gives x P) (hx : x = .ok a) : P a := by
  obtain ⟨b, hb, hP⟩ := h
  rw [hx, Except.ok.injEq] at hb
  exact hb ▸ hP

theorem gives_mono {x : Except ε α} {Q : α → Prop} (h : Gives x P) (hPQ : ∀ a, P a → Q a) :
    Gives x Q := by
  obtain ⟨a, hx, ha⟩ := h
  exact ⟨a, hx, hPQ a ha⟩

theorem gives_bind {x : Except ε α} {f : α → Except ε β} {Q : β → Prop} (hx : Gives x P)
    (hf : ∀ a, P a → Gives (f a) Q) : Gives (x >>= f) Q := by
  obtain ⟨a, rfl, ha⟩ := hx
  exact hf a ha

/-- A run whose first part has a known result. -/
theorem gives_bind_of_eq {x : Except ε α} {f : α → Except ε β} {Q : β → Prop} {a : α}
    (hx : x = .ok a) (hf : Gives (f a) Q) : Gives (x >>= f) Q := by
  rw [hx]
  exact hf

/-! A run can be carried out to see what it gives. -/

instance decidableGives [DecidablePred P] : ∀ x : Except ε α, Decidable (∃ a, x = .ok a ∧ P a)
  | .ok a => decidable_of_iff (P a) ⟨fun h => ⟨a, rfl, h⟩, fun ⟨_, hx, h⟩ => by cases hx; exact h⟩
  | .error _ => .isFalse fun ⟨_, hx, _⟩ => by cases hx

instance decidableIfGives [DecidablePred P] : ∀ x : Except ε α, Decidable (∀ a, x = .ok a → P a)
  | .ok a => decidable_of_iff (P a) ⟨fun h _ hx => by cases hx; exact h, fun h => h a rfl⟩
  | .error _ => .isTrue fun _ hx => by cases hx

/-- Runs that each give a known result give the list of the results. -/
theorem gives_mapM {f : α → Except ε β} {g : α → β} {xs : List α}
    (h : ∀ x ∈ xs, f x = .ok (g x)) : xs.mapM f = .ok (xs.map g) := by
  induction xs with
  | nil => rfl
  | cons x xs ih =>
    rw [List.mapM_cons, h x List.mem_cons_self, ih fun y hy => h y (List.mem_cons_of_mem x hy)]
    rfl

end Gives

/-- If the run `x` is not broken off, its result satisfies `P`. -/
def IfGives {ε α : Type} (x : Except ε α) (P : α → Prop) : Prop := ∀ a, x = .ok a → P a

section IfGives

variable {ε α β : Type} {P Q : α → Prop} {x : Except ε α}

theorem ifGives_ok {a : α} (h : P a) : IfGives (.ok a : Except ε α) P := by
  rintro _ ⟨⟩
  exact h

theorem ifGives_error {e : ε} : IfGives (.error e : Except ε α) P := by
  rintro _ ⟨⟩

theorem IfGives.mono (h : IfGives x P) (hPQ : ∀ a, P a → Q a) : IfGives x Q :=
  fun a hx => hPQ a (h a hx)

theorem IfGives.bind {f : α → Except ε β} {R : β → Prop} (hx : IfGives x P)
    (hf : ∀ a, P a → IfGives (f a) R) : IfGives (x >>= f) R := by
  cases x with
  | error e => exact ifGives_error
  | ok a => exact hf a (hx a rfl)

/-- The first part has a result about which nothing needs to be known. -/
theorem IfGives.bind_of_forall {f : α → Except ε β} {R : β → Prop}
    (hf : ∀ a, IfGives (f a) R) : IfGives (x >>= f) R :=
  IfGives.bind (P := fun _ => True) (fun _ _ => trivial) fun a _ => hf a

theorem Gives.and (h : Gives x P) (h' : IfGives x Q) : Gives x fun a => P a ∧ Q a := by
  obtain ⟨a, hx, ha⟩ := h
  exact ⟨a, hx, ha, h' a hx⟩

end IfGives

namespace Action

variable {α β : Type} {s : Store}

theorem gives_pure {a : α} {P : Except Rejection α × Store → Prop} (h : P (.ok a, s)) :
    Gives ((pure a : Action α) s) P := ⟨_, rfl, h⟩

theorem gives_reject {e : Rejection} {P : Except Rejection α × Store → Prop}
    (h : P (.error e, s)) : Gives ((reject e : Action α) s) P := ⟨_, rfl, h⟩

/-- An action after another: the second runs only if the first was not rejected. -/
theorem gives_bind {x : Action α} {f : α → Action β} {P : Except Rejection α × Store → Prop}
    {Q : Except Rejection β × Store → Prop} (hx : Gives (x s) P)
    (hok : ∀ a t, P (.ok a, t) → Gives (f a t) Q)
    (hrejected : ∀ e t, P (.error e, t) → Q (.error e, t)) : Gives ((x >>= f) s) Q := by
  obtain ⟨⟨result, t⟩, hrun, hP⟩ := hx
  cases result with
  | ok a => rw [bind_of_ok hrun]; exact hok a t hP
  | error e => exact ⟨_, bind_of_rejected hrun, hrejected e t hP⟩

/-- A step that cannot be rejected. -/
theorem gives_of_step {f : Store → Except Fault (α × Store)} {P : α × Store → Prop}
    {Q : Except Rejection α × Store → Prop} (hf : Gives (f s) P)
    (hPQ : ∀ a t, P (a, t) → Q (.ok a, t)) : Gives (step f s) Q :=
  DecisionGraph.gives_bind hf fun p hp => DecisionGraph.gives_pure (hPQ p.1 p.2 hp)

/-- A change of the store. -/
theorem gives_of_change {f : Store → Except Fault Store} {P : Store → Prop}
    {Q : Except Rejection Unit × Store → Prop} (hf : Gives (f s) P)
    (hPQ : ∀ t, P t → Q (.ok (), t)) : Gives (change f s) Q :=
  gives_of_step (P := fun p => P p.2)
    (DecisionGraph.gives_bind hf fun _ ht => DecisionGraph.gives_pure ht) fun _ t ht => hPQ t ht

/-- A step that cannot be rejected, followed by an action. -/
theorem gives_step {f : Store → Except Fault (α × Store)} {g : α → Action β} {P : α × Store → Prop}
    {Q : Except Rejection β × Store → Prop} (hf : Gives (f s) P)
    (hg : ∀ a t, P (a, t) → Gives (g a t) Q) : Gives ((step f >>= g) s) Q := by
  obtain ⟨⟨a, t⟩, hrun, hP⟩ := hf
  rw [bind_of_ok (t := t) (a := a) (by simp [step, hrun, bind, Except.bind, pure, Except.pure])]
  exact hg a t hP

/-- A change of the store, followed by an action. -/
theorem gives_change {f : Store → Except Fault Store} {g : Unit → Action β} {P : Store → Prop}
    {Q : Except Rejection β × Store → Prop} (hf : Gives (f s) P)
    (hg : ∀ t, P t → Gives (g () t) Q) : Gives ((change f >>= g) s) Q := by
  obtain ⟨t, hrun, hP⟩ := hf
  refine gives_step (P := fun p => p.2 = t) ⟨((), t), ?_, rfl⟩ (fun _ _ h => ?_)
  · simp [hrun, bind, Except.bind, pure, Except.pure]
  · subst h
    exact hg _ hP

/-- A question to the store, followed by an action on the same store. -/
theorem gives_ask {f : Store → Except Fault α} {g : α → Action β} {P : α → Prop}
    {Q : Except Rejection β × Store → Prop} (hf : Gives (f s) P)
    (hg : ∀ a, P a → Gives (g a s) Q) : Gives ((ask f >>= g) s) Q := by
  obtain ⟨a, hrun, hP⟩ := hf
  refine gives_step (P := fun p => p = (a, s)) ⟨(a, s), ?_, rfl⟩ (fun _ _ h => ?_)
  · simp [hrun, bind, Except.bind, pure, Except.pure]
  · cases h
    exact hg _ hP

theorem gives_ask_of_eq {f : Store → Except Fault α} {g : α → Action β} {a : α}
    {Q : Except Rejection β × Store → Prop} (hf : f s = .ok a) (hg : Gives (g a s) Q) :
    Gives ((ask f >>= g) s) Q :=
  gives_ask (P := (· = a)) (gives_of_eq hf rfl) fun _ ha => ha ▸ hg

/-- A question that is followed by an action with a result has been answered. -/
theorem of_ask {f : Store → Except Fault α} {g : α → Action β} {p : Except Rejection β × Store}
    (h : (ask f >>= g) s = .ok p) : ∃ a, f s = .ok a ∧ g a s = .ok p := by
  cases hf : f s with
  | error e =>
    have hask : ask f s = .error e := by simp [ask, step, hf, bind, Except.bind]
    rw [bind_of_fault hask] at h
    cases h
  | ok a =>
    have hask : ask f s = .ok (.ok a, s) := by
      simp [ask, step, hf, bind, Except.bind, pure, Except.pure]
    rw [bind_of_ok hask] at h
    exact ⟨a, rfl, h⟩

/-- An action after another has a result only if the other has one. -/
theorem of_bind {x : Action α} {f : α → Action β} {u : Store} {b : β}
    (h : (x >>= f) s = .ok (.ok b, u)) :
    ∃ a t, x s = .ok (.ok a, t) ∧ f a t = .ok (.ok b, u) := by
  cases hx : x s with
  | error e => exact nomatch (bind_of_fault hx).symm.trans h
  | ok p =>
    obtain ⟨result, t⟩ := p
    cases result with
    | error e => exact nomatch (bind_of_rejected hx).symm.trans h
    | ok a => exact ⟨a, t, rfl, (bind_of_ok hx).symm.trans h⟩

theorem gives_change_of_eq {f : Store → Except Fault Store} {g : Unit → Action β} {t : Store}
    {Q : Except Rejection β × Store → Prop} (hf : f s = .ok t) (hg : Gives (g () t) Q) :
    Gives ((change f >>= g) s) Q :=
  gives_change (P := (· = t)) (gives_of_eq hf rfl) fun _ ht => ht ▸ hg

theorem store_bind (g : Store → Action β) : ((store >>= g) s) = g s s := rfl

end Action

end DecisionGraph
