import DecisionGraph.Store

/-!
# Actions

An action is a call on a store that may be rejected. What it did to the store before it was rejected
stays done. A fault breaks it off, and then there is no store to go on with.

Main statements:

* `bind_of_ok`, `bind_of_rejected`, `bind_of_fault` — an action after another runs only if the first
  was neither rejected nor broken off.
-/

namespace DecisionGraph

/-- A call on a store that may be rejected. -/
def Action (α : Type) : Type := Store → Except Fault (Except Rejection α × Store)

namespace Action

variable {α β : Type}

instance : Monad Action where
  pure a := fun s => .ok (.ok a, s)
  bind x f := fun s =>
    match x s with
    | .ok (.ok a, s) => f a s
    | .ok (.error e, s) => .ok (.error e, s)
    | .error e => .error e

/-- Rejects the call. -/
def reject (e : Rejection) : Action α := fun s => .ok (.error e, s)

/-- The store as it is. -/
def store : Action Store := fun s => .ok (.ok s, s)

/-- A step that cannot be rejected. -/
def step (f : Store → Except Fault (α × Store)) : Action α := fun s => do
  let (a, s) ← f s
  return (.ok a, s)

/-- A change of the store that has no result. -/
def change (f : Store → Except Fault Store) : Action Unit := step fun s => do return ((), ← f s)

/-- A question to the store. -/
def ask (f : Store → Except Fault α) : Action α := step fun s => do return (← f s, s)

@[simp] theorem pure_apply (a : α) (s : Store) : (pure a : Action α) s = .ok (.ok a, s) := rfl

theorem bind_of_ok {x : Action α} {f : α → Action β} {s t : Store} {a : α}
    (h : x s = .ok (.ok a, t)) : (x >>= f) s = f a t := by
  simp only [bind, h]

theorem bind_of_rejected {x : Action α} {f : α → Action β} {s t : Store} {e : Rejection}
    (h : x s = .ok (.error e, t)) : (x >>= f) s = .ok (.error e, t) := by
  simp only [bind, h]

theorem bind_of_fault {x : Action α} {f : α → Action β} {s : Store} {e : Fault}
    (h : x s = .error e) : (x >>= f) s = .error e := by
  simp only [bind, h]

end Action

end DecisionGraph
