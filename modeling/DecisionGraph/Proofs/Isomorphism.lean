import Mathlib.Data.Set.Function
import DecisionGraph.Proofs.Runs

/-!
# Exchanges lead back

Exchanges relabel nodes, take some and make others with new numbers. What they keep is the function
of every node that stays, and that no idle test comes below it. Under one order this leaves no
choice for the graph of a node: whatever lies below the node has one like below the other, on the
same level and over the likes of its children. So when the order is again what it was, whatever way
it has come, the graph of a held node is a copy of the one at the start.

* `Alike.levelIn_le`, `Alike.exists_branch` — nodes with one function and no idle tests: their
  levels and their children.
* `Copies`, `Alike.exists_copy` — the graph of one is a copy of the graph of the other.
* `swapAll`, `Valid.swapAll_ends` — runs of exchanges.
-/

namespace DecisionGraph

namespace Diagram

/-- `copy` takes what lies below `m` in `d`, one to one, to what lies below `n` in `d'`: `m` to `n`,
terminals to themselves, and a test to the test of the same variable over the copies of its
children. -/
structure Copies (d : Diagram) (m : NodeId) (d' : Diagram) (n : NodeId) (copy : NodeId → NodeId) :
    Prop where
  bijOn : Set.BijOn copy {k | d.Below m k} {k | d'.Below n k}
  root : copy m = n
  terminal : ∀ value, d.Below m (.terminal value) → copy (.terminal value) = .terminal value
  branch : ∀ k b, d.Below m k → d.branch? k = some b →
    d'.branch? (copy k) = some ⟨⟨copy b.low, copy b.high⟩, b.var⟩

variable {d d' : Diagram} {o : VarOrder} {b : Branch} {m n : NodeId}

theorem Ordered.levelIn_le (h : d.Ordered o) (ha : d.alive n) : d.levelIn o n ≤ o.size := by
  rcases alive_iff.mp ha with hterminal | ⟨b, hb⟩
  · cases n with
    | terminal value => exact Nat.le_refl _
    | inner i => cases hterminal
  · exact Nat.le_of_lt (h.knows.levelIn_lt h.lawful hb)

/-- A node with no idle test below it lies no higher than another with the same function: above that
it would test a variable on which the function does not depend. -/
theorem Alike.levelIn_le (halike : d.Alike m d' n) (h : d.Ordered o) (h' : d'.Ordered o)
    (hd' : d'.Distinct) (hm : d.alive m) (hn : d'.alive n) (hr : d'.Reduced n) :
    d.levelIn o m ≤ d'.levelIn o n := by
  refine Nat.le_of_not_lt fun hlt => ?_
  obtain ⟨b, hb⟩ := exists_branch_of_levelIn_lt (Nat.lt_of_lt_of_le hlt (h.levelIn_le hm))
  rw [levelIn_of_branch? hb] at hlt
  obtain ⟨hlow, hhigh⟩ := halike.children h h' hm hb hlt
  have hchildren : b.low = b.high := h'.eq_of_alike_below hd' hn hr (Child.low hb).below
    (Child.high hb).below (hlow.symm.trans hhigh)
  exact hr n .refl ⟨b, hb, hchildren⟩

/-- Two nodes with one function and no idle test below them test the same variable, over children
with the same functions. -/
theorem Alike.exists_branch (halike : d.Alike m d' n) (h : d.Ordered o) (h' : d'.Ordered o)
    (hd : d.Distinct) (hd' : d'.Distinct) (hn : d'.alive n) (hr : d.Reduced m)
    (hr' : d'.Reduced n) (hb : d.branch? m = some b) :
    ∃ k : Children, d'.branch? n = some ⟨k, b.var⟩ ∧ d.Alike b.low d' k.low ∧
      d.Alike b.high d' k.high := by
  have hm := alive_of_branch? hb
  have hlevel : d.levelIn o m = o.levelOf b.var := levelIn_of_branch? hb
  have hsame : d'.levelIn o n = d.levelIn o m := Nat.le_antisymm
    (halike.symm.levelIn_le h' h hd hn hm hr) (halike.levelIn_le h h' hd' hm hn hr')
  obtain ⟨⟨k, v⟩, hb'⟩ := exists_branch_of_levelIn_lt (hsame ▸ h.knows.levelIn_lt h.lawful hb)
  obtain rfl : v = b.var := h'.knows.var_eq h'.lawful hb' (hsame.trans hlevel)
  have hsm := h.splits (h.knows m b hb) hm (Nat.le_of_eq hlevel.symm)
  have hsn := h'.splits (h.knows m b hb) hn (Nat.le_of_eq (hsame.trans hlevel).symm)
  rw [cofactorsOf_of_var hb] at hsm
  rw [show d'.cofactorsOf b.var n = k from cofactorsOf_of_var hb'] at hsn
  exact ⟨k, hb', halike.splits hsm hsn h.layered h'.layered⟩

/-- The graphs of two nodes with one function and no idle test below them are copies of each
other. -/
theorem Alike.exists_copy (halike : d.Alike m d' n) (h : d.Ordered o) (h' : d'.Ordered o)
    (hd : d.Distinct) (hd' : d'.Distinct) (hm : d.alive m) (hn : d'.alive n) (hr : d.Reduced m)
    (hr' : d'.Reduced n) : ∃ copy, d.Copies m d' n copy := by
  choose! copy hbelow halive hlike using fun k (hk : d.Below m k) => halike.exists_below h h' hn hk
  -- the like of a node is the only one
  have hunique : ∀ k k', d.Below m k → d'.Below n k' → d.Alike k d' k' → copy k = k' :=
    fun k k' hk hk' hlike' => h'.eq_of_alike_below hd' hn hr' (hbelow k hk) hk'
      ((hlike k hk).symm.trans hlike')
  refine ⟨copy, ⟨fun k hk => hbelow k hk, fun k hk k' hk' heq => ?_, fun k' hk' => ?_⟩,
    hunique m n .refl .refl halike, fun value hvalue => ?_, fun k b hk hb => ?_⟩
  · exact h.eq_of_alike_below hd hm hr hk hk' ((hlike k hk).trans (heq ▸ (hlike k' hk').symm))
  · obtain ⟨k, hk, -, hlike'⟩ := halike.symm.exists_below h' h hm hk'
    exact ⟨k, hk, hunique k k' hk hk' hlike'.symm⟩
  · have hlike' : d'.Alike (copy (.terminal value)) d' (.terminal value) :=
      (hlike _ hvalue).symm.trans fun a x => by rw [value_terminal_iff, value_terminal_iff]
    exact h'.eq_of_alike hd' (halive _ hvalue) rfl (hr'.of_below (hbelow _ hvalue))
      (reduced_terminal d' value) hlike'
  · obtain ⟨c, hc, hlow, hhigh⟩ := (hlike k hk).exists_branch h h' hd hd' (halive k hk)
      (hr.of_below hk) (hr'.of_below (hbelow k hk)) hb
    have hclow := hunique b.low c.low (hk.trans (Child.low hb).below)
      ((hbelow k hk).trans (Child.low hc).below) hlow
    have hchigh := hunique b.high c.high (hk.trans (Child.high hb).below)
      ((hbelow k hk).trans (Child.high hc).below) hhigh
    rw [hclow, hchigh]
    exact hc

end Diagram

namespace Store

variable {s : Store} {held : Holding}

/-- Exchanges one after the other, up to the first that is rejected. -/
def swapAll : List (Var × Var) → Action Unit
  | [] => pure ()
  | (v, w) :: rest => do
    swap v w
    swapAll rest

theorem Valid.swapAll_ends (h : s.Valid held) (swaps : List (Var × Var)) :
    Gives (swapAll swaps s) (Ends held s (fun _ => True) fun _ _ => True) := by
  induction swaps generalizing s with
  | nil => exact ends_pure h.steady trivial
  | cons p rest ih =>
    refine ends_bind (gives_mono (h.swap_ends p.1 p.2) fun _ hp => hp.anyhow) fun _ t ht _ => ?_
    exact gives_mono (ih ht.valid) fun _ hp => hp.after ht

end Store

namespace Client

variable {c : Client} {f : NodeId} {t : Store}

/-- A held node with no idle test below it keeps to that in any run of exchanges. If every level has
its variable back in the end, the graph of the node is a copy of what it was, and has the same
size. -/
theorem exchanges_copy (hc : Reachable c) (hheld : 0 < c.held f) (hr : c.store.diagram.Reduced f)
    {swaps : List (Var × Var)} (hrun : Store.swapAll swaps c.store = .ok (.ok (), t)) :
    t.alive f ∧ t.diagram.Reduced f ∧
      ((∀ l, t.order.varAt? l = c.store.order.varAt? l) →
        (∃ copy, c.store.diagram.Copies f t.diagram f copy) ∧
          ∃ size, c.store.size f = .ok size ∧ t.size f = .ok size) := by
  have hvalid := hc.valid
  have hsteady : Store.Steady c.held c.store t := ((hvalid.swapAll_ends swaps).of_eq hrun).1
  have ha := hvalid.sound.alive_of_held hheld
  have ha' := hsteady.valid.sound.alive_of_held hheld
  have hr' := hsteady.tidy.evolves.reduced f ha ha' hr
  refine ⟨ha', hr', fun hback => ?_⟩
  have horder : t.order = c.store.order := hsteady.valid.lawful.ext_varAt? hvalid.lawful hback
  have halike : c.store.diagram.Alike f t.diagram f := hsteady.tidy.evolves.value f ha ha'
  obtain ⟨size, hsize⟩ := hvalid.size_gives ha
  refine ⟨halike.exists_copy hvalid.ordered (horder ▸ hsteady.valid.ordered) hvalid.distinct
    hsteady.valid.distinct ha ha' hr hr', size, hsize, ?_⟩
  rw [← hvalid.size_eq hsteady.valid horder ha ha' hr hr' halike, hsize]

/-- Three variables are reversed and put back another way. A child of the held node is shared with
one over an idle test, and has another number in the end. -/
theorem exchanges_copy_renumbered : ∃ b c t,
    (start 3 ⟨1, ⟨0⟩⟩).after [.createHeld ⟨0⟩ .zero .one, .createHeld ⟨1⟩ .zero .one,
      .createHeld ⟨2⟩ .zero .one, .and (.inner 0) (.inner 1), .or (.inner 3) (.inner 2),
      .reference (.inner 5)] = some b ∧
    b.after [.createHeld ⟨2⟩ .zero .zero, .createHeld ⟨0⟩ (.inner 6) (.inner 4)] = some c ∧
    Store.swapAll [(⟨0⟩, ⟨1⟩), (⟨0⟩, ⟨2⟩), (⟨1⟩, ⟨2⟩), (⟨1⟩, ⟨0⟩), (⟨2⟩, ⟨0⟩), (⟨2⟩, ⟨1⟩)] c.store =
      .ok (.ok (), t) ∧
    t.diagram.branch? (.inner 5) ≠ c.store.diagram.branch? (.inner 5) ∧
    ∃ copy, c.store.diagram.Copies (.inner 5) t.diagram (.inner 5) copy := by
  let built : List Call := [.createHeld ⟨0⟩ .zero .one, .createHeld ⟨1⟩ .zero .one,
    .createHeld ⟨2⟩ .zero .one, .and (.inner 0) (.inner 1), .or (.inner 3) (.inner 2),
    .reference (.inner 5)]
  let raw : List Call := [.createHeld ⟨2⟩ .zero .zero, .createHeld ⟨0⟩ (.inner 6) (.inner 4)]
  let swaps : List (Var × Var) :=
    [(⟨0⟩, ⟨1⟩), (⟨0⟩, ⟨2⟩), (⟨1⟩, ⟨2⟩), (⟨1⟩, ⟨0⟩), (⟨2⟩, ⟨0⟩), (⟨2⟩, ⟨1⟩)]
  have hends : (((start 3 ⟨1, ⟨0⟩⟩).after built).bind fun b => (b.after raw).map fun c =>
      (decide (0 < b.held (.inner 5)), decide (0 < c.held (.inner 5)),
        (Store.swapAll swaps c.store).toOption.map fun p => decide (p.1.isOk ∧
          p.2.order = c.store.order ∧
            p.2.diagram.branch? (.inner 5) ≠ c.store.diagram.branch? (.inner 5)))) =
      some (true, true, some true) := by
    decide +kernel
  obtain ⟨b, hb, hends⟩ := Option.bind_eq_some_iff.mp hends
  obtain ⟨c, hc, hends⟩ := Option.map_eq_some_iff.mp hends
  simp only [Prod.mk.injEq, decide_eq_true_eq] at hends
  obtain ⟨hheldb, hheldc, hswaps⟩ := hends
  -- the raw nodes came last, so there was no idle test when the node was made
  have hreached := reachable_of_after hb
  have hidle := noIdle_of_after (.start 3 ⟨1, ⟨0⟩⟩) Diagram.noIdle_empty
    (by decide : ∀ call ∈ built, call.AvoidsIdle) hb
  obtain ⟨hreached', hmoves⟩ := hreached.run (run_iff_after.mpr ⟨raw, hc⟩)
  have hreduced := hmoves.evolves.reduced _ (hreached.valid.sound.alive_of_held hheldb)
    (hreached'.valid.sound.alive_of_held hheldc) (hidle.reduced _)
  obtain ⟨⟨result, t⟩, hrun, -⟩ := hreached'.valid.swapAll_ends swaps
  rw [hrun, Except.toOption, Option.map_some, Option.some.injEq, decide_eq_true_eq] at hswaps
  obtain ⟨hok, horder, hne⟩ := hswaps
  cases result with
  | error e => cases hok
  | ok u =>
    obtain ⟨-, -, hcopy⟩ := exchanges_copy hreached' hheldc hreduced hrun
    exact ⟨b, c, t, hb, hc, hrun, hne, (hcopy fun l => congrArg (VarOrder.varAt? · l) horder).1⟩

end Client

end DecisionGraph
