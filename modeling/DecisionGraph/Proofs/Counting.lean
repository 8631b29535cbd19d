import Mathlib.Data.Fintype.BigOperators
import DecisionGraph.Proofs.Functions

/-!
# Counting the assignments under which a node is true

Counts are taken over the assignments to all variables, tested below the node or not. A test agrees
with one of its children at an assignment, and with the other where the value of its variable is
flipped; the children themselves do not mind the flip, since they lie on lower levels and the
variable is not tested there again. So an assignment and its flip count for the test as often as the
assignment alone counts for its two children. Flipping only permutes the assignments. Hence the
counts of the children add up to twice the count of the test, whichever levels are skipped and even
if the test is idle, and no half is ever rounded.

* `models` — the number of assignments under which a node is true.
* `Valid.models_add_models` — the counts of the children of a test add up to twice its own.
* `Tallied`, `Valid.satCountWithin_tallies` — what the traversal notes on its way.
-/

namespace DecisionGraph

/-- What a traversal has for a node that it has done: none of `total` assignments for the one
terminal and all of them for the other, and what is noted for an inner node. -/
def tally (total : Nat) (known : NodeMap Nat) : NodeId → Option Nat
  | .zero => some 0
  | .one => some total
  | .inner i => known[NodeId.inner i]?

/-- The values with that of one variable flipped. -/
def flipAt {count : Nat} (i : Fin count) (a : Fin count → Bool) : Fin count → Bool :=
  Function.update a i !(a i)

theorem flipAt_involutive {count : Nat} (i : Fin count) : Function.Involutive (flipAt i) := by
  intro a
  simp [flipAt]

theorem ofFn_flipAt {count : Nat} (i : Fin count) (a : Fin count → Bool) :
    Array.ofFn (flipAt i a) = (Array.ofFn a).setIfInBounds i !(a i) := by
  apply Array.ext
  · simp
  · intro j h h'
    rw [Array.getElem_setIfInBounds (by simpa using h)]
    simp [flipAt, Function.update, Fin.ext_iff, eq_comm]

namespace Store

variable {s : Store} {held : Holding} {b : Branch} {m n : NodeId} {values : Array Bool}
  {known : NodeMap Nat} {total : Nat}

/-- The number of assignments to all variables under which a node is true. -/
def models (s : Store) (n : NodeId) : Nat :=
  (Finset.univ.filter fun a : Fin s.varCount → Bool =>
    s.evaluate n (Array.ofFn a) = .ok true).card

/-- What one assignment counts for a node. -/
def truth (s : Store) (n : NodeId) (a : Fin s.varCount → Bool) : Nat :=
  if s.evaluate n (Array.ofFn a) = .ok true then 1 else 0

theorem models_eq_sum (s : Store) (n : NodeId) : s.models n = ∑ a, s.truth n a :=
  Finset.card_filter _ _

/-! ## One assignment and its flip -/

theorem assignmentOf_ofFn {count : Nat} (a : Fin count → Bool) (i : Fin count) :
    assignmentOf (Array.ofFn a) ⟨i⟩ = a i := by
  simp [assignmentOf]

/-- A test has the value of one of its children. -/
theorem Valid.evaluate_branch (h : s.Valid held) (hb : s.diagram.branch? n = some b)
    (hvalues : s.varCount ≤ values.size) :
    s.evaluate n values =
      s.evaluate (if assignmentOf values b.var then b.high else b.low) values := by
  obtain ⟨x, hx⟩ := h.exists_value (Diagram.alive_of_branch? hb) (assignmentOf values)
  have hchild := h.closed.child hb (assignmentOf values b.var)
  rw [(h.evaluate_eq_ok_iff (Diagram.alive_of_branch? hb) hvalues).mpr hx,
    (h.evaluate_eq_ok_iff hchild hvalues).mpr (hx.of_branch? hb)]

/-- The value of a node does not depend on a variable above it. -/
theorem Valid.evaluate_flip (h : s.Valid held) (hn : s.diagram.alive n) (i : Fin s.varCount)
    (hi : s.order.levelOf ⟨i⟩ < s.diagram.levelIn s.order n) (a : Fin s.varCount → Bool) :
    s.evaluate n (Array.ofFn (flipAt i a)) = s.evaluate n (Array.ofFn a) := by
  have hsize : s.varCount ≤ (Array.ofFn a).size := by simp
  obtain ⟨x, hx⟩ := h.exists_value hn (assignmentOf (Array.ofFn a))
  rw [(h.evaluate_eq_ok_iff hn hsize).mpr hx, h.evaluate_eq_ok_iff hn (by simp), ofFn_flipAt,
    assignmentOf_setIfInBounds (v := ⟨i⟩) (by simp)]
  exact (Diagram.value_set_iff h.layered hi).mpr hx

/-- An assignment and its flip count for a test as often as the assignment counts for the two
children. -/
theorem Valid.truth_add_truth (h : s.Valid held) (hb : s.diagram.branch? n = some b)
    {i : Fin s.varCount} (hi : b.var = ⟨i⟩) (a : Fin s.varCount → Bool) :
    s.truth b.low a + s.truth b.high a = s.truth n a + s.truth n (flipAt i a) := by
  obtain ⟨hlow, hhigh⟩ := h.closed n b hb
  obtain ⟨hllow, hlhigh⟩ := h.layered n b hb
  have hsize : ∀ a : Fin s.varCount → Bool, s.varCount ≤ (Array.ofFn a).size := by simp
  have hhere := h.evaluate_branch hb (hsize a)
  have hthere := h.evaluate_branch hb (hsize (flipAt i a))
  rw [hi, assignmentOf_ofFn] at hhere hthere
  rw [hi] at hllow hlhigh
  have hflipped : flipAt i a i = !(a i) := Function.update_self i _ a
  simp only [truth]
  cases hai : a i with
  | false =>
    rw [hflipped, hai, Bool.not_false, if_pos rfl, h.evaluate_flip hhigh i hlhigh] at hthere
    rw [hai, if_neg Bool.false_ne_true] at hhere
    rw [hhere, hthere]
  | true =>
    rw [hflipped, hai, Bool.not_true, if_neg Bool.false_ne_true,
      h.evaluate_flip hlow i hllow] at hthere
    rw [hai, if_pos rfl] at hhere
    rw [hhere, hthere, Nat.add_comm]

/-! ## All assignments -/

/-- The counts of the children of a test add up to twice its own. -/
theorem Valid.models_add_models (h : s.Valid held) (hb : s.diagram.branch? n = some b) :
    s.models b.low + s.models b.high = 2 * s.models n := by
  let i : Fin s.varCount := ⟨b.var.index, VarOrder.knows_iff.mp (h.sound.knows n b hb)⟩
  have hflips : ∑ a, s.truth n (flipAt i a) = ∑ a, s.truth n a :=
    Equiv.sum_comp (flipAt_involutive i).toPerm (s.truth n)
  simp only [models_eq_sum]
  calc
    ∑ a, s.truth b.low a + ∑ a, s.truth b.high a
      = ∑ a, (s.truth b.low a + s.truth b.high a) := Finset.sum_add_distrib.symm
    _ = ∑ a, (s.truth n a + s.truth n (flipAt i a)) :=
        Finset.sum_congr rfl fun a _ => h.truth_add_truth hb (i := i) rfl a
    _ = ∑ a, s.truth n a + ∑ a, s.truth n (flipAt i a) := Finset.sum_add_distrib
    _ = 2 * ∑ a, s.truth n a := by rw [hflips, Nat.two_mul]

theorem Valid.models_terminal (h : s.Valid held) (value : Bool) :
    s.models (.terminal value) = if value then 2 ^ s.varCount else 0 := by
  have hvalue : ∀ a : Fin s.varCount → Bool,
      s.evaluate (.terminal value) (Array.ofFn a) = .ok value :=
    fun a => h.denotes_terminal value _ (by simp)
  cases value <;> simp [models, hvalue]

/-! ## The traversal -/

/-- A node has been done, and what there is for it is its count. -/
def Counted (s : Store) (known : NodeMap Nat) (n : NodeId) : Prop :=
  tally (2 ^ s.varCount) known n = some (s.models n)

/-- What is noted of a node is its count, and its children have been done. -/
def Tallied (s : Store) (known : NodeMap Nat) : Prop :=
  ∀ n k, known[n]? = some k → k = s.models n ∧ ∀ m, s.diagram.Child n m → s.Counted known m

theorem tallied_empty (s : Store) : s.Tallied ∅ := by
  intro n k hk
  simp at hk

theorem Counted.insert (h : s.Counted known m) (n : NodeId) :
    s.Counted (known.insert n (s.models n)) m := by
  cases m with
  | terminal value => cases value <;> exact h
  | inner i =>
    simp only [Counted, tally, Std.TreeMap.getElem?_insert, Std.LawfulEqOrd.compare_eq_iff_eq]
    split
    · subst n
      rfl
    · exact h

theorem counted_insert (s : Store) (known : NodeMap Nat) (i : Nat) :
    s.Counted (known.insert (.inner i) (s.models (.inner i))) (.inner i) :=
  Std.TreeMap.getElem?_insert_self

/-- A test is noted when its children have been done. -/
theorem Tallied.insert (h : s.Tallied known) (hb : s.diagram.branch? n = some b)
    (hlow : s.Counted known b.low) (hhigh : s.Counted known b.high) :
    s.Tallied (known.insert n (s.models n)) := by
  have hchildren : ∀ m, s.diagram.Child n m → s.Counted (known.insert n (s.models n)) m := by
    intro m hm
    rcases (Diagram.child_iff hb).mp hm with rfl | rfl
    · exact hlow.insert n
    · exact hhigh.insert n
  refine forall_entry_insert (fun m k hk => ?_) ⟨rfl, hchildren⟩
  obtain ⟨hcount, hdone⟩ := h m k hk
  exact ⟨hcount, fun m' hm' => (hdone m' hm').insert n⟩

/-- What lies below a node that has been done has been done. -/
theorem Tallied.counted_of_below (h : s.Tallied known) (hn : s.Counted known n)
    (hm : s.diagram.Below n m) : s.Counted known m := by
  induction hm with
  | refl => exact hn
  | @step k _ _ edge ih =>
    cases k with
    | terminal value => exact absurd edge Diagram.not_child_terminal
    | inner i => exact (h _ _ ih).2 _ edge

/-- The traversal gives the count of a node, and leaves the node done. -/
theorem Valid.satCountWithin_tallies (h : s.Valid held) (k : Nat) (hknown : s.Tallied known) :
    IfGives (s.diagram.satCountWithin (2 ^ s.varCount) k n known) fun p =>
      p.1 = s.models n ∧ s.Tallied p.2 ∧ s.Counted p.2 n ∧
        ∀ m, s.Counted known m → s.Counted p.2 m := by
  induction k generalizing n known with
  | zero => exact ifGives_error
  | succ k ih =>
    cases n with
    | terminal value =>
      have hcount := h.models_terminal value
      cases value <;>
        exact ifGives_ok ⟨hcount.symm, hknown, congrArg some hcount.symm, fun _ hm => hm⟩
    | inner i =>
      unfold Diagram.satCountWithin
      split
      · rename_i count hfound
        have hcount := (hknown _ count hfound).1
        exact ifGives_ok ⟨hcount, hknown, hfound.trans (congrArg some hcount), fun _ hm => hm⟩
      · refine IfGives.bind (P := fun b => s.diagram.branch? (.inner i) = some b)
          (fun b hb => Diagram.branch_eq_ok_iff.mp hb) fun b hb => ?_
        refine IfGives.bind (ih hknown) fun ⟨low, known₁⟩ ⟨hlow, hknown₁, hdone₁, hkept₁⟩ => ?_
        refine IfGives.bind (ih hknown₁) fun ⟨high, known₂⟩ ⟨hhigh, hknown₂, hdone₂, hkept₂⟩ => ?_
        have hcount : (low + high) / 2 = s.models (.inner i) := by
          have hsum := h.models_add_models hb
          obtain rfl : low = s.models b.low := hlow
          obtain rfl : high = s.models b.high := hhigh
          omega
        refine ifGives_ok ⟨hcount, ?_, ?_, fun m hm => ?_⟩
        · exact hcount ▸ hknown₂.insert hb (hkept₂ _ hdone₁) hdone₂
        · exact hcount ▸ s.counted_insert known₂ i
        · exact hcount ▸ (hkept₂ m (hkept₁ m hm)).insert (.inner i)

/-- The traversal from a live node ends with its count. For each test below the node, the counts of
the children add up to an even number, and half of that is noted. -/
theorem Valid.satCount_run (h : s.Valid held) (hn : s.diagram.alive n) :
    ∃ known, s.diagram.satCountWithin (2 ^ s.varCount) s.diagram.depth n ∅ =
        .ok (s.models n, known) ∧
      ∀ m b, s.diagram.Below n m → s.diagram.branch? m = some b →
        ∃ low high, tally (2 ^ s.varCount) known b.low = some low ∧
          tally (2 ^ s.varCount) known b.high = some high ∧ 2 ∣ low + high ∧
          known[m]? = some ((low + high) / 2) := by
  have hends := Diagram.satCountWithin_depth_gives h.closed h.layered (2 ^ s.varCount) hn
  obtain ⟨⟨count, known⟩, hrun, -, hcount, hknown, hdone, -⟩ :=
    hends.and (h.satCountWithin_tallies s.diagram.depth s.tallied_empty)
  obtain rfl : count = s.models n := hcount
  refine ⟨known, hrun, fun m b hm hb => ?_⟩
  have hsum := h.models_add_models hb
  have hnoted : known[m]? = some (s.models m) := by
    have hcounted := hknown.counted_of_below hdone hm
    cases m with
    | terminal value => simp at hb
    | inner i => exact hcounted
  refine ⟨s.models b.low, s.models b.high,
    hknown.counted_of_below hdone (hm.step (.low hb)),
    hknown.counted_of_below hdone (hm.step (.high hb)), ⟨s.models m, hsum⟩, ?_⟩
  rw [hnoted, hsum, Nat.mul_div_cancel_left _ Nat.zero_lt_two]

end Store

namespace Client

variable {c : Client} {f : NodeId}

/-- In every reachable state, the count of a live node is the number of assignments to the variables
under which the node is true, and no half that is taken for it is rounded. -/
theorem satCount_exact (hc : Reachable c) (hf : c.store.alive f) :
    c.store.satCount f = .ok (c.store.models f) ∧
      ∃ known, c.store.diagram.satCountWithin (2 ^ c.store.varCount) c.store.diagram.depth f ∅ =
          .ok (c.store.models f, known) ∧
        ∀ n b, c.store.diagram.Below f n → c.store.diagram.branch? n = some b →
          ∃ low high, tally (2 ^ c.store.varCount) known b.low = some low ∧
            tally (2 ^ c.store.varCount) known b.high = some high ∧ 2 ∣ low + high ∧
            known[n]? = some ((low + high) / 2) := by
  obtain ⟨known, hrun, hhalves⟩ := hc.valid.satCount_run hf
  refine ⟨?_, known, hrun, hhalves⟩
  have hstart : c.store.satCount f = (c.store.diagram.satCountWithin (2 ^ c.store.varCount)
      c.store.diagram.depth f ∅ >>= fun p => pure p.1) := rfl
  rw [hstart, hrun]
  rfl

/-- An idle test over a test, after an exchange, with a variable that was added later. -/
theorem satCount_exact_exchanged : ∃ c : Client,
    (start 3 ⟨1, ⟨0⟩⟩).after [.create ⟨2⟩ .zero .one, .create ⟨1⟩ (.inner 0) (.inner 0),
      .createHeld ⟨0⟩ .zero (.inner 1), .swap ⟨0⟩ ⟨1⟩, .addVariable] = some c ∧
    c.store.diagram.branch? (.inner 2) = some ⟨⟨.inner 3, .inner 3⟩, ⟨1⟩⟩ ∧
    c.store.satCount (.inner 2) = .ok 4 ∧ c.store.models (.inner 2) = 4 := by
  let calls : List Call := [.create ⟨2⟩ .zero .one, .create ⟨1⟩ (.inner 0) (.inner 0),
    .createHeld ⟨0⟩ .zero (.inner 1), .swap ⟨0⟩ ⟨1⟩, .addVariable]
  have hends : ((start 3 ⟨1, ⟨0⟩⟩).after calls).map (fun c =>
      (c.store.diagram.branch? (.inner 2), (c.store.satCount (.inner 2)).toOption)) =
      some (some ⟨⟨.inner 3, .inner 3⟩, ⟨1⟩⟩, some 4) := by
    decide +kernel
  obtain ⟨c, hc, hfound⟩ := Option.map_eq_some_iff.mp hends
  rw [Prod.mk.injEq] at hfound
  obtain ⟨hidle, hcounted⟩ := hfound
  obtain ⟨hcount, -⟩ := satCount_exact (reachable_of_after hc) (Diagram.alive_of_branch? hidle)
  rw [hcount, Except.toOption, Option.some.injEq] at hcounted
  exact ⟨c, hc, hidle, hcounted ▸ hcount, hcounted⟩

end Client

end DecisionGraph
