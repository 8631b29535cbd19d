import Mathlib.Data.Set.Card
import DecisionGraph.Proofs.Counting
import DecisionGraph.Proofs.Isomorphism

/-!
# What the size of a node counts

The size of a node is the number of nodes below it. The traversal that finds it can be carried out
with a stack of nodes to come. A shared node may lie on the stack several times; it is met when it
is first taken off, and passed over after that. Only a test that is met puts nodes on the stack, its
two children, so there is one turn for the root and there are two for every test below it.

If there is no idle test below the node, its function and the order alone tell the size. Fixing the
variables above a level leads down from the node, to the first node on that level or below, and what
is left of the function is the function of that node. All nodes below are found in this way, each by
its own level. There it is a terminal, and its function is constant, or it is a test, and its
function depends on the variable of the level, since the two children are not the same. And
different nodes have different functions.

* `Diagram.drain`, `Diagram.drain_gives` — the traversal by a stack.
* `VarOrder.fixAbove`, `VarOrder.subfunctions` — what is left of a function.
* `Valid.exists_fixed`, `Valid.exists_below_fixed` — fixing variables is going down.
* `Valid.subfunctions_eq` — what is left of the function of a node is the functions below it.
-/

namespace DecisionGraph

/-! ## The traversal by a stack -/

/-- The number of tests among the nodes met. -/
def Trail.tests (t : Trail) : Nat := t.nodes.countP fun n => !n.isTerminal

theorem Trail.tests_empty : Trail.empty.tests = 0 := rfl

theorem Trail.tests_push_terminal (t : Trail) (value : Bool) :
    (t.push (.terminal value)).tests = t.tests := by
  simp [tests, push, NodeId.isTerminal]

theorem Trail.tests_push_inner (t : Trail) (i : Nat) :
    (t.push (.inner i)).tests = t.tests + 1 := by
  simp [tests, push, NodeId.isTerminal]

namespace Diagram

variable {d : Diagram} {o : VarOrder} {b : Branch} {n : NodeId} {t : Trail} {k : Nat}
  {stack : List NodeId}

/-- The traversal by a stack: the node on top is taken off, and unless it has been met before, its
children are put on, the high one on top. There are at most `k` turns. -/
def drain (d : Diagram) : Nat → List NodeId → Trail → Except Fault Trail
  | _, [], trail => .ok trail
  | 0, _ :: _, _ => .error .tooDeep
  | k + 1, n :: stack, trail =>
    if n ∈ trail.met then d.drain k stack trail
    else
      match n with
      | .terminal _ => d.drain k stack (trail.push n)
      | .inner _ => do
        let b ← d.branch n
        d.drain k (b.high :: b.low :: stack) (trail.push n)

@[simp] theorem drain_nil (d : Diagram) (k : Nat) (t : Trail) : d.drain k [] t = .ok t := by
  cases k <;> rfl

theorem drain_met (h : n ∈ t.met) : d.drain (k + 1) (n :: stack) t = d.drain k stack t := by
  rw [drain.eq_def]
  exact if_pos h

theorem drain_terminal {value : Bool} (h : NodeId.terminal value ∉ t.met) :
    d.drain (k + 1) (.terminal value :: stack) t = d.drain k stack (t.push (.terminal value)) := by
  rw [drain, if_neg h]

theorem drain_branch {i : Nat} (h : NodeId.inner i ∉ t.met)
    (hb : d.branch? (.inner i) = some b) :
    d.drain (k + 1) (.inner i :: stack) t =
      d.drain k (b.high :: b.low :: stack) (t.push (.inner i)) := by
  rw [drain, if_neg h, branch_eq_ok_iff.mpr hb]
  rfl

/-- A visit of `n` is what happens with `n` on top of the stack, until what was under it lies on
top: one turn for `n`, and two for every test that is met. -/
theorem visit_drains (k : Nat) : IfGives (d.visit k n t) fun t' =>
    ∃ turns, turns + 2 * t.tests = 2 * t'.tests + 1 ∧
      ∀ rest stack, d.drain (turns + rest) (n :: stack) t = d.drain rest stack t' := by
  induction k generalizing n t with
  | zero => exact ifGives_error
  | succ k ih =>
    rw [visit.eq_def]
    dsimp only
    split
    · rename_i hmet
      refine ifGives_ok ⟨1, by omega, fun rest stack => ?_⟩
      rw [Nat.add_comm, drain_met hmet]
    · rename_i hmet
      cases n with
      | terminal value =>
        have htests := t.tests_push_terminal value
        refine ifGives_ok ⟨1, by omega, fun rest stack => ?_⟩
        rw [Nat.add_comm, drain_terminal hmet]
      | inner i =>
        have htests := t.tests_push_inner i
        refine IfGives.bind (P := fun b => d.branch? (.inner i) = some b)
          (fun b hb => branch_eq_ok_iff.mp hb) fun b hb => ?_
        refine IfGives.bind ih fun t₁ hhigh => ?_
        obtain ⟨high, hhigh, hrunhigh⟩ := hhigh
        refine IfGives.mono ih fun t₂ hlow => ?_
        obtain ⟨low, hlow, hrunlow⟩ := hlow
        refine ⟨high + low + 1, by omega, fun rest stack => ?_⟩
        calc
          d.drain (high + low + 1 + rest) (.inner i :: stack) t
            = d.drain (high + (low + rest)) (b.high :: b.low :: stack) (t.push (.inner i)) := by
              rw [show high + low + 1 + rest = high + (low + rest) + 1 by omega,
                drain_branch hmet hb]
          _ = d.drain (low + rest) (b.low :: stack) t₁ := hrunhigh _ _
          _ = d.drain rest stack t₂ := hrunlow _ _

/-- The tests met from a live node are live tests, each met once. -/
theorem Visited.tests_le (h : d.Visited n .empty t) (hc : d.Closed) (ha : d.alive n) :
    t.tests ≤ d.inners.length := by
  have hnodup : (t.nodes.filter fun m => !m.isTerminal).Nodup := (h.nodup List.nodup_nil).filter _
  have hsubset : (t.nodes.filter fun m => !m.isTerminal) ⊆ d.inners := by
    intro m hm
    obtain ⟨hm, htest⟩ := List.mem_filter.mp hm
    have hbelow : d.Below n m := (h.below m hm).resolve_left List.not_mem_nil
    rcases alive_iff.mp (hbelow.alive hc ha) with hterminal | hb
    · simp [hterminal] at htest
    · exact mem_inners_iff.mpr hb
  rw [Trail.tests, List.countP_eq_length_filter]
  exact (hnodup.subperm hsubset).length_le

/-- With two turns for every live test and one more, the stack runs empty, and then as many nodes
have been met as the size says. -/
theorem drain_gives (hc : d.Closed) (hl : d.Layered o) (ha : d.alive n) :
    Gives (d.drain (2 * d.inners.length + 1) [n] .empty) fun t =>
      d.size n = .ok t.nodes.length := by
  have hdepth : d.height o n < d.depth := Nat.lt_succ_of_le (d.height_le o n)
  obtain ⟨t, hvisit, hvisited, turns, hturns, hdrain⟩ :=
    (visit_gives (t := .empty) hc hl (ranks_height d o) ha hdepth).and (visit_drains d.depth)
  have htests := hvisited.tests_le hc ha
  rw [Trail.tests_empty] at hturns
  obtain ⟨rest, hrest⟩ := Nat.exists_eq_add_of_le (show turns ≤ 2 * d.inners.length + 1 by omega)
  refine ⟨t, ?_, ?_⟩
  · rw [hrest, hdrain, drain_nil]
  · simp [size, reachable, hvisit, bind, Except.bind, pure, Except.pure]

theorem encard_below_gives (hc : d.Closed) (hl : d.Layered o) (ha : d.alive n) :
    Gives (d.size n) fun k => {m | d.Below n m}.encard = k := by
  refine gives_mono (size_gives hc hl ha) fun k ⟨ns, hnodup, hns, hk⟩ => ?_
  have hset : {m | d.Below n m} = ns.toFinset := by
    ext m
    simp [hns]
  rw [hset, Set.encard_coe_eq_coe_finsetCard, List.toFinset_card_of_nodup hnodup, hk]

end Diagram

/-! ## Fixing variables -/

/-- A function of the values of `count` variables. -/
abbrev BoolFunction (count : Nat) : Type := (Fin count → Bool) → Bool

namespace VarOrder

variable {o : VarOrder} {count : Nat} {l : Level} {i : Fin count} {fixed a : Fin count → Bool}

/-- The values that are fixed above level `l`, and free from there on. -/
def fixAbove (o : VarOrder) (l : Level) (fixed a : Fin count → Bool) : Fin count → Bool :=
  fun i => if o.levelOf ⟨i⟩ < l then fixed i else a i

/-- The functions that are left of `F` when, for some level, the variables above it are fixed. Only
those count that are constant or depend on the variable of the level. The level of the terminals,
below all variables, is one of the levels. -/
def subfunctions (o : VarOrder) (F : BoolFunction count) : Set (BoolFunction count) :=
  {G | ∃ l ≤ o.size, (∃ fixed, ∀ a, G a = F (o.fixAbove l fixed a)) ∧
    ((∃ x, ∀ a, G a = x) ∨
      ∃ i : Fin count, o.varAt? l = some ⟨i⟩ ∧ ∃ a, G (flipAt i a) ≠ G a)}

theorem fixAbove_of_lt (h : o.levelOf ⟨i⟩ < l) : o.fixAbove l fixed a i = fixed i := if_pos h

theorem fixAbove_of_le (h : l ≤ o.levelOf ⟨i⟩) : o.fixAbove l fixed a i = a i :=
  if_neg (Nat.not_lt.mpr h)

theorem fixAbove_eq_self (h : ∀ i : Fin count, o.levelOf ⟨i⟩ < l → a i = fixed i) :
    o.fixAbove l fixed a = a := by
  funext i
  unfold fixAbove
  split
  · rename_i hi
    exact (h i hi).symm
  · rfl

end VarOrder

namespace Store

variable {s : Store} {held : Holding} {b : Branch} {m n root : NodeId} {l : Nat}
  {i : Fin s.varCount} {a a' : Fin s.varCount → Bool}

/-- The function of a node, of the values of the variables by their indices. -/
def functionOf (s : Store) (n : NodeId) : BoolFunction s.varCount :=
  fun a => decide (s.evaluate n (Array.ofFn a) = .ok true)

theorem le_size_ofFn (a : Fin s.varCount → Bool) : s.varCount ≤ (Array.ofFn a).size := by simp

theorem Valid.evaluate_ofFn (h : s.Valid held) (hn : s.diagram.alive n)
    (a : Fin s.varCount → Bool) : s.evaluate n (Array.ofFn a) = .ok (s.functionOf n a) := by
  obtain ⟨x, hx⟩ := h.exists_value hn (assignmentOf (Array.ofFn a))
  rw [functionOf, (h.evaluate_eq_ok_iff hn (le_size_ofFn a)).mpr hx]
  cases x <;> simp

theorem Valid.functionOf_terminal (h : s.Valid held) (value : Bool) (a : Fin s.varCount → Bool) :
    s.functionOf (.terminal value) a = value := by
  have hvalue := h.denotes_terminal value _ (le_size_ofFn a)
  rw [h.evaluate_ofFn (Diagram.alive_terminal _ value) a, Except.ok.injEq] at hvalue
  exact hvalue

/-- The function of a node depends only on the variables at its level and below. -/
theorem Valid.functionOf_congr (h : s.Valid held) (hn : s.diagram.alive n)
    (heq : ∀ i : Fin s.varCount, s.diagram.levelIn s.order n ≤ s.order.levelOf ⟨i⟩ →
      a i = a' i) : s.functionOf n a = s.functionOf n a' := by
  have hvalue := (h.evaluate_eq_ok_iff hn (le_size_ofFn a)).mp (h.evaluate_ofFn hn a)
  have hvalue' : s.evaluate n (Array.ofFn a') = .ok (s.functionOf n a) := by
    refine (h.evaluate_eq_ok_iff hn (le_size_ofFn a')).mpr (hvalue.congr fun v hv => ?_)
    obtain ⟨j⟩ := v
    let i : Fin s.varCount := ⟨j, VarOrder.knows_iff.mp (hv.knows h.sound.knows)⟩
    exact (assignmentOf_ofFn a i).trans
      ((heq i (hv.levelIn_le h.layered)).trans (assignmentOf_ofFn a' i).symm)
  rw [h.evaluate_ofFn hn a', Except.ok.injEq] at hvalue'
  exact hvalue'.symm

theorem Valid.functionOf_fixAbove (h : s.Valid held) (hn : s.diagram.alive n)
    (hl : l ≤ s.diagram.levelIn s.order n) (fixed a : Fin s.varCount → Bool) :
    s.functionOf n (s.order.fixAbove l fixed a) = s.functionOf n a :=
  h.functionOf_congr hn fun _ hi => VarOrder.fixAbove_of_le (Nat.le_trans hl hi)

theorem Valid.functionOf_flipAt (h : s.Valid held) (hn : s.diagram.alive n)
    (hi : s.order.levelOf ⟨i⟩ < s.diagram.levelIn s.order n) (a : Fin s.varCount → Bool) :
    s.functionOf n (flipAt i a) = s.functionOf n a := by
  rw [functionOf, functionOf, h.evaluate_flip hn i hi a]

theorem Valid.functionOf_branch (h : s.Valid held) (hb : s.diagram.branch? n = some b)
    (hi : b.var = ⟨i⟩) (a : Fin s.varCount → Bool) :
    s.functionOf n a = s.functionOf (if a i then b.high else b.low) a := by
  rw [functionOf, functionOf, h.evaluate_branch hb (le_size_ofFn a), hi, assignmentOf_ofFn]

/-- Nodes with the same function are the same if there is no idle test below them. -/
theorem Valid.eq_of_functionOf_eq (h : s.Valid held) (hm : s.diagram.alive m)
    (hn : s.diagram.alive n) (hrm : s.diagram.Reduced m) (hrn : s.diagram.Reduced n)
    (heq : s.functionOf m = s.functionOf n) : m = n := by
  refine h.ordered.eq_of_alike h.distinct hm hn hrm hrn
    ((h.alike_iff_evaluate hm hn).mpr fun values hsize => ?_)
  have hvalues : values = Array.ofFn fun i : Fin s.varCount => values[i] := by
    apply Array.ext
    · simpa using hsize
    · simp
  rw [hvalues, h.evaluate_ofFn hm, h.evaluate_ofFn hn, heq]

/-- The variable of a test, by its index. -/
theorem Valid.exists_index (h : s.Valid held) (hb : s.diagram.branch? n = some b) :
    ∃ i : Fin s.varCount, b.var = ⟨i⟩ ∧ s.order.levelOf ⟨i⟩ = s.diagram.levelIn s.order n :=
  ⟨⟨b.var.index, VarOrder.knows_iff.mp (h.sound.knows n b hb)⟩, rfl,
    (Diagram.levelIn_of_branch? hb).symm⟩

/-! ## Going down -/

/-- A node below another has what is left of the function there when the variables above its own
level are fixed: those that are tested on a path down, to the values that it takes. -/
theorem Valid.exists_fixed (h : s.Valid held) (hroot : s.diagram.alive root)
    (hm : s.diagram.Below root m) : ∃ fixed, ∀ a, s.functionOf m a =
      s.functionOf root (s.order.fixAbove (s.diagram.levelIn s.order m) fixed a) := by
  induction hm with
  | refl =>
    exact ⟨fun _ => false, fun a => (h.functionOf_fixAbove hroot (Nat.le_refl _) _ a).symm⟩
  | @step n _ _ edge ih =>
    obtain ⟨fixed, hfixed⟩ := ih
    obtain ⟨b, x, hb, rfl⟩ := Diagram.child_iff_exists.mp edge
    obtain ⟨i, hi, hlevel⟩ := h.exists_index hb
    have hk := h.closed.child hb x
    have hdown := h.layered.child hb x
    refine ⟨Function.update fixed i x, fun a => ?_⟩
    -- under these values, the path goes on from `n` to the child
    let a' := s.order.fixAbove (s.diagram.levelIn s.order (if x then b.high else b.low))
      (Function.update fixed i x) a
    have hx : a' i = x :=
      (VarOrder.fixAbove_of_lt (hlevel ▸ hdown)).trans (Function.update_self i x fixed)
    have habove : s.order.fixAbove (s.diagram.levelIn s.order n) fixed a' = a' := by
      refine VarOrder.fixAbove_eq_self fun j hj => ?_
      have hne : j ≠ i := by
        rintro rfl
        exact Nat.lt_irrefl _ (hlevel ▸ hj)
      exact (VarOrder.fixAbove_of_lt (Nat.lt_trans hj hdown)).trans
        (Function.update_of_ne hne x fixed)
    calc
      s.functionOf (if x then b.high else b.low) a
        = s.functionOf (if x then b.high else b.low) a' :=
          (h.functionOf_fixAbove hk (Nat.le_refl _) _ a).symm
      _ = s.functionOf n a' := by rw [h.functionOf_branch hb hi, hx]
      _ = s.functionOf root a' := by rw [hfixed, habove]

/-- What is left of the function of a node when the variables above a level are fixed is the
function of a node below: the first that is not above the level, on the path of these values. -/
theorem Valid.exists_below_fixed (h : s.Valid held) (hroot : s.diagram.alive root)
    (hl : l ≤ s.varCount) (fixed : Fin s.varCount → Bool) : ∃ m, s.diagram.Below root m ∧
      ∀ a, s.functionOf m a = s.functionOf root (s.order.fixAbove l fixed a) := by
  induction hk : l - s.diagram.levelIn s.order root using Nat.strongRecOn generalizing root with
  | ind k ih =>
    by_cases hle : l ≤ s.diagram.levelIn s.order root
    · exact ⟨root, .refl, fun a => (h.functionOf_fixAbove hroot hle fixed a).symm⟩
    · have hlt : s.diagram.levelIn s.order root < l := Nat.lt_of_not_le hle
      obtain ⟨b, hb⟩ := Diagram.exists_branch_of_levelIn_lt (Nat.lt_of_lt_of_le hlt hl)
      obtain ⟨i, hi, hlevel⟩ := h.exists_index hb
      have hdown := h.layered.child hb (fixed i)
      obtain ⟨m, hm, hfun⟩ := ih _ (by omega) (h.closed.child hb (fixed i)) rfl
      refine ⟨m, ?_, fun a => ?_⟩
      · exact (Diagram.child_iff_exists.mpr ⟨b, fixed i, hb, rfl⟩).below.trans hm
      · have hfixed : s.order.fixAbove l fixed a i = fixed i :=
          VarOrder.fixAbove_of_lt (hlevel ▸ hlt)
        rw [hfun, h.functionOf_branch hb hi, hfixed]

/-! ## What is left -/

/-- The function of a test depends on the variable tested, or else the children would have the same
function and be the same. -/
theorem Valid.exists_functionOf_flipAt_ne (h : s.Valid held) (hn : s.diagram.Reduced n)
    (hb : s.diagram.branch? n = some b) (hi : b.var = ⟨i⟩) :
    ∃ a, s.functionOf n (flipAt i a) ≠ s.functionOf n a := by
  by_contra hnone
  have hsame : ∀ a, s.functionOf n (flipAt i a) = s.functionOf n a :=
    fun a => not_not.mp fun hne => hnone ⟨a, hne⟩
  obtain ⟨hlow, hhigh⟩ := h.closed n b hb
  obtain ⟨hllow, hlhigh⟩ := h.layered n b hb
  rw [hi] at hllow hlhigh
  have hrlow := hn.of_below (Diagram.Child.low hb).below
  have hrhigh := hn.of_below (Diagram.Child.high hb).below
  refine hn n .refl ⟨b, hb, h.eq_of_functionOf_eq hlow hhigh hrlow hrhigh (funext fun a => ?_)⟩
  have hhere := h.functionOf_branch hb hi a
  have hthere := h.functionOf_branch hb hi (flipAt i a)
  have hflipped : flipAt i a i = !(a i) := Function.update_self i _ a
  rw [hsame, hflipped] at hthere
  -- an assignment leads to one child, and its flip to the other
  cases hai : a i with
  | false =>
    simp only [hai, Bool.not_false, if_true, Bool.false_eq_true, if_false] at hhere hthere
    rw [← hhere, hthere, h.functionOf_flipAt hhigh hlhigh]
  | true =>
    simp only [hai, Bool.not_true, if_true, Bool.false_eq_true, if_false] at hhere hthere
    rw [← hhere, hthere, h.functionOf_flipAt hlow hllow]

/-- If there is no idle test below a node, what is left of its function is the functions of the
nodes below. -/
theorem Valid.subfunctions_eq (h : s.Valid held) (hroot : s.diagram.alive root)
    (hr : s.diagram.Reduced root) :
    s.order.subfunctions (s.functionOf root) = s.functionOf '' {n | s.diagram.Below root n} := by
  ext G
  constructor
  · -- a function that does not depend on the variable of the level is found at a lower one too
    rintro ⟨l, hl, ⟨fixed, hG⟩, -⟩
    obtain ⟨n, hn, hfun⟩ := h.exists_below_fixed hroot hl fixed
    exact ⟨n, hn, funext fun a => (hfun a).trans (hG a).symm⟩
  · rintro ⟨n, hn : s.diagram.Below root n, rfl⟩
    have ha := hn.alive h.closed hroot
    refine ⟨s.diagram.levelIn s.order n, h.ordered.levelIn_le ha, h.exists_fixed hroot hn, ?_⟩
    rcases Diagram.alive_iff.mp ha with hterminal | ⟨b, hb⟩
    · cases n with
      | terminal value => exact Or.inl ⟨value, h.functionOf_terminal value⟩
      | inner i => cases hterminal
    · obtain ⟨i, hi, hlevel⟩ := h.exists_index hb
      refine Or.inr ⟨i, ?_, h.exists_functionOf_flipAt_ne (hr.of_below hn) hb hi⟩
      rw [← hlevel, ← hi]
      exact h.lawful.varAt?_levelOf (h.sound.knows n b hb)

/-- If there is no idle test below a node, its size is the number of functions left of its own. -/
theorem Valid.encard_subfunctions (h : s.Valid held) (hroot : s.diagram.alive root)
    (hr : s.diagram.Reduced root) :
    (s.order.subfunctions (s.functionOf root)).encard = {n | s.diagram.Below root n}.encard := by
  rw [h.subfunctions_eq hroot hr]
  refine Set.InjOn.encard_image ?_
  intro m (hm : s.diagram.Below root m) n (hn : s.diagram.Below root n) heq
  exact h.eq_of_functionOf_eq (hm.alive h.closed hroot) (hn.alive h.closed hroot)
    (hr.of_below hm) (hr.of_below hn) heq

end Store

namespace Client

variable {c : Client} {root : NodeId}

/-- In every reachable state, the size of a live root is the number of the nodes below it, and the
traversal by a stack finds it with two turns for every live test and one more. If there is no idle
test below the root, its size is the number of functions that are left of its own when, for some
level of the order, the variables above the level are fixed, of those that are constant or depend on
the variable of the level. -/
theorem size_exact (hc : Reachable c) (hroot : c.store.alive root) :
    ∃ k : Nat, c.store.size root = .ok k ∧
      (∃ t, c.store.diagram.drain (2 * c.store.live + 1) [root] .empty = .ok t ∧
        t.nodes.length = k) ∧
      {n | c.store.diagram.Below root n}.encard = k ∧
      (∀ a, c.store.evaluate root (Array.ofFn a) = .ok (c.store.functionOf root a)) ∧
      (c.store.diagram.Reduced root →
        (c.store.order.subfunctions (c.store.functionOf root)).encard = k) := by
  have hvalid := hc.valid
  obtain ⟨k, hk, hbelow⟩ := Diagram.encard_below_gives hvalid.closed hvalid.layered hroot
  obtain ⟨t, ht, hsize⟩ := Diagram.drain_gives hvalid.closed hvalid.layered hroot
  rw [← hvalid.sound.live_eq] at ht
  rw [hk, Except.ok.injEq] at hsize
  exact ⟨k, hk, ⟨t, ht, hsize.symm⟩, hbelow, hvalid.evaluate_ofFn hroot,
    fun hr => (hvalid.encard_subfunctions hroot hr).trans hbelow⟩

/-- Two tests share a node, before an exchange and, with other nodes, after it. -/
theorem size_exact_exchanged : ∃ c : Client,
    (start 3 ⟨1, ⟨0⟩⟩).after [.create ⟨2⟩ .zero .one, .create ⟨1⟩ .zero (.inner 0),
      .create ⟨1⟩ (.inner 0) .one, .createHeld ⟨0⟩ (.inner 2) (.inner 1),
      .swap ⟨1⟩ ⟨2⟩] = some c ∧
    c.store.size (.inner 3) = .ok 6 ∧
    {n | c.store.diagram.Below (.inner 3) n}.encard = 6 ∧
    (c.store.order.subfunctions (c.store.functionOf (.inner 3))).encard = 6 := by
  let calls : List Call := [.create ⟨2⟩ .zero .one, .create ⟨1⟩ .zero (.inner 0),
    .create ⟨1⟩ (.inner 0) .one, .createHeld ⟨0⟩ (.inner 2) (.inner 1), .swap ⟨1⟩ ⟨2⟩]
  have hends : ((start 3 ⟨1, ⟨0⟩⟩).after calls).map (fun c =>
      (c.store.alive (.inner 3), (c.store.size (.inner 3)).toOption)) = some (true, some 6) := by
    decide +kernel
  obtain ⟨c, hc, hfound⟩ := Option.map_eq_some_iff.mp hends
  rw [Prod.mk.injEq] at hfound
  obtain ⟨halive, hsix⟩ := hfound
  have hidle := noIdle_of_after (.start 3 ⟨1, ⟨0⟩⟩) Diagram.noIdle_empty
    (by decide : ∀ call ∈ calls, call.AvoidsIdle) hc
  obtain ⟨k, hsize, -, hbelow, -, hleft⟩ := size_exact (reachable_of_after hc) halive
  rw [hsize, Except.toOption, Option.some.injEq] at hsix
  subst k
  exact ⟨c, hc, hsize, hbelow, hleft (hidle.reduced _)⟩

end Client

end DecisionGraph
