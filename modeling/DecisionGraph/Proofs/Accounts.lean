import DecisionGraph.Store
import DecisionGraph.Proofs.Layers
import DecisionGraph.Proofs.UniqueTable

/-!
# The accounts of a store

A store keeps three accounts of its diagram: the counts of references, the number of live inner
nodes, and the unique table. `Store.Sound s out held` says that all three are right. In the middle
of an operation some live nodes may be missing from the unique table, which is what `out` is for,
and references may be held by the operation itself, so that `held` is not only what clients hold.

Dead nodes have no references. So a node with an edge into it, or one that is held, is alive, and
the children of live nodes are alive (`Sound.closed`). This is why a collection that starts from
nodes without references can never leave an edge that leads nowhere.

* `Sound.addRef`, `Sound.dropRef` — a reference more or less moves `held`.
* `Sound.cons` — the node of a shape, found or made.
* `Sound.relabelled` — a node with another branch.
-/

namespace DecisionGraph

/-- How often each node is held from outside of the diagram. -/
abbrev Holding := NodeId → Nat

namespace Holding

/-- One hold on `n` more. -/
def take (held : Holding) (n : NodeId) : Holding := fun m => if m = n then held m + 1 else held m

/-- One hold on `n` less, if there is one. -/
def drop (held : Holding) (n : NodeId) : Holding := fun m => if m = n then held m - 1 else held m

variable (held : Holding) (m n : NodeId)

@[simp] theorem drop_take : (held.take n).drop n = held := by
  funext k
  simp only [drop, take]
  split <;> simp

theorem take_comm : (held.take m).take n = (held.take n).take m := by
  funext k
  simp only [take]
  split <;> split <;> simp

theorem take_pos : 0 < (held.take n) n := by
  simp [take]

theorem le_take : held m ≤ (held.take n) m := by
  simp only [take]
  split <;> omega

/-- The holds on the two children of a branch. -/
theorem take_take_children (b : Branch) (n : NodeId) :
    ((held.take b.low).take b.high) n = held n + b.edgesTo n := by
  simp only [take, Branch.edgesTo, eq_comm (b := n)]
  split <;> split <;> omega

end Holding

namespace Store

/-- All accounts are right, where the nodes `out` are missing from the unique table. -/
structure Sound (s : Store) (out : NodeId → Prop) (held : Holding) : Prop where
  size_counts : s.counts.size = s.diagram.fresh.toNat
  counted : ∀ n, s.refCount n = s.diagram.edgesInto n + held n
  uncounted : ∀ n, s.diagram.alive n = false → s.refCount n = 0
  live_eq : s.live = s.diagram.inners.length
  knows : s.diagram.Knows s.order
  table : s.unique.Lawful s.varCount
  entered : ∀ v k n,
    s.unique.entered? v k = some n ↔ s.diagram.branch? n = some ⟨k, v⟩ ∧ ¬ out n
  out_alive : ∀ n, out n → s.diagram.alive n

/-- No node is missing from the unique table. -/
abbrev NoneOut : NodeId → Prop := fun _ => False

variable {s t : Store} {out : NodeId → Prop} {held : Holding} {v : Var} {b : Branch}
  {m n low high : NodeId}

theorem Sound.alive_of_refCount (h : s.Sound out held) (hn : s.refCount n ≠ 0) :
    s.diagram.alive n := by
  cases ha : s.diagram.alive n with
  | true => rfl
  | false => exact absurd (h.uncounted n ha) hn

theorem Sound.alive_of_held (h : s.Sound out held) (hn : 0 < held n) : s.diagram.alive n := by
  apply h.alive_of_refCount
  rw [h.counted]
  omega

/-- A child is referred to. -/
theorem Sound.refCount_pos_of_child (h : s.Sound out held) (hchild : s.diagram.Child m n) :
    0 < s.refCount n := by
  rw [h.counted]
  exact Nat.add_pos_left (Diagram.edgesInto_pos hchild) (held n)

/-- Edges lead to live nodes. -/
theorem Sound.closed (h : s.Sound out held) : s.diagram.Closed := fun _ _ hb =>
  ⟨h.alive_of_refCount (Nat.ne_of_gt (h.refCount_pos_of_child (.low hb))),
    h.alive_of_refCount (Nat.ne_of_gt (h.refCount_pos_of_child (.high hb)))⟩

theorem Sound.toNat_lt (h : s.Sound out held) (ha : s.diagram.alive n) :
    n.toNat < s.counts.size := by
  rw [h.size_counts]
  exact Diagram.toNat_lt_fresh ha

theorem Sound.var_lt (h : s.Sound out held) (hb : s.diagram.branch? n = some b) :
    b.var.index < s.varCount := VarOrder.knows_iff.mp (h.knows n b hb)

/-- At most one live node in the table has a given shape. -/
theorem Sound.eq_of_branch? (h : s.Sound out held) (hm : s.diagram.branch? m = some b)
    (hm' : ¬ out m) (hn : s.diagram.branch? n = some b) (hn' : ¬ out n) : m = n := by
  have hfound := (h.entered b.var b.toChildren m).mpr ⟨hm, hm'⟩
  rw [(h.entered b.var b.toChildren n).mpr ⟨hn, hn'⟩, Option.some.injEq] at hfound
  exact hfound.symm

theorem Sound.filter_entered (h : s.Sound out held) (v : Var) (k : Children) :
    (s.unique.entered? v k).filter s.diagram.alive = s.unique.entered? v k := by
  cases hk : s.unique.entered? v k with
  | none => rfl
  | some n =>
    have ha := Diagram.alive_of_branch? ((h.entered v k n).mp hk).1
    simp [Option.filter, ha]

theorem Sound.find?_eq (h : s.Sound out held) (hv : s.order.knows v) (k : Children) :
    s.unique.find? v k s.diagram.alive = .ok (s.unique.entered? v k) := by
  rw [h.table.find?_eq (VarOrder.knows_iff.mp hv), h.filter_entered]

/-- The entries of a subtable are the live nodes that test its variable, under their children. -/
theorem Sound.mem_entries_iff (h : s.Sound NoneOut held) {i : Nat} {sub : Subtable}
    (hsub : s.unique.subtables[i]? = some sub) {k : Children} :
    (⟨k, n⟩ : Entry) ∈ sub.entries ↔ s.diagram.branch? n = some ⟨k, ⟨i⟩⟩ := by
  have hentered : s.unique.entered? ⟨i⟩ k = sub.entered? k := by
    simp only [UniqueTable.entered?, hsub, Option.bind_some]
  rw [← (h.table.subtable i sub hsub).1.entered?_eq_some_iff, ← hentered, h.entered]
  simp

theorem Sound.mem_nodes_iff (h : s.Sound NoneOut held) {i : Nat} {sub : Subtable}
    (hsub : s.unique.subtables[i]? = some sub) :
    n ∈ sub.nodes ↔ ∃ b, s.diagram.branch? n = some b ∧ b.var = ⟨i⟩ := by
  rw [Subtable.nodes, List.mem_map]
  constructor
  · rintro ⟨e, he, rfl⟩
    exact ⟨_, (h.mem_entries_iff hsub).mp he, rfl⟩
  · rintro ⟨⟨k, v⟩, hb, rfl⟩
    exact ⟨⟨k, n⟩, (h.mem_entries_iff hsub).mpr hb, rfl⟩

/-- No node is entered twice: its children are the key of its entry. -/
theorem Sound.nodes_nodup (h : s.Sound NoneOut held) {i : Nat} {sub : Subtable}
    (hsub : s.unique.subtables[i]? = some sub) : sub.nodes.Nodup := by
  have hkeys := (h.table.subtable i sub hsub).1.keys_nodup
  rw [Subtable.nodes, List.nodup_iff_pairwise_ne, List.pairwise_map]
  refine (List.pairwise_map.mp hkeys).imp_of_mem fun {e e'} he he' hkey hnode => ?_
  have hb := (h.mem_entries_iff hsub).mp he
  rw [hnode, (h.mem_entries_iff hsub).mp he', Option.some.injEq] at hb
  exact hkey (congrArg Branch.toChildren hb).symm

/-- The table without the entry of `n` has the entries of the other nodes. -/
theorem Sound.entered_erase (h : s.Sound out held) (hb : s.diagram.branch? n = some b)
    (hn : ¬ out n) {w : Var} {k : Children} :
    (if w = b.var ∧ k = b.toChildren then none else s.unique.entered? w k) = some m ↔
      m ≠ n ∧ s.diagram.branch? m = some ⟨k, w⟩ ∧ ¬ out m := by
  by_cases hkey : w = b.var ∧ k = b.toChildren
  · rw [if_pos hkey]
    obtain ⟨rfl, rfl⟩ := hkey
    constructor
    · intro hm
      cases hm
    · intro ⟨hne, hm, hout⟩
      exact absurd (h.eq_of_branch? hm hout hb hn) hne
  · rw [if_neg hkey, h.entered]
    constructor
    · intro hm
      refine ⟨?_, hm⟩
      rintro rfl
      rw [hb, Option.some.injEq] at hm
      exact hkey ⟨by rw [hm.1], by rw [hm.1]⟩
    · exact And.right

/-- The table with one entry more, of a node `n` that had none, under a shape that was free. -/
theorem Sound.entered_insert (h : s.Sound out held) (hn : ∀ w k, s.unique.entered? w k ≠ some n)
    (hfree : s.unique.entered? b.var b.toChildren = none) {w : Var} {k : Children} :
    (if w = b.var ∧ k = b.toChildren then some n else s.unique.entered? w k) = some m ↔
      if m = n then b = ⟨k, w⟩ else s.diagram.branch? m = some ⟨k, w⟩ ∧ ¬ out m := by
  by_cases hkey : w = b.var ∧ k = b.toChildren
  · rw [if_pos hkey, Option.some.injEq]
    obtain ⟨rfl, rfl⟩ := hkey
    split
    · exact ⟨fun _ => rfl, fun _ => by symm; assumption⟩
    · rename_i hne
      refine ⟨fun hm => absurd hm.symm hne, fun hm => ?_⟩
      rw [← h.entered, hfree] at hm
      cases hm
  · rw [if_neg hkey]
    split
    · rename_i heq
      subst heq
      refine ⟨fun hm => absurd hm (hn w k), fun hb => absurd ?_ hkey⟩
      exact ⟨by rw [hb], by rw [hb]⟩
    · exact h.entered w k m

/-! ## References -/

/-- The store with another count for `n`. -/
def recount (s : Store) (n : NodeId) (f : Nat → Nat) : Store :=
  { s with counts := s.counts.modify n.toNat f }

section Recount

variable (s : Store) (n : NodeId) (f : Nat → Nat)

@[simp] theorem recount_diagram : (s.recount n f).diagram = s.diagram := rfl
@[simp] theorem recount_order : (s.recount n f).order = s.order := rfl
@[simp] theorem recount_varCount : (s.recount n f).varCount = s.varCount := rfl
@[simp] theorem recount_unique : (s.recount n f).unique = s.unique := rfl
@[simp] theorem recount_computed : (s.recount n f).computed = s.computed := rfl
@[simp] theorem recount_config : (s.recount n f).config = s.config := rfl
@[simp] theorem recount_live : (s.recount n f).live = s.live := rfl

@[simp] theorem size_counts_recount : (s.recount n f).counts.size = s.counts.size := by
  simp [recount]

theorem refCount_recount (h : n.toNat < s.counts.size) (m : NodeId) :
    (s.recount n f).refCount m = if m = n then f (s.refCount m) else s.refCount m := by
  have hnum : n.toNat = m.toNat ↔ m = n :=
    ⟨fun h => NodeId.toNat_injective h.symm, fun h => by rw [h]⟩
  simp only [refCount, recount, Array.getD_eq_getD_getElem?, Array.getElem?_modify, hnum]
  split
  · rename_i hm
    subst hm
    simp [h]
  · rfl

theorem addRef_eq (ha : s.diagram.alive n) : s.addRef n = .ok (s.recount n (· + 1)) :=
  if_pos ha

theorem dropRef_eq (ha : s.diagram.alive n) :
    s.dropRef n = .ok ((s.recount n (· - 1)).refCount n, s.recount n (· - 1)) :=
  if_pos ha

end Recount

/-- A change of counts that agrees with the change of what is held. -/
theorem Sound.recount (h : s.Sound out held) (ha : s.diagram.alive n) {f : Nat → Nat}
    {held' : Holding} (hn : f (s.refCount n) = s.diagram.edgesInto n + held' n)
    (hother : ∀ m, m ≠ n → held' m = held m) : (s.recount n f).Sound out held' := by
  have hcount := refCount_recount s n f (h.toNat_lt ha)
  refine ⟨by simp [h.size_counts], fun m => ?_, fun m hm => ?_, h.live_eq, h.knows, h.table,
    h.entered, h.out_alive⟩
  · rw [hcount]
    split
    · rename_i hm
      subst hm
      exact hn
    · rename_i hm
      rw [hother m hm]
      exact h.counted m
  · rw [hcount, if_neg]
    · exact h.uncounted m hm
    · rintro rfl
      rw [recount_diagram, ha] at hm
      cases hm

theorem Sound.addRef (h : s.Sound out held) (ha : s.diagram.alive n) :
    (s.recount n (· + 1)).Sound out (held.take n) := by
  refine h.recount ha ?_ fun m hm => if_neg hm
  have hcounted := h.counted n
  have htake : held.take n n = held n + 1 := if_pos rfl
  rw [htake]
  omega

/-- A reference is given up that is held, or there is none to give up. -/
theorem Sound.dropRef (h : s.Sound out held) (ha : s.diagram.alive n)
    (hn : 0 < held n ∨ s.refCount n = 0) :
    (s.recount n (· - 1)).Sound out (held.drop n) := by
  refine h.recount ha ?_ fun m hm => if_neg hm
  have hcounted := h.counted n
  have hdrop : held.drop n n = held n - 1 := if_pos rfl
  rw [hdrop]
  omega

theorem refCount_dropRef_le (h : s.Sound out held) (ha : s.diagram.alive n) (m : NodeId) :
    (s.recount n (· - 1)).refCount m ≤ s.refCount m := by
  rw [refCount_recount s n _ (h.toNat_lt ha)]
  split <;> omega

/-- The store after both edges of a branch have been counted. -/
def referenced (s : Store) (b : Branch) : Store :=
  (s.recount b.low (· + 1)).recount b.high (· + 1)

theorem refCount_referenced {b : Branch} (hlow : b.low.toNat < s.counts.size)
    (hhigh : b.high.toNat < s.counts.size) (m : NodeId) :
    (s.referenced b).refCount m = s.refCount m + b.edgesTo m := by
  rw [referenced, refCount_recount _ _ _ (by rwa [size_counts_recount]),
    refCount_recount _ _ _ hlow]
  simp only [Branch.edgesTo, eq_comm (b := m)]
  split <;> split <;> omega

theorem size_counts_referenced (s : Store) (b : Branch) :
    (s.referenced b).counts.size = s.counts.size := by
  rw [referenced, size_counts_recount, size_counts_recount]

/-- No edge of a branch with live children leads to a dead node. -/
theorem edgesTo_eq_zero_of_dead {d : Diagram} (hlow : d.alive b.low) (hhigh : d.alive b.high)
    (hm : d.alive m = false) : b.edgesTo m = 0 := by
  apply Nat.eq_zero_of_not_pos
  intro hpos
  rcases Branch.edgesTo_pos_iff.mp hpos with rfl | rfl
  · rw [hlow] at hm
    cases hm
  · rw [hhigh] at hm
    cases hm

/-! ## Shapes -/

/-- `n` is the node with branch `b`, found in `s` or made over it. -/
structure Consed (s : Store) (b : Branch) (n : NodeId) (t : Store) : Prop where
  branch? : t.diagram.branch? n = some b
  grows : s.diagram.Grows t.diagram
  old : ∀ m b', t.diagram.branch? m = some b' → s.diagram.branch? m = some b' ∨ m = n ∧ b' = b
  order : t.order = s.order
  computed : t.computed = s.computed
  config : t.config = s.config
  subtables : ∀ x, x ≠ b.var → t.unique.subtable x = s.unique.subtable x
  found : s.diagram.alive n → t = s

/-- The store in which a new node with branch `b` is in its slot. -/
def placed (s : Store) (b : Branch) : Store :=
  { s with diagram := s.diagram.push b, counts := s.counts.push 0, live := s.live + 1 }

theorem refCount_placed (s : Store) (b : Branch) (m : NodeId) :
    (s.placed b).refCount m = s.refCount m := by
  simp only [refCount, placed, Array.getD_eq_getD_getElem?, Array.getElem?_push]
  split
  · rename_i hm
    rw [hm, Array.getElem?_eq_none (Nat.le_refl _)]
    rfl
  · rfl

theorem alive_push_of_alive (d : Diagram) (b : Branch) (h : d.alive n) : (d.push b).alive n :=
  (Diagram.extends_push d b).alive h

theorem Sound.refCount_placed_referenced (h : s.Sound out held) (hlow : s.diagram.alive b.low)
    (hhigh : s.diagram.alive b.high) (m : NodeId) :
    ((s.placed b).referenced b).refCount m = s.refCount m + b.edgesTo m := by
  have hsize : (s.placed b).counts.size = s.counts.size + 1 := by simp [placed]
  have hl := h.toNat_lt hlow
  have hh := h.toNat_lt hhigh
  rw [refCount_referenced (by omega) (by omega), refCount_placed]

theorem Sound.fresh_not_out (h : s.Sound out held) : ¬ out s.diagram.fresh := by
  intro ho
  have := h.out_alive _ ho
  rw [Diagram.fresh_dead] at this
  cases this

/-- A new node in its slot, with its references and its entry. -/
theorem Sound.pushed (h : s.Sound out held) (hv : s.order.knows b.var)
    (hlow : s.diagram.alive b.low) (hhigh : s.diagram.alive b.high)
    (hfree : s.unique.entered? b.var b.toChildren = none) {unique : UniqueTable}
    (hlawful : unique.Lawful s.varCount)
    (hentered : ∀ w k, unique.entered? w k =
      if w = b.var ∧ k = b.toChildren then some s.diagram.fresh else s.unique.entered? w k) :
    Sound { (s.placed b).referenced b with unique := unique } out held where
  size_counts := by
    show ((s.placed b).referenced b).counts.size = (s.diagram.push b).fresh.toNat
    rw [size_counts_referenced]
    simp [placed, h.size_counts, Diagram.fresh, Diagram.push, NodeId.toNat]
  counted m := by
    show ((s.placed b).referenced b).refCount m = (s.diagram.push b).edgesInto m + held m
    rw [h.refCount_placed_referenced hlow hhigh, Diagram.edgesInto_push, h.counted]
    omega
  uncounted m hm := by
    show ((s.placed b).referenced b).refCount m = 0
    change (s.diagram.push b).alive m = false at hm
    have hdead : s.diagram.alive m = false := by
      cases ha : s.diagram.alive m with
      | false => rfl
      | true =>
        rw [alive_push_of_alive _ b ha] at hm
        cases hm
    rw [h.refCount_placed_referenced hlow hhigh, h.uncounted m hdead,
      edgesTo_eq_zero_of_dead hlow hhigh hdead]
  live_eq := by
    show s.live + 1 = (s.diagram.push b).inners.length
    rw [Diagram.length_inners_push, h.live_eq]
  knows m b' hb' := by
    change (s.diagram.push b).branch? m = some b' at hb'
    rw [Diagram.branch?_push] at hb'
    split at hb'
    · cases hb'
      exact hv
    · exact h.knows m b' hb'
  table := hlawful
  entered w k m := by
    show unique.entered? w k = some m ↔ (s.diagram.push b).branch? m = some ⟨k, w⟩ ∧ ¬ out m
    have hno : ∀ w k, s.unique.entered? w k ≠ some s.diagram.fresh := by
      intro w k hk
      have hb := ((h.entered w k _).mp hk).1
      rw [Diagram.branch?_fresh] at hb
      cases hb
    rw [hentered, h.entered_insert hno hfree, Diagram.branch?_push]
    split
    · rename_i hm
      subst hm
      simp [h.fresh_not_out]
    · exact Iff.rfl
  out_alive m hm := alive_push_of_alive _ b (h.out_alive m hm)

theorem consed_of_found (h : s.diagram.branch? n = some b) : Consed s b n s where
  branch? := h
  grows := .refl _
  old _ _ hb := Or.inl hb
  order := rfl
  computed := rfl
  config := rfl
  subtables _ _ := rfl
  found _ := rfl

theorem consed_of_pushed (s : Store) (b : Branch) {unique : UniqueTable}
    (hunique : ∀ x, x ≠ b.var → unique.subtable x = s.unique.subtable x) :
    Consed s b s.diagram.fresh
      { (s.placed b).referenced b with unique := unique } where
  branch? := by
    show (s.diagram.push b).branch? _ = _
    rw [Diagram.branch?_push, if_pos rfl]
  grows := Diagram.grows_push s.diagram b
  old m b' hb' := by
    change (s.diagram.push b).branch? m = some b' at hb'
    rw [Diagram.branch?_push] at hb'
    split at hb'
    · exact Or.inr ⟨‹_›, (Option.some.inj hb').symm⟩
    · exact Or.inl hb'
  order := rfl
  computed := rfl
  config := rfl
  subtables := hunique
  found ha := by
    rw [Diagram.fresh_dead] at ha
    cases ha

/-- The node of a shape over live children: it is found, or it is made with no reference. -/
theorem Sound.cons (h : s.Sound out held) (hv : s.order.knows v) (hlow : s.diagram.alive low)
    (hhigh : s.diagram.alive high) :
    Gives (s.cons v low high) fun p =>
      p.2.Sound out held ∧ Consed s ⟨⟨low, high⟩, v⟩ p.1 p.2 ∧ ¬ out p.1 := by
  unfold Store.cons
  apply gives_bind_of_eq (h.find?_eq hv ⟨low, high⟩)
  cases hk : s.unique.entered? v ⟨low, high⟩ with
  | some n =>
    obtain ⟨hb, hn⟩ := (h.entered v _ n).mp hk
    exact gives_pure ⟨h, consed_of_found hb, hn⟩
  | none =>
    let b : Branch := ⟨⟨low, high⟩, v⟩
    have hlow' : (s.placed b).diagram.alive low := alive_push_of_alive _ b hlow
    have hhigh' : ((s.placed b).recount low (· + 1)).diagram.alive high :=
      alive_push_of_alive _ b hhigh
    dsimp only
    apply gives_bind_of_eq (addRef_eq (s.placed b) low hlow')
    apply gives_bind_of_eq (addRef_eq _ high hhigh')
    obtain ⟨unique, hrun, hlawful, hentered⟩ := h.table.insert_free (VarOrder.knows_iff.mp hv) hk
      s.diagram.fresh (s.diagram.push b).alive
    apply gives_bind_of_eq hrun
    exact gives_pure ⟨Sound.pushed (b := b) h hv hlow hhigh hk hlawful hentered,
      consed_of_pushed s b fun _ => UniqueTable.subtable_of_insert hrun, h.fresh_not_out⟩

/-! ## Another branch -/

/-- A node that was missing from the unique table has another branch and is entered again. What its
old edges counted is held. -/
theorem Sound.relabelled {b' : Branch} (h : s.Sound out held) (hb : s.diagram.branch? n = some b)
    (hn : out n) (hv : s.order.knows b'.var) (hlow : s.diagram.alive b'.low)
    (hhigh : s.diagram.alive b'.high) (hfree : s.unique.entered? b'.var b'.toChildren = none)
    {unique : UniqueTable} (hlawful : unique.Lawful s.varCount)
    (hentered : ∀ w k, unique.entered? w k =
      if w = b'.var ∧ k = b'.toChildren then some n else s.unique.entered? w k) :
    Sound { s.referenced b' with diagram := s.diagram.setBranch n b', unique := unique }
      (fun m => out m ∧ m ≠ n) ((held.take b.low).take b.high) := by
  have hsome : (s.diagram.branch? n).isSome := by rw [hb]; rfl
  have hcount : ∀ m, (s.referenced b').refCount m = s.refCount m + b'.edgesTo m :=
    fun m => refCount_referenced (h.toNat_lt hlow) (h.toNat_lt hhigh) m
  refine ⟨?_, fun m => ?_, fun m hm => ?_, ?_, fun m b₀ hb₀ => ?_, hlawful, fun w k m => ?_,
    fun m hm => ?_⟩
  · show (s.referenced b').counts.size = (s.diagram.setBranch n b').fresh.toNat
    rw [size_counts_referenced, h.size_counts, Diagram.fresh_setBranch]
  · show (s.referenced b').refCount m = (s.diagram.setBranch n b').edgesInto m + _
    have hedges := Diagram.edgesInto_setBranch hb b' m
    have hcounted := h.counted m
    rw [hcount, Holding.take_take_children]
    omega
  · show (s.referenced b').refCount m = 0
    change (s.diagram.setBranch n b').alive m = false at hm
    rw [Diagram.alive_setBranch hsome] at hm
    rw [hcount, h.uncounted m hm, edgesTo_eq_zero_of_dead hlow hhigh hm]
  · show s.live = (s.diagram.setBranch n b').inners.length
    rw [Diagram.length_inners_setBranch hb, h.live_eq]
  · change (s.diagram.setBranch n b').branch? m = some b₀ at hb₀
    rw [Diagram.branch?_setBranch hsome] at hb₀
    split at hb₀
    · cases hb₀
      exact hv
    · exact h.knows m b₀ hb₀
  · show unique.entered? w k = some m ↔
      (s.diagram.setBranch n b').branch? m = some ⟨k, w⟩ ∧ ¬ (out m ∧ m ≠ n)
    have hno : ∀ w k, s.unique.entered? w k ≠ some n :=
      fun w k hk => ((h.entered w k n).mp hk).2 hn
    rw [hentered, h.entered_insert hno hfree, Diagram.branch?_setBranch hsome]
    split
    · rename_i hm
      simp [hm]
    · rename_i hm
      simp [hm]
  · show (s.diagram.setBranch n b').alive m = true
    rw [Diagram.alive_setBranch hsome]
    exact h.out_alive m hm.1

end Store

end DecisionGraph
