import Mathlib.Data.List.Nodup
import DecisionGraph.Proofs.Runs

/-!
# Well-formed stores

A store keeps one truth in five places: the order and its inverse, the slots, the unique table, and
the counter of live nodes. They agree after every call of every list of calls that a store admits.
What a store admits it tells without its client: a node may be released if it has references that no
edge accounts for. In a valid store these are the ones that the client holds (`Valid.excess_eq`).

* `WellFormed`, `Valid.wellFormed` — the places agree, as the invariant says.
* `Admits`, `Conforms` — the calls that a store admits, and lists of them.
* `Valid.performAll_gives` — such a list runs to its end.
-/

namespace DecisionGraph

namespace Store

variable {s t : Store} {held : Holding} {m n : NodeId} {b : Branch}

/-- The order, the diagram, the unique table and the counter of live nodes agree. -/
structure WellFormed (s : Store) : Prop where
  /-- The order lists the variables `0`, ..., `varCount - 1` once each. -/
  order_perm : s.order.vars.toList.Perm ((List.range s.varCount).map Var.mk)
  size_levels : s.order.levels.size = s.varCount
  /-- The levels are the inverse of the order. -/
  inverse : ∀ (l : Level) (v : Var), s.order.vars[l]? = some v ↔ s.order.levels[v.index]? = some l
  terminal : ∀ value, ∃ node, s.node? (.terminal value) = some node ∧ node.var = ⟨s.varCount⟩
  /-- A live inner node is in the slot of its own number. -/
  slot : ∀ i, s.alive (.inner i) → ∃ node, s.node? (.inner i) = some node ∧ node.id = .inner i ∧
    s.diagram.slots[i]? = some (some node.toBranch)
  var_lt : ∀ n b, s.diagram.branch? n = some b → b.var.index < s.varCount
  /-- The children of a live node are alive, and below it in the order as it is. -/
  child : ∀ n b, s.diagram.branch? n = some b → ∀ m ∈ [b.low, b.high],
    s.alive m ∧ ∃ k l, s.levelOf n = .ok k ∧ s.levelOf m = .ok l ∧ k < l
  /-- The subtable of a variable has the live nodes that test it, under their children. -/
  entry : ∀ (i : Nat) (sub : Subtable), s.unique.subtables[i]? = some sub → sub.var = ⟨i⟩ ∧
    sub.count = sub.entries.length ∧
    ∀ k n, (⟨k, n⟩ : Entry) ∈ sub.entries ↔ s.diagram.branch? n = some ⟨k, ⟨i⟩⟩
  /-- All subtables together have every live inner node once. -/
  entered_perm : (s.unique.subtables.toList.flatMap Subtable.nodes).Perm s.diagram.inners
  /-- The live node of a shape is found. -/
  found : ∀ n b, s.diagram.branch? n = some b →
    s.unique.find? b.var b.toChildren s.diagram.alive = .ok (some n)
  distinct : ∀ m n b, s.diagram.branch? m = some b → s.diagram.branch? n = some b → m = n
  live_eq : s.live = s.diagram.inners.length
  size_unique : s.unique.size = s.live

/-! ## The unique table and the diagram -/

/-- The subtables share no node: it tests one variable. -/
theorem Sound.entered_nodup (h : s.Sound NoneOut held) :
    (s.unique.subtables.toList.flatMap Subtable.nodes).Nodup := by
  have hget : ∀ (i : Nat) (hi : i < s.unique.subtables.toList.length),
      s.unique.subtables[i]? = some s.unique.subtables.toList[i] := by
    intro i hi
    simp [Array.getElem?_eq_getElem (by simpa using hi)]
  refine List.nodup_flatMap.mpr ⟨fun sub hsub => ?_, List.pairwise_iff_getElem.mpr ?_⟩
  · obtain ⟨i, hi, rfl⟩ := List.mem_iff_getElem.mp hsub
    exact h.nodes_nodup (hget i hi)
  · intro i j hi hj hij n hn hn'
    obtain ⟨b, hb, hv⟩ := (h.mem_nodes_iff (hget i hi)).mp hn
    obtain ⟨b', hb', hv'⟩ := (h.mem_nodes_iff (hget j hj)).mp hn'
    rw [hb, Option.some.injEq] at hb'
    subst hb'
    rw [hv, Var.mk.injEq] at hv'
    exact Nat.ne_of_lt hij hv'

/-- The unique table has the live inner nodes, each once. -/
theorem Sound.entered_perm (h : s.Sound NoneOut held) :
    (s.unique.subtables.toList.flatMap Subtable.nodes).Perm s.diagram.inners := by
  apply (List.perm_ext_iff_of_nodup h.entered_nodup s.diagram.inners_nodup).mpr
  intro n
  rw [List.mem_flatMap, Diagram.mem_inners_iff]
  constructor
  · rintro ⟨sub, hsub, hn⟩
    obtain ⟨i, hi⟩ := List.mem_iff_getElem?.mp hsub
    rw [Array.getElem?_toList] at hi
    obtain ⟨b, hb, -⟩ := (h.mem_nodes_iff hi).mp hn
    exact ⟨b, hb⟩
  · rintro ⟨b, hb⟩
    obtain ⟨sub, -, hget, -⟩ := h.table.exists_subtable (h.var_lt hb)
    exact ⟨sub, Array.mem_toList_iff.mpr (Array.mem_of_getElem? hget),
      (h.mem_nodes_iff hget).mpr ⟨b, hb, rfl⟩⟩

/-- The invariant says that the places agree. -/
theorem Valid.wellFormed (h : s.Valid held) : s.WellFormed where
  order_perm := h.lawful.perm
  size_levels := s.order.size_levels
  inverse l v := ⟨h.lawful.level_of_var l v, h.lawful.var_of_level v.index l⟩
  terminal value := ⟨_, rfl, rfl⟩
  slot i ha := by
    obtain ⟨b, hb⟩ := Diagram.exists_branch ha
    refine ⟨.ofBranch (.inner i) b (s.refCount (.inner i)), ?_, rfl, ?_⟩
    · simp only [node?, hb, Option.map_some]
    · have hslot := Diagram.getElem?_slots hb
      rwa [Array.getElem?_toList] at hslot
  var_lt n b hb := h.sound.var_lt hb
  child n b hb m hm := by
    have hchild : s.diagram.alive m ∧
        s.diagram.levelIn s.order n < s.diagram.levelIn s.order m := by
      rw [Diagram.levelIn_of_branch? hb]
      obtain ⟨hlow, hhigh⟩ := h.closed n b hb
      obtain ⟨hllow, hlhigh⟩ := h.layered n b hb
      rcases List.mem_pair.mp hm with rfl | rfl
      · exact ⟨hlow, hllow⟩
      · exact ⟨hhigh, hlhigh⟩
    exact ⟨hchild.1, _, _, levelOf_eq (Diagram.alive_of_branch? hb), levelOf_eq hchild.1, hchild.2⟩
  entry i sub hsub := by
    obtain ⟨hlawful, hvar⟩ := h.sound.table.subtable i sub hsub
    exact ⟨hvar, hlawful.count_eq, fun k n => h.sound.mem_entries_iff hsub⟩
  entered_perm := h.sound.entered_perm
  found n b hb := by
    rw [h.sound.find?_eq (h.sound.knows n b hb)]
    exact congrArg _ ((h.sound.entered _ _ n).mpr ⟨hb, id⟩)
  distinct m n b hm hn := h.sound.eq_of_branch? hm id hn id
  live_eq := h.sound.live_eq
  size_unique := by
    rw [h.sound.table.size_eq, h.sound.entered_perm.length_eq, h.sound.live_eq]

/-! ## Calls that a store admits -/

/-- The references of a node that no edge accounts for. -/
def excess (s : Store) (n : NodeId) : Nat := s.refCount n - s.diagram.edgesInto n

theorem Valid.excess_eq (h : s.Valid held) : s.excess = held := by
  funext n
  have hcounted := h.sound.counted n
  unfold excess
  omega

/-- A call that a client with all of the excess may make: its nodes are alive, a test is of a known
variable above its children, and a node that is released has more references than edges, or none. -/
def Admits (s : Store) (call : Call) : Prop := Client.Permits ⟨s, s.excess⟩ call

/-- Each call of the list is admitted where its turn comes. -/
def Conforms : List Call → Store → Prop
  | [], _ => True
  | call :: calls, s => s.Admits call ∧ ∀ p, s.perform call = .ok p → Conforms calls p.2

instance (s : Store) : DecidablePred s.Admits :=
  inferInstanceAs (DecidablePred (Client.Permits ⟨s, s.excess⟩))

instance decidableConforms : ∀ (calls : List Call) (s : Store), Decidable (Conforms calls s)
  | [], _ => .isTrue trivial
  | call :: calls, s =>
    have := fun p : Except Rejection Answer × Store => decidableConforms calls p.2
    inferInstanceAs (Decidable (s.Admits call ∧ ∀ p, s.perform call = .ok p → Conforms calls p.2))

theorem Conforms.beginning {calls first : List Call} (h : Conforms calls s)
    (hfirst : first <+: calls) : Conforms first s := by
  induction first generalizing calls s with
  | nil => trivial
  | cons call first ih =>
    obtain ⟨rest, rfl⟩ := hfirst
    exact ⟨h.1, fun p hp => ih (h.2 p hp) ⟨rest, rfl⟩⟩

/-- An admitted call keeps the store valid, for what is then in excess. -/
theorem Valid.perform_of_admits (h : s.Valid held) {call : Call} (ha : s.Admits call) :
    Gives (s.perform call) fun p => p.2.Valid p.2.excess := by
  rw [Admits, h.excess_eq] at ha
  exact gives_mono (h.perform ha) fun p hp => hp.valid.excess_eq.symm ▸ hp.valid

/-- An admitted list of calls runs to its end. -/
theorem Valid.performAll_gives {calls : List Call} (h : s.Valid held) (hcalls : Conforms calls s) :
    Gives (performAll calls s) fun t => t.Valid t.excess := by
  induction calls generalizing s held with
  | nil => exact gives_ok (h.excess_eq.symm ▸ h)
  | cons call calls ih =>
    obtain ⟨p, hp, hvalid⟩ := h.perform_of_admits hcalls.1
    exact gives_bind_of_eq hp (ih hvalid (hcalls.2 p hp))

/-- After every call of a list that is admitted from a new store on, the store is well-formed. -/
theorem wellFormed_of_conforms (varCount : Nat) (config : Config) {calls first : List Call}
    (h : Conforms calls (new varCount config)) (hfirst : first <+: calls) :
    ∃ t, performAll first (new varCount config) = .ok t ∧ t.WellFormed := by
  obtain ⟨t, ht, hvalid⟩ := (valid_new varCount config).performAll_gives (h.beginning hfirst)
  exact ⟨t, ht, hvalid.wellFormed⟩

/-- An exchange that rotates a node, between calls that hold and release. The second exchange is
rejected: the two variables are the same. -/
theorem wellFormed_of_conforms_swap : ∃ t,
    performAll [.createHeld ⟨1⟩ .zero .one, .create ⟨0⟩ .zero (.inner 0), .swap ⟨0⟩ ⟨1⟩,
      .swap ⟨1⟩ ⟨1⟩, .release (.inner 0)] (new 2 ⟨1, ⟨0⟩⟩) = .ok t ∧ t.WellFormed := by
  have hcalls : Conforms [.createHeld ⟨1⟩ .zero .one, .create ⟨0⟩ .zero (.inner 0),
      .swap ⟨0⟩ ⟨1⟩, .swap ⟨1⟩ ⟨1⟩, .release (.inner 0), .collectGarbage] (new 2 ⟨1, ⟨0⟩⟩) := by
    decide +kernel
  exact wellFormed_of_conforms 2 ⟨1, ⟨0⟩⟩ hcalls ⟨[.collectGarbage], rfl⟩

end Store

end DecisionGraph
