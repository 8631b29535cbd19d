import DecisionGraph.Proofs.Rotation

/-!
# Rotations keep the exchange going

Between the first rotation and the last, the diagram is neither layered by the old order nor by the
new one. What holds is this: with the nodes still to rotate left aside, it is layered by the new
order, and no test of `w` has such a node as a child. The nodes still to rotate are missing from the
unique table, and their children lie in a part of the diagram that no edge leaves and that has none
of them in it (`Diagram.Lower`). So what a rotation gives up can be collected at once.

Before a rotation its new shape is free. For the shapes of the live nodes that is what the look
ahead has found; a node made since then is no child of an old test of `w`, and the shapes of two
rotations differ.

* `VarOrder.Adjacent` — neighbours in the order.
* `Exchanging` — the invariant.
* `Exchanging.consReduced` — the new children of a rotation.
* `Exchanging.turned`, `Exchanging.release` — the new branch, and the old children.
-/

namespace DecisionGraph

/-- Where level `k` comes to when levels `l` and `l + 1` change places. -/
def Level.exchange (l k : Nat) : Nat := if k = l then l + 1 else if k = l + 1 then l else k

theorem Level.exchange_lt {l k m : Nat} (h : k < m) (hne : k = l → m ≠ l + 1) :
    Level.exchange l k < Level.exchange l m := by
  unfold Level.exchange
  grind

/-- `v` lies on level `l` of a lawful order, and `w` on the level below. -/
structure VarOrder.Adjacent (o : VarOrder) (l : Nat) (v w : Var) : Prop where
  lawful : o.Lawful
  upper : o.varAt? l = some v
  lower : o.varAt? (l + 1) = some w

namespace VarOrder.Adjacent

variable {o : VarOrder} {l : Nat} {v w x : Var} (h : o.Adjacent l v w)

include h

theorem ne : v ≠ w := h.lawful.ne_of_adjacent h.upper h.lower

theorem levelOf_upper : (o.levelOf v : Nat) = l := h.lawful.levelOf_of_varAt? h.upper

theorem levelOf_lower : (o.levelOf w : Nat) = l + 1 := h.lawful.levelOf_of_varAt? h.lower

theorem eq_upper (hx : (o.levelOf x : Nat) = l) : x = v :=
  (h.lawful.levelOf_injective (h.lawful.knows_of_varAt? h.upper)
    (h.levelOf_upper.trans hx.symm)).symm

theorem eq_lower (hx : (o.levelOf x : Nat) = l + 1) : x = w :=
  (h.lawful.levelOf_injective (h.lawful.knows_of_varAt? h.lower)
    (h.levelOf_lower.trans hx.symm)).symm

theorem lawful_exchange : (o.exchange l v w).Lawful := h.lawful.exchange h.upper h.lower

theorem levelOf_exchange_upper : ((o.exchange l v w).levelOf v : Nat) = l + 1 := by
  rw [h.lawful.levelOf_exchange h.upper h.lower, if_pos rfl]

theorem levelOf_exchange_lower : ((o.exchange l v w).levelOf w : Nat) = l := by
  rw [h.lawful.levelOf_exchange h.upper h.lower, if_neg h.ne.symm, if_pos rfl]

theorem levelOf_exchange_other (hv : x ≠ v) (hw : x ≠ w) :
    ((o.exchange l v w).levelOf x : Nat) = o.levelOf x := by
  rw [h.lawful.levelOf_exchange h.upper h.lower, if_neg hv, if_neg hw]

theorem size_gt : l + 1 < o.size := lt_size_of_varAt? h.lower

/-- The two levels change places. -/
theorem levelOf_exchange (x : Var) :
    (o.exchange l v w).levelOf x = Level.exchange l (o.levelOf x) := by
  unfold Level.exchange
  split
  · rename_i hx
    rw [h.eq_upper hx]
    exact h.levelOf_exchange_upper
  · rename_i hx
    split
    · rename_i hx'
      rw [h.eq_lower hx']
      exact h.levelOf_exchange_lower
    · rename_i hx'
      refine h.levelOf_exchange_other ?_ ?_
      · rintro rfl
        exact hx h.levelOf_upper
      · rintro rfl
        exact hx' h.levelOf_lower

end VarOrder.Adjacent

namespace Diagram

/-- `n` lies below the two levels that are exchanged. -/
def Deep (d : Diagram) (o : VarOrder) (l : Nat) (n : NodeId) : Prop := l + 1 < d.levelIn o n

/-- `n` lies below the two levels, or it is a test of `w` over such nodes. -/
def Lower (d : Diagram) (o : VarOrder) (l : Nat) (w : Var) (n : NodeId) : Prop :=
  d.Deep o l n ∨ ∃ b, d.branch? n = some b ∧ b.var = w ∧ d.Deep o l b.low ∧ d.Deep o l b.high

variable {d d' : Diagram} {o : VarOrder} {l : Nat} {v w : Var} {n : NodeId} {b : Branch}
  {r : Rotation}

theorem Extends.deep_iff (h : d.Extends d') (ha : d.alive n) : d'.Deep o l n ↔ d.Deep o l n := by
  simp only [Deep, h.levelIn_eq ha]

theorem Extends.lower_iff (h : d.Extends d') (hc : d.Closed) (ha : d.alive n) :
    d'.Lower o l w n ↔ d.Lower o l w n := by
  simp only [Lower, h.deep_iff ha, ← h.branch?_eq ha]
  refine or_congr_right (exists_congr fun b => ?_)
  refine and_congr_right fun hb => and_congr_right fun _ => ?_
  obtain ⟨hlow, hhigh⟩ := hc n b hb
  rw [h.deep_iff hlow, h.deep_iff hhigh]

/-- A rotation in the smaller diagram is one in the larger, and the other way round. -/
theorem Extends.rotates_iff (h : d.Extends d') (hc : d.Closed) (ha : d.alive r.node) :
    d'.Rotates v w r ↔ d.Rotates v w r := by
  have hnode := h.branch?_eq ha
  have hchildren : d.branch? r.node = some ⟨r.children, v⟩ →
      ∀ n, n = r.children.low ∨ n = r.children.high → d.branch? n = d'.branch? n := by
    rintro hb n (rfl | rfl)
    · exact h.branch?_eq (hc _ _ hb).1
    · exact h.branch?_eq (hc _ _ hb).2
  constructor
  · exact fun hr => hr.of_branch?_eq hnode (hchildren (hnode.trans hr.branch?))
  · exact fun hr => hr.of_branch?_eq hnode.symm fun n hn => (hchildren hr.branch? n hn).symm

/-- Tests of `w` in the larger diagram are tests in the smaller, so a shape is free in both. -/
theorem Extends.fresh (h : d.Extends d') (hc : d.Closed)
    (hold : ∀ m b, d'.branch? m = some b → b.var = w → d.branch? m = some b)
    (hf : d.Fresh v w r) : d'.Fresh v w r := by
  intro m b hb hvar hunfolds
  have hb' := hold m b hb hvar
  obtain ⟨hlow, hhigh⟩ := hc m b hb'
  exact hf m b hb' hvar ⟨hunfolds.1.of_branch?_eq (h.branch?_eq hlow),
    hunfolds.2.of_branch?_eq (h.branch?_eq hhigh)⟩

/-- A shape that is free in the larger diagram is free in the smaller. -/
theorem Extends.fresh_of_larger (h : d.Extends d') (hf : d'.Fresh v w r) : d.Fresh v w r := by
  have hunfolds : ∀ n k, d.Unfolds v n k → d'.Unfolds v n k := fun n k hn =>
    hn.imp_right fun ⟨hne, hb⟩ => ⟨hne, h n _ hb⟩
  intro m b hb hvar hboth
  exact hf m b (h m b hb) hvar ⟨hunfolds _ _ hboth.1, hunfolds _ _ hboth.2⟩

theorem Deep.not_tests (hn : d.Deep (o.exchange l v w) l n) (ho : o.Adjacent l v w) :
    ∀ b, d.branch? n = some b → b.var ≠ v ∧ b.var ≠ w := by
  intro b hb
  rw [Deep, levelIn_of_branch? hb] at hn
  constructor
  · rintro rfl
    exact absurd ho.levelOf_exchange_upper (Nat.ne_of_gt hn)
  · rintro rfl
    exact absurd ho.levelOf_exchange_lower (Nat.ne_of_gt (Nat.lt_of_succ_lt hn))

theorem levelIn_exchange (ho : o.Adjacent l v w) (n : NodeId) :
    d.levelIn (o.exchange l v w) n = Level.exchange l (d.levelIn o n) := by
  cases hb : d.branch? n with
  | some b =>
    rw [levelIn_of_branch? hb, levelIn_of_branch? hb]
    exact ho.levelOf_exchange b.var
  | none =>
    have hlevel : ∀ p : VarOrder, d.levelIn p n = p.size := fun p => by simp only [levelIn, hb]
    have hsize := ho.size_gt
    rw [hlevel, hlevel, VarOrder.size_exchange, Level.exchange, if_neg (by omega),
      if_neg (by omega)]

theorem deep_of_lt (ho : o.Adjacent l v w) (hn : l + 1 < d.levelIn o n) :
    d.Deep (o.exchange l v w) l n := by
  rw [Deep, levelIn_exchange ho, Level.exchange, if_neg (by omega), if_neg (by omega)]
  exact hn

/-- What lies below level `l` before the exchange is the lower part. -/
theorem lower_of_lt (ho : o.Adjacent l v w) (hl : d.Layered o) (hn : l < d.levelIn o n) :
    d.Lower (o.exchange l v w) l w n := by
  by_cases hlevel : d.levelIn o n = l + 1
  · obtain ⟨b, hb⟩ := exists_branch_of_levelIn_lt (hlevel ▸ ho.size_gt)
    obtain ⟨hlow, hhigh⟩ := hl n b hb
    rw [levelIn_of_branch? hb] at hlevel
    rw [hlevel] at hlow hhigh
    exact Or.inr ⟨b, hb, ho.eq_lower hlevel, deep_of_lt ho hlow, deep_of_lt ho hhigh⟩
  · exact Or.inl (deep_of_lt ho (by omega))

/-- A node that stands for a test of `v` lies below the new level of `w`. -/
theorem Unfolds.lt_levelIn {k : Children} (hn : d.Unfolds v n k) (ho : o.Adjacent l v w)
    (hk : d.Deep (o.exchange l v w) l k.low) : l < d.levelIn (o.exchange l v w) n := by
  rcases hn with ⟨-, rfl⟩ | ⟨-, hb⟩
  · exact Nat.lt_of_succ_lt hk
  · rw [levelIn_of_branch? hb]
    exact Nat.le_of_eq ho.levelOf_exchange_upper.symm

/-- A node stands for one test of `v` over nodes below the two levels. -/
theorem Unfolds.unique_of_deep {k k' : Children} (hn : d.Unfolds v n k) (hn' : d.Unfolds v n k')
    (ho : o.Adjacent l v w) (hk : d.Deep (o.exchange l v w) l k.low)
    (hk' : d.Deep (o.exchange l v w) l k'.low) : k = k' :=
  hn.unique hn' (fun b hb => (hk.not_tests ho b hb).1) fun b hb => (hk'.not_tests ho b hb).1

end Diagram

namespace Store

/-- In the middle of an exchange of `v` and `w` in the order `o`, where the rotations `rest` are
still to come. -/
structure Exchanging (o : VarOrder) (l : Nat) (v w : Var) (rest : List Rotation) (s : Store)
    (held : Holding) : Prop where
  sound : s.Sound (· ∈ rest.map Rotation.node) held
  order : s.order = o
  rotates : ∀ r ∈ rest, s.diagram.Rotates v w r
  lower : ∀ r ∈ rest, s.diagram.Lower (o.exchange l v w) l w r.children.low ∧
    s.diagram.Lower (o.exchange l v w) l w r.children.high
  fresh : ∀ r ∈ rest, s.diagram.Fresh v w r
  nodes_nodup : (rest.map Rotation.node).Nodup
  shapes_nodup : (rest.map fun r => (r.newLow, r.newHigh)).Nodup
  layered : ∀ n b, s.diagram.branch? n = some b → n ∉ rest.map Rotation.node →
    (o.exchange l v w).levelOf b.var < s.diagram.levelIn (o.exchange l v w) b.low ∧
      (o.exchange l v w).levelOf b.var < s.diagram.levelIn (o.exchange l v w) b.high
  apart : ∀ n b, s.diagram.branch? n = some b → b.var = w →
    b.low ∉ rest.map Rotation.node ∧ b.high ∉ rest.map Rotation.node
  faithful : s.computed.Faithful s.diagram

variable {s t : Store} {o : VarOrder} {l : Nat} {v w : Var} {rest : List Rotation} {r : Rotation}
  {held held' : Holding} {n low high : NodeId} {k : Children} {inside : NodeId → Prop}

/-! ## The parts of the diagram -/

section Parts

variable (h : Exchanging o l v w rest s held) (ho : o.Adjacent l v w)

include h ho

theorem Exchanging.not_pending_of_deep (hn : s.diagram.Deep (o.exchange l v w) l n) :
    n ∉ rest.map Rotation.node := by
  intro hmem
  obtain ⟨r, hr, rfl⟩ := List.mem_map.mp hmem
  exact (hn.not_tests ho _ (h.rotates r hr).branch?).1 rfl

theorem Exchanging.not_pending_of_lower (hn : s.diagram.Lower (o.exchange l v w) l w n) :
    n ∉ rest.map Rotation.node := by
  rcases hn with hn | ⟨b, hb, hvar, -, -⟩
  · exact h.not_pending_of_deep ho hn
  · intro hmem
    obtain ⟨r, hr, rfl⟩ := List.mem_map.mp hmem
    rw [(h.rotates r hr).branch?, Option.some.injEq] at hb
    subst hb
    exact ho.ne hvar

/-- Edges do not leave the lower part. -/
theorem Exchanging.closedPart : s.ClosedPart (s.diagram.Lower (o.exchange l v w) l w) := by
  intro n b hn hb
  rcases hn with hn | ⟨b', hb', -, hlow, hhigh⟩
  · have hlayered := h.layered n b hb (h.not_pending_of_deep ho hn)
    rw [Diagram.Deep, Diagram.levelIn_of_branch? hb] at hn
    exact ⟨Or.inl (Nat.lt_trans hn hlayered.1), Or.inl (Nat.lt_trans hn hlayered.2)⟩
  · rw [hb, Option.some.injEq] at hb'
    subst hb'
    exact ⟨Or.inl hlow, Or.inl hhigh⟩

/-- The cofactors of a node of the lower part lie below the two levels. -/
theorem Exchanging.deep_cofactors (hn : s.diagram.Lower (o.exchange l v w) l w n) :
    s.diagram.Deep (o.exchange l v w) l (s.diagram.cofactorsOf w n).low ∧
      s.diagram.Deep (o.exchange l v w) l (s.diagram.cofactorsOf w n).high := by
  rcases hn with hn | ⟨b, hb, rfl, hlow, hhigh⟩
  · rw [Diagram.cofactorsOf_of_ne fun b hb => (hn.not_tests ho b hb).2]
    exact ⟨hn, hn⟩
  · rw [Diagram.cofactorsOf_of_var hb]
    exact ⟨hlow, hhigh⟩

theorem Exchanging.deep_newLow (hr : r ∈ rest) :
    s.diagram.Deep (o.exchange l v w) l r.newLow.low ∧
      s.diagram.Deep (o.exchange l v w) l r.newLow.high := by
  obtain ⟨hlow, hhigh⟩ := h.lower r hr
  simp only [Rotation.newLow, (h.rotates r hr).lowCofactors, (h.rotates r hr).highCofactors]
  exact ⟨(h.deep_cofactors ho hlow).1, (h.deep_cofactors ho hhigh).1⟩

theorem Exchanging.deep_newHigh (hr : r ∈ rest) :
    s.diagram.Deep (o.exchange l v w) l r.newHigh.low ∧
      s.diagram.Deep (o.exchange l v w) l r.newHigh.high := by
  obtain ⟨hlow, hhigh⟩ := h.lower r hr
  simp only [Rotation.newHigh, (h.rotates r hr).lowCofactors, (h.rotates r hr).highCofactors]
  exact ⟨(h.deep_cofactors ho hlow).2, (h.deep_cofactors ho hhigh).2⟩

end Parts

/-! ## Making and collecting nodes on the way -/

/-- A new test of `v` over nodes below the two levels. -/
theorem Exchanging.consed (h : Exchanging o l v w rest s held) (ho : o.Adjacent l v w)
    (hk : s.diagram.Deep (o.exchange l v w) l k.low ∧ s.diagram.Deep (o.exchange l v w) l k.high)
    (hlow : s.diagram.alive k.low) (hhigh : s.diagram.alive k.high)
    (ht : t.Sound (· ∈ rest.map Rotation.node) held) (hcons : Consed s ⟨k, v⟩ n t) :
    Exchanging o l v w rest t held where
  sound := ht
  order := hcons.order.trans h.order
  rotates r hr := by
    have hrotates := h.rotates r hr
    exact (hcons.grows.subset.rotates_iff h.sound.closed
      (Diagram.alive_of_branch? hrotates.branch?)).mpr hrotates
  lower r hr := by
    obtain ⟨hclow, hchigh⟩ := h.sound.closed _ _ (h.rotates r hr).branch?
    obtain ⟨hllow, hlhigh⟩ := h.lower r hr
    exact ⟨(hcons.grows.subset.lower_iff h.sound.closed hclow).mpr hllow,
      (hcons.grows.subset.lower_iff h.sound.closed hchigh).mpr hlhigh⟩
  fresh r hr := by
    refine hcons.grows.subset.fresh h.sound.closed (fun m b hb hvar => ?_) (h.fresh r hr)
    apply (hcons.old m b hb).resolve_right
    intro hnew
    rw [hnew.2] at hvar
    exact ho.ne hvar
  nodes_nodup := h.nodes_nodup
  shapes_nodup := h.shapes_nodup
  layered m b hb hm := by
    rcases hcons.old m b hb with hb | ⟨-, rfl⟩
    · obtain ⟨hclow, hchigh⟩ := h.sound.closed m b hb
      rw [hcons.grows.subset.levelIn_eq hclow, hcons.grows.subset.levelIn_eq hchigh]
      exact h.layered m b hb hm
    · rw [hcons.grows.subset.levelIn_eq hlow, hcons.grows.subset.levelIn_eq hhigh]
      have hlevel := Nat.le_of_eq ho.levelOf_exchange_upper
      exact ⟨Nat.lt_of_le_of_lt hlevel hk.1, Nat.lt_of_le_of_lt hlevel hk.2⟩
  apart m b hb hvar := by
    rcases hcons.old m b hb with hb | ⟨-, rfl⟩
    · exact h.apart m b hb hvar
    · exact absurd hvar ho.ne
  faithful := by
    rw [hcons.computed]
    exact h.faithful.evolves (hcons.grows.evolves h.sound.closed)

/-- From `s` to `t` a node `n` has been found that stands for a test of `v` with cofactors `k`, or
the test has been made. -/
structure Supplied (s : Store) (v : Var) (k : Children) (n : NodeId) (t : Store) : Prop where
  grew : s.Grew t
  alive : t.diagram.alive n
  unfolds : t.diagram.Unfolds v n k
  gains : s.diagram.Gains t.diagram fun m => t.diagram.branch? m = some ⟨k, v⟩
  loose : ∀ m, t.Loose m → s.Loose m ∨ m = n
  subtables : ∀ x, x ≠ v → t.unique.subtable x = s.unique.subtable x

/-- The node that stands for a test of `v` over nodes below the two levels. -/
theorem Exchanging.consReduced (h : Exchanging o l v w rest s held) (ho : o.Adjacent l v w)
    (hk : s.diagram.Deep (o.exchange l v w) l k.low ∧ s.diagram.Deep (o.exchange l v w) l k.high)
    (hlow : s.diagram.alive k.low) (hhigh : s.diagram.alive k.high) :
    Gives (s.consReduced v k.low k.high) fun p =>
      Exchanging o l v w rest p.2 held ∧ s.Supplied v k p.1 p.2 ∧
        p.1 ∉ rest.map Rotation.node := by
  unfold Store.consReduced
  split
  · rename_i heq
    exact gives_ok ⟨h, ⟨.refl s, hlow, Or.inl ⟨heq, rfl⟩, .refl _ _, fun _ => Or.inl,
      fun _ _ => rfl⟩, h.not_pending_of_deep ho hk.1⟩
  · rename_i hne
    have hv : s.order.knows v := h.order ▸ ho.lawful.knows_of_varAt? ho.upper
    refine gives_mono (h.sound.cons hv hlow hhigh) fun ⟨n, t⟩ ⟨ht, hcons, hout⟩ => ?_
    exact ⟨h.consed ho hk hlow hhigh ht hcons,
      ⟨hcons.grew, Diagram.alive_of_branch? hcons.branch?, Or.inr ⟨hne, hcons.branch?⟩,
        hcons.gains hne fun m hm => hm ▸ hcons.branch?, fun m => hcons.loose h.sound ht,
        hcons.subtables⟩, hout⟩

/-- Nodes of a part without nodes to rotate are collected. -/
theorem Exchanging.shed (h : Exchanging o l v w rest s held)
    (ht : t.Sound (· ∈ rest.map Rotation.node) held') (hs : s.Shed inside t)
    (hinside : ∀ n, inside n → n ∉ rest.map Rotation.node) : Exchanging o l v w rest t held' where
  sound := ht
  order := hs.order.trans h.order
  rotates r hr := by
    have hrotates := h.rotates r hr
    refine (hs.shrinks.subset.rotates_iff ht.closed ?_).mp hrotates
    have hnode : ¬ inside r.node := fun hin => hinside _ hin (List.mem_map_of_mem hr)
    exact Diagram.alive_of_branch? ((hs.outside _ hnode).trans hrotates.branch?)
  lower r hr := by
    have hnode : ¬ inside r.node := fun hin => hinside _ hin (List.mem_map_of_mem hr)
    obtain ⟨hclow, hchigh⟩ := ht.closed _ _ ((hs.outside _ hnode).trans (h.rotates r hr).branch?)
    obtain ⟨hllow, hlhigh⟩ := h.lower r hr
    exact ⟨(hs.shrinks.subset.lower_iff ht.closed hclow).mp hllow,
      (hs.shrinks.subset.lower_iff ht.closed hchigh).mp hlhigh⟩
  fresh r hr := hs.shrinks.subset.fresh_of_larger (h.fresh r hr)
  nodes_nodup := h.nodes_nodup
  shapes_nodup := h.shapes_nodup
  layered m b hb hm := by
    obtain ⟨hclow, hchigh⟩ := ht.closed m b hb
    rw [← hs.shrinks.subset.levelIn_eq hclow, ← hs.shrinks.subset.levelIn_eq hchigh]
    exact h.layered m b (hs.shrinks.subset m b hb) hm
  apart m b hb := h.apart m b (hs.shrinks.subset m b hb)
  faithful := by
    rw [hs.computed]
    exact h.faithful.evolves (hs.shrinks.evolves ht.closed)

/-- A hold on a node of a closed part without nodes to rotate is given up. -/
theorem Exchanging.release (h : Exchanging o l v w rest s held) (hpart : s.ClosedPart inside)
    (hinside : ∀ n, inside n → n ∉ rest.map Rotation.node) (hn : inside n) (hheld : 0 < held n) :
    Gives (s.release n) fun p =>
      Exchanging o l v w rest p.2 (held.drop n) ∧ s.Shed inside p.2 ∧ s.Spares p.2 := by
  refine gives_mono (h.sound.release_gives hpart hinside hn (h.sound.alive_of_held hheld)
    (Or.inl hheld)) fun p ⟨ht, hshed, hspares⟩ => ⟨h.shed ht hshed hinside, hshed, hspares⟩

/-! ## One rotation -/

section Relabel

variable (h : Exchanging o l v w (r :: rest) s held) (ho : o.Adjacent l v w)
  (hlow : s.diagram.Unfolds v low r.newLow) (hhigh : s.diagram.Unfolds v high r.newHigh)
  (hplow : low ∉ (r :: rest).map Rotation.node) (hphigh : high ∉ (r :: rest).map Rotation.node)

/-- The diagram in which the node of a rotation tests `w`. -/
def rotated (s : Store) (w : Var) (r : Rotation) (low high : NodeId) : Diagram :=
  s.diagram.setBranch r.node ⟨⟨low, high⟩, w⟩

theorem ne_node_of_not_pending {m : NodeId} (hm : m ∉ (r :: rest).map Rotation.node) :
    m ≠ r.node := by
  rintro rfl
  exact hm (List.mem_map_of_mem List.mem_cons_self)

include h in
theorem Exchanging.branch?_rotated (n : NodeId) : (s.rotated w r low high).branch? n =
    if n = r.node then some ⟨⟨low, high⟩, w⟩ else s.diagram.branch? n := by
  have hb := (h.rotates r List.mem_cons_self).branch?
  exact Diagram.branch?_setBranch (by rw [hb]; rfl) _ n

include h in
theorem Exchanging.branch?_rotated_of_not_pending {n : NodeId}
    (hn : n ∉ (r :: rest).map Rotation.node) :
    (s.rotated w r low high).branch? n = s.diagram.branch? n := by
  rw [h.branch?_rotated, if_neg (ne_node_of_not_pending hn)]

include h in
/-- Below a node after a rotation there is what was below it, or below the new children if the
rotated node was. -/
theorem Exchanging.below_rotated {m : NodeId} (hm : (s.rotated w r low high).Below n m) :
    s.diagram.Below n m ∨
      s.diagram.Below n r.node ∧ (s.diagram.Below low m ∨ s.diagram.Below high m) := by
  induction hm with
  | refl => exact Or.inl .refl
  | @step m x _ edge ih =>
    by_cases hmr : m = r.node
    · subst hmr
      refine Or.inr ⟨ih.elim id And.left, ?_⟩
      cases edge with
      | low hb =>
        rw [h.branch?_rotated, if_pos rfl, Option.some.injEq] at hb
        exact Or.inl (hb ▸ .refl)
      | high hb =>
        rw [h.branch?_rotated, if_pos rfl, Option.some.injEq] at hb
        exact Or.inr (hb ▸ .refl)
    · have hold : s.diagram.Child m x := by
        cases edge with
        | low hb => exact .low (by rwa [h.branch?_rotated, if_neg hmr] at hb)
        | high hb => exact .high (by rwa [h.branch?_rotated, if_neg hmr] at hb)
      rcases ih with hm | ⟨hn, hm | hm⟩
      · exact Or.inl (.step hm hold)
      · exact Or.inr ⟨hn, Or.inl (.step hm hold)⟩
      · exact Or.inr ⟨hn, Or.inr (.step hm hold)⟩

include h ho hlow hhigh in
/-- A node with no idle test below it is not rotated into one. -/
theorem Exchanging.children_ne (hn : s.diagram.Reduced r.node) : low ≠ high := by
  have hmem := List.mem_cons_self (a := r) (l := rest)
  rintro rfl
  exact (h.rotates r hmem).newLow_ne_newHigh hn
    (hlow.unique_of_deep hhigh ho (h.deep_newLow ho hmem).1 (h.deep_newHigh ho hmem).1)

include h ho hlow hhigh in
theorem Exchanging.reduced_rotated (hn : s.diagram.Reduced n) :
    (s.rotated w r low high).Reduced n := by
  obtain ⟨hblow, hbhigh⟩ := (h.rotates r List.mem_cons_self).below_cofactors
  rintro m hm ⟨b, hb, heq⟩
  have hbelow := h.below_rotated hm
  rw [h.branch?_rotated] at hb
  split at hb
  · rename_i hmr
    cases hb
    subst hmr
    exact h.children_ne ho hlow hhigh (hn.of_below (hbelow.elim id And.left)) heq
  · rcases hbelow with hm | ⟨hnode, hm | hm⟩
    · exact hn m hm ⟨b, hb, heq⟩
    · exact hlow.reduced (hn.of_below (hnode.trans hblow.1)) (hn.of_below (hnode.trans hblow.2))
        m hm ⟨b, hb, heq⟩
    · exact hhigh.reduced (hn.of_below (hnode.trans hbhigh.1)) (hn.of_below (hnode.trans hbhigh.2))
        m hm ⟨b, hb, heq⟩

include h hplow hphigh hlow hhigh ho in
/-- A rotated node means the same before and after. -/
theorem Exchanging.evolves_rotated : s.diagram.Evolves (s.rotated w r low high) := by
  have hmem := List.mem_cons_self (a := r) (l := rest)
  have hrotates := h.rotates r hmem
  have hturning : s.diagram.Turning v w r low high :=
    ⟨hrotates.lowCofactors, hrotates.highCofactors, hrotates.tested, hlow, hhigh,
      hrotates.apart (h.fresh r hmem)⟩
  refine hturning.matches.evolves hrotates.branch? (hturning.of_branch?_eq fun n hn => ?_).matches
    fun n => h.reduced_rotated ho hlow hhigh
  apply h.branch?_rotated_of_not_pending
  simp only [List.mem_cons, List.not_mem_nil, or_false] at hn
  rcases hn with rfl | rfl | rfl | rfl
  · exact h.not_pending_of_lower ho (h.lower r hmem).1
  · exact h.not_pending_of_lower ho (h.lower r hmem).2
  · exact hplow
  · exact hphigh

include h ho in
theorem Exchanging.deep_rotated {n : NodeId} (hn : s.diagram.Deep (o.exchange l v w) l n) :
    (s.rotated w r low high).Deep (o.exchange l v w) l n := by
  have hsame : (s.rotated w r low high).branch? n = s.diagram.branch? n :=
    h.branch?_rotated_of_not_pending (h.not_pending_of_deep ho hn)
  simp only [Diagram.Deep, Diagram.levelIn, hsame]
  exact hn

include h ho in
theorem Exchanging.lower_rotated {n : NodeId}
    (hn : s.diagram.Lower (o.exchange l v w) l w n) :
    (s.rotated w r low high).Lower (o.exchange l v w) l w n := by
  have hsame : (s.rotated w r low high).branch? n = s.diagram.branch? n :=
    h.branch?_rotated_of_not_pending (h.not_pending_of_lower ho hn)
  rcases hn with hn | ⟨b, hb, hvar, hblow, hbhigh⟩
  · exact Or.inl (h.deep_rotated ho hn)
  · exact Or.inr ⟨b, hsame.trans hb, hvar, h.deep_rotated ho hblow, h.deep_rotated ho hbhigh⟩

include h ho in
theorem Exchanging.rotates_rotated {r' : Rotation} (hr' : r' ∈ rest) :
    (s.rotated w r low high).Rotates v w r' := by
  have hmem := List.mem_cons_of_mem r hr'
  have hne : r'.node ≠ r.node := by
    have hnodup := h.nodes_nodup
    rw [List.map_cons, List.nodup_cons] at hnodup
    intro heq
    exact hnodup.1 (heq ▸ List.mem_map_of_mem hr')
  refine (h.rotates r' hmem).of_branch?_eq ((h.branch?_rotated _).trans (if_neg hne)) ?_
  rintro n (rfl | rfl)
  · exact h.branch?_rotated_of_not_pending (h.not_pending_of_lower ho (h.lower r' hmem).1)
  · exact h.branch?_rotated_of_not_pending (h.not_pending_of_lower ho (h.lower r' hmem).2)

include h ho hlow hhigh hplow hphigh in
/-- The shapes of the other rotations are free after one: they differ from its shape, and no test of
`w` is a parent of its node. -/
theorem Exchanging.fresh_rotated {r' : Rotation} (hr' : r' ∈ rest) :
    (s.rotated w r low high).Fresh v w r' := by
  have hmem := List.mem_cons_self (a := r) (l := rest)
  have hmem' := List.mem_cons_of_mem r hr'
  have hold : ∀ n k, n ∉ (r :: rest).map Rotation.node →
      (s.rotated w r low high).Unfolds v n k → s.diagram.Unfolds v n k := fun n k hn hunfolds =>
    hunfolds.of_branch?_eq (h.branch?_rotated_of_not_pending hn).symm
  intro m b hb hvar ⟨hulow, huhigh⟩
  rw [h.branch?_rotated] at hb
  split at hb
  · cases hb
    have heqlow := hlow.unique_of_deep (hold _ _ hplow hulow) ho (h.deep_newLow ho hmem).1
      (h.deep_newLow ho hmem').1
    have heqhigh := hhigh.unique_of_deep (hold _ _ hphigh huhigh) ho (h.deep_newHigh ho hmem).1
      (h.deep_newHigh ho hmem').1
    have hnodup := h.shapes_nodup
    rw [List.map_cons, List.nodup_cons] at hnodup
    refine hnodup.1 (List.mem_map.mpr ⟨r', hr', ?_⟩)
    rw [heqlow, heqhigh]
  · obtain ⟨hblow, hbhigh⟩ := h.apart m b hb hvar
    exact h.fresh r' hmem' m b hb hvar ⟨hold _ _ hblow hulow, hold _ _ hbhigh huhigh⟩

include h ho hlow hhigh hplow hphigh in
/-- A parent of the node lies above both levels, so the node may come up to level `l`. -/
theorem Exchanging.layered_rotated (n : NodeId) (b : Branch)
    (hb : (s.rotated w r low high).branch? n = some b) (hn : n ∉ rest.map Rotation.node) :
    (o.exchange l v w).levelOf b.var <
        (s.rotated w r low high).levelIn (o.exchange l v w) b.low ∧
      (o.exchange l v w).levelOf b.var <
        (s.rotated w r low high).levelIn (o.exchange l v w) b.high := by
  have hmem := List.mem_cons_self (a := r) (l := rest)
  have hlevel : ∀ m, m ≠ r.node → (s.rotated w r low high).levelIn (o.exchange l v w) m =
      s.diagram.levelIn (o.exchange l v w) m := by
    intro m hm
    simp only [Diagram.levelIn, h.branch?_rotated, if_neg hm]
  rw [h.branch?_rotated] at hb
  split at hb
  · cases hb
    have hl := Nat.le_of_eq ho.levelOf_exchange_lower
    rw [hlevel low (ne_node_of_not_pending hplow), hlevel high (ne_node_of_not_pending hphigh)]
    exact ⟨Nat.lt_of_le_of_lt hl (hlow.lt_levelIn ho (h.deep_newLow ho hmem).1),
      Nat.lt_of_le_of_lt hl (hhigh.lt_levelIn ho (h.deep_newHigh ho hmem).1)⟩
  · rename_i hne
    have hpending : n ∉ (r :: rest).map Rotation.node := by
      rw [List.map_cons, List.mem_cons, not_or]
      exact ⟨hne, hn⟩
    have hnewLevel : (s.rotated w r low high).levelIn (o.exchange l v w) r.node = l := by
      rw [Diagram.levelIn_of_branch? ((h.branch?_rotated _).trans (if_pos rfl))]
      exact ho.levelOf_exchange_lower
    have hchild : ∀ m, (o.exchange l v w).levelOf b.var < s.diagram.levelIn (o.exchange l v w) m →
        (b.var = w → m ∉ (r :: rest).map Rotation.node) →
        (o.exchange l v w).levelOf b.var <
          (s.rotated w r low high).levelIn (o.exchange l v w) m := by
      intro m hlt hpm
      by_cases hm : m = r.node
      · subst hm
        have hold := Diagram.levelIn_of_branch? (o := o.exchange l v w) (h.rotates r hmem).branch?
        rw [hold] at hlt
        have hv := ho.levelOf_exchange_upper
        have hw := ho.levelOf_exchange_lower
        have hvar : ((o.exchange l v w).levelOf b.var : Nat) ≠ l := by
          intro heq
          have hknows : (o.exchange l v w).knows b.var := by
            rw [VarOrder.knows_exchange, ← h.order]
            exact h.sound.knows n b hb
          exact hpm (ho.lawful_exchange.levelOf_injective hknows (heq.trans hw.symm))
            (List.mem_map_of_mem hmem)
        rw [hnewLevel]
        dsimp only [Level] at hlt hv hvar ⊢
        omega
      · rw [hlevel m hm]
        exact hlt
    obtain ⟨hltlow, hlthigh⟩ := h.layered n b hb hpending
    exact ⟨hchild _ hltlow fun hvar => (h.apart n b hb hvar).1,
      hchild _ hlthigh fun hvar => (h.apart n b hb hvar).2⟩

/-- The store after a rotation, before the old children are given up. -/
def turned (s : Store) (w : Var) (r : Rotation) (low high : NodeId) (unique : UniqueTable) :
    Store :=
  { s.referenced ⟨⟨low, high⟩, w⟩ with diagram := s.rotated w r low high, unique := unique }

include h in
/-- The new children are referred to then. -/
theorem Exchanging.loose_turned {m : NodeId} {unique : UniqueTable} (halow : s.diagram.alive low)
    (hahigh : s.diagram.alive high) (hm : (s.turned w r low high unique).Loose m) :
    s.Loose m ∧ m ≠ low ∧ m ≠ high := by
  obtain ⟨⟨b, hb⟩, hzero⟩ := hm
  have hcount : s.refCount m + (⟨⟨low, high⟩, w⟩ : Branch).edgesTo m = 0 :=
    (refCount_referenced (h.sound.toNat_lt halow) (h.sound.toNat_lt hahigh) m).symm.trans hzero
  have hedges : ¬ (low = m ∨ high = m) := fun hmem => by
    have := (Branch.edgesTo_pos_iff (b := ⟨⟨low, high⟩, w⟩)).mpr hmem
    omega
  rw [not_or] at hedges
  refine ⟨⟨?_, by omega⟩, Ne.symm hedges.1, Ne.symm hedges.2⟩
  change (s.rotated w r low high).branch? m = some b at hb
  rw [h.branch?_rotated] at hb
  split at hb
  · rename_i hmr
    exact ⟨_, hmr ▸ (h.rotates r List.mem_cons_self).branch?⟩
  · exact ⟨b, hb⟩

include h ho hlow hhigh hplow hphigh in
/-- A node is rotated and entered again under its new shape. Its old children are held. -/
theorem Exchanging.turned (halow : s.diagram.alive low) (hahigh : s.diagram.alive high)
    (alive : NodeId → Bool) :
    ∃ unique, s.unique.insert w ⟨low, high⟩ r.node alive = .ok (.ok (), unique) ∧
      Exchanging o l v w rest (s.turned w r low high unique)
        ((held.take r.children.low).take r.children.high) := by
  have hmem := List.mem_cons_self (a := r) (l := rest)
  have hnodup := h.nodes_nodup
  have hshapes := h.shapes_nodup
  rw [List.map_cons, List.nodup_cons] at hnodup hshapes
  let b : Branch := ⟨⟨low, high⟩, w⟩
  have hw : s.order.knows b.var := h.order ▸ ho.lawful.knows_of_varAt? ho.lower
  have hfree : s.unique.entered? b.var b.toChildren = none := by
    apply Option.eq_none_iff_forall_ne_some.mpr
    intro m hm
    exact h.fresh r hmem m _ ((h.sound.entered _ _ _).mp hm).1 rfl ⟨hlow, hhigh⟩
  obtain ⟨unique, hrun, hlawful, hentered⟩ :=
    h.sound.table.insert_free (VarOrder.knows_iff.mp hw) hfree r.node alive
  have hsound := h.sound.relabelled (h.rotates r hmem).branch?
    (List.mem_map_of_mem hmem) hw halow hahigh hfree hlawful hentered
  have hout : (fun m => m ∈ (r :: rest).map Rotation.node ∧ m ≠ r.node) =
      (· ∈ rest.map Rotation.node) := by
    funext m
    rw [List.map_cons, List.mem_cons, eq_iff_iff]
    constructor
    · rintro ⟨rfl | hm, hne⟩
      · exact absurd rfl hne
      · exact hm
    · intro hm
      refine ⟨Or.inr hm, ?_⟩
      rintro rfl
      exact hnodup.1 hm
  rw [hout] at hsound
  refine ⟨unique, hrun, hsound, h.order, fun r' hr' => h.rotates_rotated ho hr', fun r' hr' => ?_,
    fun r' hr' => h.fresh_rotated ho hlow hhigh hplow hphigh hr', hnodup.2, hshapes.2,
    h.layered_rotated ho hlow hhigh hplow hphigh, fun n b hb hvar => ?_,
    h.faithful.evolves (h.evolves_rotated ho hlow hhigh hplow hphigh)⟩
  · obtain ⟨hl, hh⟩ := h.lower r' (List.mem_cons_of_mem _ hr')
    exact ⟨h.lower_rotated ho hl, h.lower_rotated ho hh⟩
  · have hrest : ∀ {m}, m ∉ (r :: rest).map Rotation.node → m ∉ rest.map Rotation.node :=
      fun hm hm' => hm (List.mem_cons_of_mem _ hm')
    change (s.rotated w r low high).branch? n = some b at hb
    rw [h.branch?_rotated] at hb
    split at hb
    · cases hb
      exact ⟨hrest hplow, hrest hphigh⟩
    · obtain ⟨hl, hh⟩ := h.apart n b hb hvar
      exact ⟨hrest hl, hrest hh⟩

end Relabel

/-- The new children of a rotation lie over live nodes. -/
theorem Exchanging.alive_cofactors (h : Exchanging o l v w rest s held) (hr : r ∈ rest) :
    (s.diagram.alive r.newLow.low ∧ s.diagram.alive r.newLow.high) ∧
      s.diagram.alive r.newHigh.low ∧ s.diagram.alive r.newHigh.high := by
  have hrotates := h.rotates r hr
  obtain ⟨hlow, hhigh⟩ := h.sound.closed _ _ hrotates.branch?
  have hclow := h.sound.closed.alive_cofactorsOf (v := w) hlow
  have hchigh := h.sound.closed.alive_cofactorsOf (v := w) hhigh
  simp only [Rotation.newLow, Rotation.newHigh, hrotates.lowCofactors, hrotates.highCofactors]
  exact ⟨⟨hclow.1, hchigh.1⟩, hclow.2, hchigh.2⟩

end Store

end DecisionGraph
