import DecisionGraph.Proofs.Reduction
import DecisionGraph.Proofs.Travels

/-!
# Sifting keeps what was there

The pins are holds like any others: they are taken before the first exchange and given back after
the last, on success and on rejection, and in between no pinned node can lose its last reference. So
what was there stays there.

With the pins and the hold on the reduced root, every node is referred to. The exchanges keep it so,
and so does a release of the reduced root. Hence a node that is left without references has lost a
pin, and was there before, or it is the root that is returned.

The reduced root is not larger than the root, and the travels of the variables do not make it
larger.

* `Valid.addRefs`, `Valid.dropRefs` — the pins.
* `Made.not_loose`, `Valid.protects` — every node is referred to, and what follows from that when
  the pins are given back.
* `Sifting` — the invariant while variables travel. It is entered by `Recounts.sifting`, kept by
  `Sifting.steady`, and left by `Sifting.quit_root`, `Sifting.quit_copy` or `Sifting.finish`.
* `Sifted`, `Improved`, `Valid.sift_or_struck`, `Valid.sift` — the call.
-/

namespace DecisionGraph

/-! ## The pins -/

/-- One hold more on each of the nodes. -/
def Holding.takeAll (held : Holding) : List NodeId → Holding
  | [] => held
  | n :: ns => (held.takeAll ns).take n

theorem Holding.takeAll_take (held : Holding) (n : NodeId) (ns : List NodeId) :
    (held.take n).takeAll ns = (held.takeAll ns).take n := by
  induction ns with
  | nil => rfl
  | cons m ns ih => rw [takeAll, takeAll, ih, take_comm]

theorem Holding.takeAll_pos (held : Holding) {n : NodeId} {ns : List NodeId} (h : n ∈ ns) :
    0 < held.takeAll ns n := by
  induction ns with
  | nil => cases h
  | cons m ns ih =>
    rcases List.mem_cons.mp h with rfl | h
    · exact take_pos _ _
    · exact Nat.lt_of_lt_of_le (ih h) (le_take _ _ _)

theorem Holding.takeAll_of_not_mem (held : Holding) {n : NodeId} {ns : List NodeId} (h : n ∉ ns) :
    held.takeAll ns n = held n := by
  induction ns with
  | nil => rfl
  | cons m ns ih =>
    rw [List.mem_cons, not_or] at h
    rw [takeAll, take, if_neg h.1, ih h.2]

namespace Store

/-- From `s` to `t`, nothing has changed but counts. -/
structure Recounts (s t : Store) : Prop where
  diagram : t.diagram = s.diagram
  order : t.order = s.order
  config : t.config = s.config

variable {s t u : Store} {held held' : Holding} {root n : NodeId} {ns : List NodeId}

theorem Recounts.refl (s : Store) : s.Recounts s := ⟨rfl, rfl, rfl⟩

theorem Recounts.trans (h : s.Recounts t) (h' : t.Recounts u) : s.Recounts u :=
  ⟨h'.diagram.trans h.diagram, h'.order.trans h.order, h'.config.trans h.config⟩

theorem recounts_recount (s : Store) (n : NodeId) (f : Nat → Nat) : s.Recounts (s.recount n f) :=
  ⟨rfl, rfl, rfl⟩

theorem Recounts.varCount (h : s.Recounts t) : t.varCount = s.varCount := by
  simp only [Store.varCount, h.order]

theorem Recounts.moves (h : s.Recounts t) : s.Moves t :=
  ⟨h.diagram ▸ .refl _, Nat.le_of_eq h.varCount.symm, h.config⟩

theorem Valid.addRefs (h : s.Valid held) (ha : ∀ n ∈ ns, s.diagram.alive n) :
    Gives (addRefs ns s) fun t => t.Valid (held.takeAll ns) ∧ s.Recounts t := by
  induction ns generalizing s held with
  | nil => exact gives_ok ⟨h, .refl s⟩
  | cons n ns ih =>
    have hn := ha n List.mem_cons_self
    unfold Store.addRefs
    apply gives_bind_of_eq (addRef_eq s n hn)
    refine gives_mono (ih (h.addRef hn) fun m hm => ha m (List.mem_cons_of_mem _ hm))
      fun t ⟨ht, hrecounts⟩ => ?_
    rw [Holding.takeAll_take] at ht
    exact ⟨ht, (recounts_recount s n (· + 1)).trans hrecounts⟩

theorem Valid.dropRef_taken (h : s.Valid (held.take n)) :
    Gives (s.dropRef n) fun p => p.2.Valid held ∧ s.Recounts p.2 := by
  have hpos := Holding.take_pos held n
  have hn := h.sound.alive_of_held hpos
  have hdrop := h.dropRef hn (Or.inl hpos)
  rw [Holding.drop_take] at hdrop
  exact ⟨_, dropRef_eq s n hn, hdrop, recounts_recount s n (· - 1)⟩

/-- The pins are given back, and no node is collected by that. -/
theorem Valid.dropRefs (h : s.Valid (held.takeAll ns)) :
    Gives (dropRefs ns s) fun t => t.Valid held ∧ s.Recounts t := by
  induction ns generalizing s with
  | nil => exact gives_ok ⟨h, .refl s⟩
  | cons n ns ih =>
    unfold Store.dropRefs
    refine gives_bind (Valid.dropRef_taken h) fun ⟨count, t⟩ ⟨ht, hrecounts⟩ => ?_
    exact gives_mono (ih ht) fun u ⟨hu, hrecounts'⟩ => ⟨hu, hrecounts.trans hrecounts'⟩

/-! ## What the pins protect -/

/-- Every live inner node is held. -/
def Pinned (s : Store) (held : Holding) : Prop :=
  ∀ n b, s.diagram.branch? n = some b → 0 < held n

theorem pinned_takeAll (s : Store) (held : Holding) :
    s.Pinned (held.takeAll s.diagram.inners) := fun _ b hb =>
  Holding.takeAll_pos held (Diagram.mem_inners_iff.mpr ⟨b, hb⟩)

theorem takeAll_of_dead (hn : ¬ s.diagram.alive n) (held : Holding) :
    held.takeAll s.diagram.inners n = held n := by
  refine Holding.takeAll_of_not_mem held fun hmem => hn ?_
  obtain ⟨b, hb⟩ := Diagram.mem_inners_iff.mp hmem
  exact Diagram.alive_of_branch? hb

/-- If all nodes are pinned, and one is made and held, every node is referred to. -/
theorem Made.not_loose (h : s.Made held n t) (hpinned : s.Pinned held) (m : NodeId) :
    ¬ (t.recount n (· + 1)).Loose m := by
  rintro ⟨⟨b, hb⟩, hzero⟩
  rw [(h.valid.addRef h.alive).sound.counted, recount_diagram] at hzero
  have hheld : held.take n m = 0 := by omega
  rcases h.adds m b hb with hb | ⟨-, r, hr, hbelow⟩
  · have hpos := Nat.lt_of_lt_of_le (hpinned m b hb) (Holding.le_take held m n)
    omega
  · obtain rfl := List.mem_singleton.mp hr
    cases hbelow with
    | refl =>
      have hpos := Holding.take_pos held m
      omega
    | step _ edge =>
      have hpos := Diagram.edgesInto_pos edge
      omega

/-- The nodes of `s` are in `t`, and a node of `t` to which nothing refers is one of them, or it has
the property `P`. -/
structure Protects (s : Store) (P : NodeId → Prop) (t : Store) : Prop where
  kept : ∀ n, s.diagram.alive n → t.diagram.alive n
  loose : ∀ n, t.Loose n → s.diagram.alive n ∨ P n

/-- When everything is referred to, and holds are given back on nodes that were there before or have
the property `P`. -/
theorem Valid.protects {P : NodeId → Prop} (ht : t.Valid held') (hu : u.Valid held)
    (hd : u.diagram = t.diagram) (hpinned : s.Pinned held') (hloose : ∀ n, ¬ t.Loose n)
    (hother : ∀ n, ¬ s.diagram.alive n → ¬ P n → held' n = held n) : s.Protects P u where
  kept n ha := by
    rcases Diagram.alive_iff.mp ha with hterminal | ⟨b, hb⟩
    · exact Diagram.alive_iff.mpr (Or.inl hterminal)
    · exact hd ▸ ht.sound.alive_of_held (hpinned n b hb)
  loose n hn := by
    by_cases ha : s.diagram.alive n
    · exact Or.inl ha
    · refine Or.inr (Classical.byContradiction fun hP => hloose n ?_)
      have hcounted := ht.sound.counted n
      have hcounted' := hu.sound.counted n
      have hheld := hother n ha hP
      obtain ⟨hb, hzero⟩ := hn
      rw [hd] at hcounted' hb
      exact ⟨hb, by omega⟩

/-! ## What sifting keeps -/

/-- From `s` to `t` no node has changed its meaning, the variables are the same, and there are idle
tests only if there were some. -/
structure Keeps (s t : Store) : Prop extends Moves s t where
  varCount : t.varCount = s.varCount
  noIdle : s.diagram.NoIdle → t.diagram.NoIdle

theorem Keeps.trans (h : s.Keeps t) (h' : t.Keeps u) : s.Keeps u :=
  ⟨h.toMoves.trans h'.toMoves, h'.varCount.trans h.varCount, fun hs => h'.noIdle (h.noIdle hs)⟩

theorem Recounts.keeps (h : s.Recounts t) : s.Keeps t :=
  ⟨h.moves, h.varCount, fun hs => h.diagram ▸ hs⟩

theorem Made.keeps (h : s.Made held n t) (hc : s.diagram.Closed) : s.Keeps t :=
  ⟨h.grew.moves hc, congrArg VarOrder.size h.grew.order, Diagram.Gains.noIdle h.adds⟩

theorem Steady.keeps (h : Steady held s t) (hs : s.Valid held) : s.Keeps t :=
  ⟨h.tidy.toMoves, h.varCount, h.tidy.noIdle hs h.valid⟩

theorem Shed.keeps {inside : NodeId → Prop} (h : s.Shed inside t) (ht : t.Valid held) : s.Keeps t :=
  ⟨h.moves ht.sound, congrArg VarOrder.size h.order, h.shrinks.subset.noIdle⟩

/-! ## On the way -/

/-- Sifting has come from `s` to `t`. All nodes of `s` are pinned, and the root has been reduced to
`n`, which is held as well. -/
structure Sifting (held : Holding) (s : Store) (root n : NodeId) (t : Store) : Prop
    extends Keeps s t where
  valid : t.Valid ((held.takeAll s.diagram.inners).take n)
  not_loose : ∀ m, ¬ t.Loose m
  reduced : t.diagram.Reduced n
  alike : s.diagram.Alike root t.diagram n

/-- What sifting leaves of a store: all its nodes, and no node without references but those and the
nodes with the property `P`. -/
structure Sifted (held : Holding) (s : Store) (P : NodeId → Prop) (t : Store) : Prop
    extends Protects s P t, Keeps s t where
  valid : t.Valid held

/-- What sifting says of `root`, which it has reduced to `n`. -/
structure Improved (s : Store) (root : NodeId) (t : Store) (n : NodeId) (stats : SiftStats) :
    Prop where
  alive : t.diagram.alive n
  reduced : t.diagram.Reduced n
  alike : s.diagram.Alike root t.diagram n
  initialSize : s.size root = .ok stats.initialSize
  finalSize : t.size n = .ok stats.finalSize
  bestSize : stats.bestSize = stats.finalSize
  finalSize_le : stats.finalSize ≤ stats.initialSize
  sifted : stats.sifted = s.varCount

/-- A node that stands for a live one has the same function. -/
theorem Valid.alike_of_stands {r : NodeId} (h : s.Valid held) (hn : s.diagram.alive n)
    (hr : s.diagram.Stands n r) : s.diagram.Alike n s.diagram r := by
  refine fun a x => ⟨hr.value a x, fun hx => ?_⟩
  obtain ⟨y, hy⟩ := h.exists_value hn a
  exact hx.unique (hr.value a y hy) ▸ hy

/-- The reduced root has the function of the root, and is not larger in the order that it was found
in. -/
theorem Made.size_le (h : s.Made held n t) (hs : s.Valid held) (hroot : s.diagram.alive root)
    (hreduces : t.diagram.Reduces root n) :
    s.diagram.Alike root t.diagram n ∧ ∃ i j, t.size n = .ok i ∧ s.size root = .ok j ∧ i ≤ j := by
  have hroot' := h.grew.alive hroot
  have halike : s.diagram.Alike root t.diagram n := fun a x =>
    ((h.grew.moves hs.closed).evolves.value root hroot hroot' a x).trans
      (h.valid.alike_of_stands hroot' hreduces.stands a x)
  exact ⟨halike, h.valid.size_le hs h.grew.order.symm h.alive hroot hreduces.reduced halike.symm⟩

/-- The nodes are pinned, and the root is reduced. -/
theorem Recounts.sifting (hrecounts : s.Recounts t) (ht : t.Valid (held.takeAll s.diagram.inners))
    (hroot : s.diagram.alive root) (hmade : t.Made (held.takeAll s.diagram.inners) n u)
    (hreduces : u.diagram.Reduces root n) :
    Sifting held s root n (u.recount n (· + 1)) ∧
      ∃ i j, u.size n = .ok i ∧ s.size root = .ok j ∧ i ≤ j := by
  have hroot' : t.diagram.alive root := hrecounts.diagram ▸ hroot
  have hpinned : t.Pinned (held.takeAll s.diagram.inners) := fun m b hb =>
    s.pinned_takeAll held m b (hrecounts.diagram ▸ hb)
  obtain ⟨halike, hsize⟩ := hmade.size_le ht hroot' hreduces
  rw [hrecounts.diagram] at halike
  rw [show t.size root = s.size root by rw [Store.size, hrecounts.diagram, Store.size]] at hsize
  exact ⟨⟨hrecounts.keeps.trans ((hmade.keeps ht.closed).trans (recounts_recount u n _).keeps),
    hmade.valid.addRef hmade.alive, hmade.not_loose hpinned, hreduces.reduced, halike⟩, hsize⟩

section Sifting

variable (h : Sifting held s root n t)

include h

theorem Sifting.alive : t.diagram.alive n := h.valid.sound.alive_of_held (Holding.take_pos _ _)

/-- The travels of the variables. -/
theorem Sifting.steady (hsteady : Steady ((held.takeAll s.diagram.inners).take n) t u) :
    Sifting held s root n u := by
  have halive : u.diagram.alive n := hsteady.valid.sound.alive_of_held (Holding.take_pos _ _)
  refine ⟨h.toKeeps.trans (hsteady.keeps h.valid), hsteady.valid, fun m hm => ?_,
    hsteady.tidy.evolves.reduced n h.alive halive h.reduced, fun a x => ?_⟩
  · exact h.not_loose m (hsteady.tidy.spares m hm)
  · exact (h.alike a x).trans (hsteady.tidy.evolves.value n h.alive halive a x)

/-! ## The ends -/

/-- When all that sifting holds has been given back. -/
theorem Sifting.sifted (hrecounts : t.Recounts u) (hu : u.Valid held) {P : NodeId → Prop}
    (hn : s.diagram.alive n ∨ P n) : Sifted held s P u := by
  have hpinned : s.Pinned ((held.takeAll s.diagram.inners).take n) := fun m b hb =>
    Nat.lt_of_lt_of_le (s.pinned_takeAll held m b hb) (Holding.le_take _ _ _)
  refine ⟨h.valid.protects hu hrecounts.diagram hpinned h.not_loose fun m hm hP => ?_,
    h.toKeeps.trans hrecounts.keeps, hu⟩
  have hne : m ≠ n := by
    rintro rfl
    exact hn.elim hm hP
  rw [Holding.take, if_neg hne, takeAll_of_dead hm]

/-- After a rejection, where the root was reduced already. It is not collected. -/
theorem Sifting.quit_root (hn : s.diagram.alive n) :
    Gives (t.dropRef n) fun p =>
      Gives (dropRefs s.diagram.inners p.2) fun u => ∀ P, Sifted held s P u := by
  refine gives_mono h.valid.dropRef_taken fun ⟨_, t₁⟩ ⟨h₁, hrecounts₁⟩ => ?_
  refine gives_mono h₁.dropRefs fun u ⟨hu, hrecounts⟩ P => ?_
  exact h.sifted (hrecounts₁.trans hrecounts) hu (Or.inl hn)

/-- After a rejection, where the reduced root is another node. It is given up before the pins. -/
theorem Sifting.quit_copy :
    Gives (t.release n) fun p =>
      Gives (dropRefs s.diagram.inners p.2) fun u => ∀ P, Sifted held s P u := by
  refine gives_mono (h.valid.release_gives h.alive (Or.inl (Holding.take_pos _ _)))
    fun ⟨_, t₁⟩ ⟨h₁, hshed, hspares⟩ => ?_
  rw [Holding.drop_take] at h₁
  refine gives_mono h₁.dropRefs fun u ⟨hu, hrecounts⟩ P => ?_
  exact ⟨h₁.protects hu hrecounts.diagram (s.pinned_takeAll held)
    (fun m hm => h.not_loose m (hspares m hm)) fun m hm _ => takeAll_of_dead hm held,
    h.toKeeps.trans ((hshed.keeps h₁).trans hrecounts.keeps), hu⟩

/-- After the last variable. The reduced root may be left without references. -/
theorem Sifting.finish :
    Gives (dropRefs s.diagram.inners t) fun t₁ => Gives (t₁.dropRef n) fun p =>
      t.Recounts p.2 ∧ ∀ P : NodeId → Prop, P n → Sifted held s P p.2 := by
  have hvalid := h.valid
  rw [← Holding.takeAll_take] at hvalid
  refine gives_mono hvalid.dropRefs fun t₁ ⟨h₁, hrecounts₁⟩ => ?_
  refine gives_mono h₁.dropRef_taken fun ⟨_, u⟩ ⟨hu, hrecounts₂⟩ => ?_
  have hrecounts := hrecounts₁.trans hrecounts₂
  exact ⟨hrecounts, fun P hn => h.sifted hrecounts hu (Or.inr hn)⟩

/-- Giving back what is held changes nothing else. -/
theorem Sifting.improved (hrecounts : t.Recounts u) {stats : SiftStats}
    (hinitial : s.size root = .ok stats.initialSize) (hfinal : t.size n = .ok stats.finalSize)
    (hbest : stats.bestSize = stats.finalSize) (hle : stats.finalSize ≤ stats.initialSize)
    (hsifted : stats.sifted = s.varCount) : Improved s root u n stats where
  alive := hrecounts.diagram ▸ h.alive
  reduced := hrecounts.diagram ▸ h.reduced
  alike := hrecounts.diagram ▸ h.alike
  initialSize := hinitial
  finalSize := by rw [Store.size, hrecounts.diagram, ← Store.size, hfinal]
  bestSize := hbest
  finalSize_le := hle
  sifted := hsifted

end Sifting

/-! ## The call -/

/-- What sifting holds on the way is given back at the end, whether an exchange was rejected or
not. Nothing else can be rejected. -/
theorem Valid.sift_or_struck (h : s.Valid held) (hroot : s.diagram.alive root) :
    Gives (sift root s) fun p =>
      (Sifted held s (fun n => ∃ stats, p.1 = .ok (n, stats)) p.2 ∧
        ∀ n stats, p.1 = .ok (n, stats) → Improved s root p.2 n stats) ∧
      ∀ e, p.1 = .error e → ∃ held' t, s.Keeps t ∧ t.Valid held' ∧ Struck held' t e := by
  have hinners : ∀ n ∈ s.diagram.inners, s.diagram.alive n := by
    intro n hn
    obtain ⟨b, hb⟩ := Diagram.mem_inners_iff.mp hn
    exact Diagram.alive_of_branch? hb
  obtain ⟨initialSize, hinitial⟩ := h.size_gives hroot
  unfold Store.sift
  apply gives_bind_of_eq hinitial
  refine gives_bind (h.addRefs hinners) fun s₁ ⟨h₁, hrecounts₁⟩ => ?_
  refine gives_bind (h₁.reduce (hrecounts₁.diagram ▸ hroot)) fun ⟨n, s₂⟩ ⟨hmade, hreduces⟩ => ?_
  apply gives_bind_of_eq (addRef_eq s₂ n hmade.alive)
  obtain ⟨h₃, bestSize, size, hbest, hsize, hle⟩ := hrecounts₁.sifting h₁ hroot hmade hreduces
  rw [hinitial, Except.ok.injEq] at hsize
  subst hsize
  apply gives_bind_of_eq (show (s₂.recount n (· + 1)).size n = .ok bestSize from hbest)
  refine gives_bind (siftVariables_gives ⟨0, initialSize, 0, bestSize, 0⟩ h₃.valid
    (Holding.take_pos _ _) (fun v hv => ?_) h₃.reduced hbest)
    fun ⟨result, s₄⟩ ⟨hsteady, hstats, hrejected⟩ => ?_
  · obtain ⟨i, hi, rfl⟩ := List.mem_map.mp hv
    exact VarOrder.knows_iff.mpr (List.mem_range.mp hi)
  have h₄ := h₃.steady hsteady
  cases result with
  | error e =>
    have hstruck : ∀ e', (.error e : Except Rejection (NodeId × SiftStats)) = .error e' →
        ∃ held' t, s.Keeps t ∧ t.Valid held' ∧ Struck held' t e' := fun _ he =>
      ⟨_, _, h₃.toKeeps, h₃.valid, Except.error.inj he ▸ hrejected e rfl⟩
    dsimp only
    split
    · rename_i heq
      refine gives_bind (h₄.quit_root (heq ▸ hroot)) fun ⟨_, s₅⟩ hgives => ?_
      refine gives_bind hgives fun s₆ h₆ => ?_
      exact gives_pure ⟨⟨h₆ _, fun _ _ hn => nomatch hn⟩, hstruck⟩
    · refine gives_bind h₄.quit_copy fun ⟨_, s₅⟩ hgives => ?_
      refine gives_bind hgives fun s₆ h₆ => ?_
      exact gives_pure ⟨⟨h₆ _, fun _ _ hn => nomatch hn⟩, hstruck⟩
  | ok stats =>
    obtain ⟨hfinal, hle', hinitial', hsifted⟩ := hstats stats rfl
    refine gives_bind h₄.finish fun s₅ hgives => ?_
    refine gives_bind hgives fun ⟨_, s₆⟩ ⟨hrecounts, h₆⟩ => ?_
    have hfinal' : s₆.size n = .ok stats.bestSize := by
      rw [Store.size, hrecounts.diagram]
      exact hfinal
    apply gives_bind_of_eq hfinal'
    refine gives_pure ⟨⟨h₆ _ ⟨_, rfl⟩, fun m stats' hm => ?_⟩, fun _ he => nomatch he⟩
    cases hm
    refine h₄.improved hrecounts (hinitial' ▸ hinitial) hfinal rfl
      (Nat.le_trans hle' (hinitial' ▸ hle)) ?_
    rw [List.length_map, List.length_range, Nat.zero_add] at hsifted
    exact hsifted.trans h₃.varCount

theorem Valid.sift_or_clash (h : s.Valid held) (hroot : s.diagram.alive root) :
    Gives (sift root s) fun p =>
      (Sifted held s (fun n => ∃ stats, p.1 = .ok (n, stats)) p.2 ∧
        ∀ n stats, p.1 = .ok (n, stats) → Improved s root p.2 n stats) ∧
      ∀ e, p.1 = .error e → Clash e :=
  gives_mono (h.sift_or_struck hroot) fun _ hp => ⟨hp.1, fun e he => by
    obtain ⟨_, _, -, -, hstruck⟩ := hp.2 e he
    exact hstruck.clash⟩

theorem Valid.sift (h : s.Valid held) (hroot : s.diagram.alive root) :
    Gives (sift root s) fun p => Sifted held s (fun n => ∃ stats, p.1 = .ok (n, stats)) p.2 ∧
      ∀ n stats, p.1 = .ok (n, stats) → Improved s root p.2 n stats :=
  gives_mono (h.sift_or_clash hroot) fun _ hp => hp.1

end Store

end DecisionGraph
