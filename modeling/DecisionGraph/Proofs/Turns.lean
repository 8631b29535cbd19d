import DecisionGraph.Proofs.Exchange

/-!
# What rotations change

A rotation makes new tests of `v`, gives its own node a new branch, and collects what the node has
given up. All that can be collected lies in a part of the diagram that no edge leaves and that has
none of the nodes to rotate in it. So the other nodes keep their branches, and a node that was there
before and is there after has the branch that it had, unless it has been rotated. Such changes
compose, and so this is true of a plan as of one rotation.

* `Basin` — a part in which everything lies that rotations give up.
* `Turns`, `Turns.trans` — what rotations change, and what they leave as it is.
* `Exchanging.rotate_turns` — one rotation: it is not rejected.
* `Exchanging.rotateAll_turns` — the rotations of a plan.
-/

namespace DecisionGraph

namespace Store

/-- A part of the diagram that edges do not leave, where everything lies that the rotations `rs`
give up. Nodes that are still to be made are not in it. -/
structure Basin (s : Store) (inside : NodeId → Prop) (rs : List Rotation) : Prop where
  closed : s.ClosedPart inside
  issued : ∀ n, inside n → s.diagram.issued n
  apart : ∀ n, inside n → n ∉ rs.map Rotation.node
  children : ∀ r ∈ rs, inside r.children.low ∧ inside r.children.high

/-- From `s` to `t` the rotations `done` have been carried out, and only nodes inside of a part of
the diagram have been collected. -/
structure Turns (s : Store) (v w : Var) (inside : NodeId → Prop) (done : List Rotation)
    (t : Store) : Prop extends Moves s t where
  rotated : ∀ r ∈ done, ∃ low high, t.diagram.branch? r.node = some ⟨⟨low, high⟩, w⟩ ∧
    t.diagram.Unfolds v low r.newLow ∧ t.diagram.Unfolds v high r.newHigh
  kept : ∀ n b, s.diagram.branch? n = some b → n ∉ done.map Rotation.node → ¬ inside n →
    t.diagram.branch? n = some b
  old : ∀ n b, s.diagram.alive n → n ∉ done.map Rotation.node → t.diagram.branch? n = some b →
    s.diagram.branch? n = some b
  new : ∀ n b, ¬ s.diagram.alive n → t.diagram.branch? n = some b → b.var = v ∧ b.low ≠ b.high
  issued : ∀ n, t.diagram.issued n → s.diagram.issued n ∨ t.diagram.alive n
  subtables : ∀ x, x ≠ v → x ≠ w →
    (∀ n b, s.diagram.branch? n = some b → t.diagram.branch? n = none → b.var ≠ x) →
    t.unique.subtable x = s.unique.subtable x

variable {s t u : Store} {o : VarOrder} {l : Nat} {v w : Var} {held : Holding} {n low high : NodeId}
  {k : Children} {b : Branch} {r : Rotation} {rest done more first : List Rotation}
  {inside out : NodeId → Prop}

theorem Basin.not_inside (h : s.Basin inside rest) (hr : r ∈ rest) : ¬ inside r.node :=
  fun hin => h.apart _ hin (List.mem_map_of_mem hr)

/-- A node that has not been rotated, and is there before and after, has its branch. -/
theorem Turns.branch?_eq (h : s.Turns v w inside done t) (hn : n ∉ done.map Rotation.node)
    (ha : s.diagram.alive n) (ha' : t.diagram.alive n) :
    t.diagram.branch? n = s.diagram.branch? n := by
  rcases Diagram.alive_iff.mp ha' with hterminal | ⟨b, hb⟩
  · cases n with
    | terminal value => rfl
    | inner i => cases hterminal
  · rw [hb, h.old n b ha hn hb]

/-- A branch after rotations is an old one, or one of the two variables is tested. -/
theorem Turns.old_or_var (h : s.Turns v w inside done t) (hb : t.diagram.branch? n = some b) :
    s.diagram.branch? n = some b ∨ b.var = v ∨ b.var = w := by
  by_cases hn : n ∈ done.map Rotation.node
  · obtain ⟨r, hr, rfl⟩ := List.mem_map.mp hn
    obtain ⟨low, high, hbranch, -⟩ := h.rotated r hr
    rw [hb, Option.some.injEq] at hbranch
    exact Or.inr (Or.inr (by rw [hbranch]))
  · by_cases ha : s.diagram.alive n
    · exact Or.inl (h.old n b ha hn hb)
    · exact Or.inr (Or.inl (h.new n b ha hb).1)

theorem Turns.basin (h : s.Turns v w inside done t) (hs : s.Basin inside (done ++ more)) :
    t.Basin inside more where
  closed n b hn hb := by
    have ha := h.evolves.gone n (Diagram.issued_iff.mp (hs.issued n hn))
      (Diagram.alive_of_branch? hb)
    have hdone : n ∉ done.map Rotation.node := fun hmem => hs.apart n hn (by simp [hmem])
    exact hs.closed n b hn (h.old n b ha hdone hb)
  issued n hn := h.evolves.issued (hs.issued n hn)
  apart n hn hmem := hs.apart n hn (by simp [hmem])
  children r hr := hs.children r (List.mem_append_right _ hr)

/-- Rotations after others. No node is rotated twice, or made and then rotated. -/
theorem Turns.trans (h : s.Turns v w inside done t) (h' : t.Turns v w inside more u)
    (ht : Exchanging o l v w (more ++ rest) t held) (hu : u.diagram.Closed)
    (hinside : ∀ n, inside n → s.diagram.issued n)
    (hdone : ∀ r ∈ done, ¬ inside r.node ∧ r.node ∉ more.map Rotation.node)
    (hmore : ∀ r ∈ more, s.diagram.alive r.node) : s.Turns v w inside (done ++ more) u where
  toMoves := h.toMoves.trans h'.toMoves
  rotated r hr := by
    rcases List.mem_append.mp hr with hr | hr
    · obtain ⟨low, high, hb, hlow, hhigh⟩ := h.rotated r hr
      have hb' := h'.kept _ _ hb (hdone r hr).2 (hdone r hr).1
      obtain ⟨halow, hahigh⟩ := ht.sound.closed _ _ hb
      obtain ⟨halow', hahigh'⟩ := hu _ _ hb'
      obtain ⟨hplow, hphigh⟩ := ht.apart _ _ hb rfl
      rw [List.map_append, List.mem_append, not_or] at hplow hphigh
      exact ⟨low, high, hb', hlow.of_branch?_eq (h'.branch?_eq hplow.1 halow halow'),
        hhigh.of_branch?_eq (h'.branch?_eq hphigh.1 hahigh hahigh')⟩
    · exact h'.rotated r hr
  kept n b hb hn hout := by
    rw [List.map_append, List.mem_append, not_or] at hn
    exact h'.kept n b (h.kept n b hb hn.1 hout) hn.2 hout
  old n b ha hn hb := by
    rw [List.map_append, List.mem_append, not_or] at hn
    have ha' := h.evolves.alive_between h'.evolves ha (Diagram.alive_of_branch? hb)
    exact h.old n b ha hn.1 (h'.old n b ha' hn.2 hb)
  new n b ha hb := by
    by_cases ha' : t.diagram.alive n
    · refine h.new n b ha (h'.old n b ha' (fun hn => ?_) hb)
      obtain ⟨r, hr, rfl⟩ := List.mem_map.mp hn
      exact ha (hmore r hr)
    · exact h'.new n b ha' hb
  issued n hn := by
    by_cases hold : s.diagram.issued n
    · exact Or.inl hold
    · refine Or.inr ((h'.issued n hn).elim (fun hn => ?_) id)
      rcases Diagram.alive_iff.mp ((h.issued n hn).resolve_left hold) with hterminal | ⟨b, hb⟩
      · exact Diagram.alive_iff.mpr (Or.inl hterminal)
      · refine Diagram.alive_of_branch? (h'.kept n b hb (fun hmem => hold ?_) fun hin =>
          hold (hinside n hin))
        obtain ⟨r, hr, rfl⟩ := List.mem_map.mp hmem
        exact Diagram.issued_of_alive (hmore r hr)
  subtables x hv hw hx := by
    have hgone : ∀ n b, s.diagram.branch? n = some b → t.diagram.branch? n = none → b.var ≠ x :=
      fun n b hb hn => hx n b hb (h'.evolves.branch?_eq_none
        (h.evolves.issued (Diagram.issued_of_alive (Diagram.alive_of_branch? hb))) hn)
    have hgone' : ∀ n b, t.diagram.branch? n = some b → u.diagram.branch? n = none → b.var ≠ x := by
      intro n b hb hn
      rcases h.old_or_var hb with hb | rfl | rfl
      · exact hx n b hb hn
      · exact hv.symm
      · exact hw.symm
    rw [h'.subtables x hv hw hgone', h.subtables x hv hw hgone]

/-! ## The parts of a rotation -/

theorem turns_of_diagram_eq (hd : t.diagram = s.diagram) (hcount : s.varCount ≤ t.varCount)
    (hconfig : t.config = s.config)
    (hsub : ∀ x, x ≠ v → t.unique.subtable x = s.unique.subtable x) :
    s.Turns v w inside [] t where
  evolves := hd ▸ .refl _
  varCount_le := hcount
  config := hconfig
  rotated _ hr := absurd hr List.not_mem_nil
  kept _ _ hb _ _ := hd ▸ hb
  old _ _ _ _ hb := hd ▸ hb
  new _ _ ha hb := absurd (hd ▸ Diagram.alive_of_branch? hb) ha
  issued _ hn := Or.inl (hd ▸ hn)
  subtables x hv _ _ := hsub x hv

theorem Supplied.turns (h : s.Supplied v k n t) (hc : s.diagram.Closed) :
    s.Turns v w inside [] t where
  toMoves := h.grew.moves hc
  rotated _ hr := absurd hr List.not_mem_nil
  kept m b hb _ _ := h.grew.branch? hb
  old m b ha _ hb := (h.grew.grows.subset.branch?_eq ha).trans hb
  new m b ha hb := by
    rcases h.gains m b hb with hb' | ⟨hne, hnew⟩
    · exact absurd (Diagram.alive_of_branch? hb') ha
    · rw [hb, Option.some.injEq] at hnew
      exact ⟨by rw [hnew], hne⟩
  issued := h.grew.grows.issued
  subtables x hv _ _ := h.subtables x hv

theorem Shed.turns {held' : Holding} (h : s.Shed inside t) (ht : t.Sound out held') :
    s.Turns v w inside [] t where
  toMoves := h.moves ht
  rotated _ hr := absurd hr List.not_mem_nil
  kept n _ hb _ hout := (h.outside n hout).trans hb
  old n b _ _ hb := h.shrinks.subset n b hb
  new _ _ ha hb := absurd (h.shrinks.subset.alive (Diagram.alive_of_branch? hb)) ha
  issued n hn := Or.inl (h.shrinks.issued_eq n ▸ hn)
  subtables x _ _ := h.subtables x

/-- The node of a rotation has its new branch. -/
theorem Exchanging.turns_turned (h : Exchanging o l v w (r :: rest) s held) (ho : o.Adjacent l v w)
    (hlow : s.diagram.Unfolds v low r.newLow) (hhigh : s.diagram.Unfolds v high r.newHigh)
    (hplow : low ∉ (r :: rest).map Rotation.node) (hphigh : high ∉ (r :: rest).map Rotation.node)
    {unique : UniqueTable} {alive : NodeId → Bool}
    (hinsert : s.unique.insert w ⟨low, high⟩ r.node alive = .ok (.ok (), unique)) :
    s.Turns v w inside [r] (s.turned w r low high unique) where
  evolves := h.evolves_rotated ho hlow hhigh hplow hphigh
  varCount_le := Nat.le_refl _
  config := rfl
  rotated r' hr' := by
    obtain rfl := List.mem_singleton.mp hr'
    exact ⟨low, high, (h.branch?_rotated _).trans (if_pos rfl),
      hlow.of_branch?_eq (h.branch?_rotated_of_not_pending hplow),
      hhigh.of_branch?_eq (h.branch?_rotated_of_not_pending hphigh)⟩
  kept n b hb hn _ := (h.branch?_rotated n).trans ((if_neg (by simpa using hn)).trans hb)
  old n b _ hn hb := ((h.branch?_rotated n).trans (if_neg (by simpa using hn))).symm.trans hb
  new n b ha hb := by
    have halive : (s.rotated w r low high).alive n = s.diagram.alive n :=
      Diagram.alive_setBranch (by rw [(h.rotates r List.mem_cons_self).branch?]; rfl) _ n
    exact absurd (halive.symm.trans (Diagram.alive_of_branch? hb)) ha
  issued n hn := Or.inl (by
    rw [Diagram.issued_iff] at hn ⊢
    exact Diagram.fresh_setBranch s.diagram r.node _ ▸ hn)
  subtables x _ hw _ := UniqueTable.subtable_of_insert hinsert hw

/-! ## Rotations -/

theorem Exchanging.alive_node (h : Exchanging o l v w rest s held) (hr : r ∈ rest) :
    s.diagram.alive r.node := Diagram.alive_of_branch? (h.rotates r hr).branch?

/-- Nothing but what lies below the two levels, and the tests of `w` over that, is given up. -/
theorem Exchanging.basin (h : Exchanging o l v w rest s held) (ho : o.Adjacent l v w) :
    s.Basin (fun n => s.alive n ∧ s.diagram.Lower (o.exchange l v w) l w n) rest where
  closed n b hn hb :=
    ⟨⟨(h.sound.closed n b hb).1, (h.closedPart ho n b hn.2 hb).1⟩,
      (h.sound.closed n b hb).2, (h.closedPart ho n b hn.2 hb).2⟩
  issued _ hn := Diagram.issued_of_alive hn.1
  apart _ hn := h.not_pending_of_lower ho hn.2
  children r hr :=
    ⟨⟨(h.sound.closed _ _ (h.rotates r hr).branch?).1, (h.lower r hr).1⟩,
      (h.sound.closed _ _ (h.rotates r hr).branch?).2, (h.lower r hr).2⟩

/-- One rotation: it cannot be rejected, and the invariant holds for the rotations that are left. -/
theorem Exchanging.rotate_turns (h : Exchanging o l v w (r :: rest) s held)
    (ho : o.Adjacent l v w) (hbasin : s.Basin inside (r :: rest)) :
    Gives (rotate v w r s) fun p => p.1 = .ok () ∧ Exchanging o l v w rest p.2 held ∧
      s.Turns v w inside [r] p.2 ∧ s.Spares p.2 := by
  have hmem := List.mem_cons_self (a := r) (l := rest)
  have hcofactors := h.alive_cofactors hmem
  unfold Store.rotate
  refine Action.gives_step (h.consReduced ho (h.deep_newLow ho hmem) hcofactors.1.1 hcofactors.1.2)
    fun low s₁ ⟨h₁, hlow, hplow⟩ => ?_
  have hcofactors₁ := h₁.alive_cofactors hmem
  refine Action.gives_step (h₁.consReduced ho (h₁.deep_newHigh ho hmem) hcofactors₁.2.1
    hcofactors₁.2.2) fun high s₂ ⟨h₂, hhigh, hphigh⟩ => ?_
  have halow := hhigh.grew.alive hlow.alive
  have hulow := hlow.unfolds.of_branch?_eq (hhigh.grew.grows.subset.branch?_eq hlow.alive).symm
  obtain ⟨unique, hinsert, h₃⟩ := h₂.turned ho hulow hhigh.unfolds hplow hphigh halow hhigh.alive
    (s₂.rotated w r low high).alive
  apply Action.gives_change_of_eq (addRef_eq s₂ low halow)
  apply Action.gives_change_of_eq (addRef_eq (s₂.recount low (· + 1)) high hhigh.alive)
  have hrelabel : ((s₂.recount low (· + 1)).recount high (· + 1)).relabel r.node ⟨⟨low, high⟩, w⟩ =
      .ok { s₂.referenced ⟨⟨low, high⟩, w⟩ with diagram := s₂.rotated w r low high } :=
    if_pos (h₂.alive_node hmem)
  apply Action.gives_change_of_eq hrelabel
  have henter : Gives (enter w ⟨low, high⟩ r.node
      { s₂.referenced ⟨⟨low, high⟩, w⟩ with diagram := s₂.rotated w r low high })
      (· = (.ok (), s₂.turned w r low high unique)) := by
    apply gives_bind_of_eq hinsert
    exact gives_pure rfl
  refine Action.gives_bind henter ?_ (fun e t heq => by cases heq)
  rintro _ _ ⟨⟩
  -- what the node has given up lies in the basin, where nothing waits to be rotated
  have hnode : ∀ r' ∈ [r], s.diagram.alive r'.node :=
    List.forall_mem_singleton.mpr (h.alive_node hmem)
  have hturns₁ : s.Turns v w inside [] s₁ := hlow.turns h.sound.closed
  have hturns₂ : s.Turns v w inside [] s₂ :=
    hturns₁.trans (hhigh.turns h₁.sound.closed) h₁ h₂.sound.closed
      hbasin.issued (by simp) (by simp)
  have hturns₃ : s.Turns v w inside [r] (s₂.turned w r low high unique) :=
    hturns₂.trans (h₂.turns_turned ho hulow hhigh.unfolds hplow hphigh hinsert) h₂
      h₃.sound.closed hbasin.issued (by simp) hnode
  have hbasin₃ : (s₂.turned w r low high unique).Basin inside rest := hturns₃.basin hbasin
  obtain ⟨hinlow, hinhigh⟩ := hbasin.children r hmem
  refine Action.gives_step (h₃.release hbasin₃.closed hbasin₃.apart hinlow
    (Nat.lt_of_lt_of_le (Holding.take_pos held _) (Holding.le_take _ _ _)))
    fun _ s₄ ⟨h₄, hshed₄, hspares₄⟩ => ?_
  rw [Holding.take_comm, Holding.drop_take] at h₄
  refine Action.gives_step (h₄.release (hbasin₃.closed.shrink hshed₄.shrinks.subset) hbasin₃.apart
    hinhigh (Holding.take_pos held _)) fun _ s₅ ⟨h₅, hshed₅, hspares₅⟩ => ?_
  rw [Holding.drop_take] at h₅
  have hout : ∀ r' ∈ [r], ¬ inside r'.node ∧ r'.node ∉ ([] : List Rotation).map Rotation.node := by
    rw [List.forall_mem_singleton]
    exact ⟨hbasin.not_inside hmem, List.not_mem_nil⟩
  refine Action.gives_pure ⟨rfl, h₅, hturns₃.trans ((hshed₄.trans hshed₅).turns h₅.sound) h₃
    h₅.sound.closed hbasin.issued hout (by simp), fun m hm => ?_⟩
  obtain ⟨hm, hnlow, hnhigh⟩ := h₂.loose_turned halow hhigh.alive (hspares₄ m (hspares₅ m hm))
  exact (hlow.loose m ((hhigh.loose m hm).resolve_right hnhigh)).resolve_right hnlow

/-- The first rotations of a plan: none of them is rejected. -/
theorem Exchanging.rotateAll_turns (h : Exchanging o l v w (first ++ rest) s held)
    (ho : o.Adjacent l v w) (hbasin : s.Basin inside (first ++ rest)) :
    Gives (rotateAll v w first s) fun p => p.1 = .ok () ∧ Exchanging o l v w rest p.2 held ∧
      s.Turns v w inside first p.2 ∧ s.Spares p.2 := by
  induction first generalizing s with
  | nil =>
    exact Action.gives_pure ⟨rfl, h, turns_of_diagram_eq rfl (Nat.le_refl _) rfl fun _ _ => rfl,
      .refl s⟩
  | cons r first ih =>
    have hnodup := h.nodes_nodup
    rw [List.cons_append, List.map_cons, List.nodup_cons, List.map_append, List.mem_append, not_or]
      at hnodup
    have hout : ∀ r' ∈ [r], ¬ inside r'.node ∧ r'.node ∉ first.map Rotation.node := by
      rw [List.forall_mem_singleton]
      exact ⟨hbasin.not_inside List.mem_cons_self, hnodup.1.1⟩
    refine Action.gives_bind (h.rotate_turns ho hbasin) (fun _ s₁ ⟨_, h₁, hturns₁, hspares₁⟩ => ?_)
      (fun e t hp => nomatch hp.1)
    have hbasin₁ : s₁.Basin inside (first ++ rest) := hturns₁.basin hbasin
    refine gives_mono (ih h₁ hbasin₁)
      fun p ⟨hok, hp, hturns, hspares⟩ => ⟨hok, hp, ?_, hspares₁.trans hspares⟩
    exact hturns₁.trans hturns h₁ hp.sound.closed hbasin.issued hout fun r' hr' =>
      h.alive_node (List.mem_cons_of_mem r (List.mem_append_left rest hr'))

theorem Exchanging.rotate (h : Exchanging o l v w (r :: rest) s held) (ho : o.Adjacent l v w) :
    Gives (rotate v w r s) fun p =>
      p.1 = .ok () ∧ Exchanging o l v w rest p.2 held ∧ s.Tidy p.2 :=
  gives_mono (h.rotate_turns ho (h.basin ho)) fun _ ⟨hok, hp, hturns, hspares⟩ =>
    ⟨hok, hp, hturns.toMoves, hspares⟩

theorem Exchanging.rotateAll (h : Exchanging o l v w (first ++ rest) s held)
    (ho : o.Adjacent l v w) :
    Gives (rotateAll v w first s) fun p =>
      p.1 = .ok () ∧ Exchanging o l v w rest p.2 held ∧ s.Tidy p.2 :=
  gives_mono (h.rotateAll_turns ho (h.basin ho)) fun _ ⟨hok, hp, hturns, hspares⟩ =>
    ⟨hok, hp, hturns.toMoves, hspares⟩

end Store

end DecisionGraph
