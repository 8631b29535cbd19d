import Mathlib.Data.List.Nodup
import DecisionGraph.Proofs.Turns

/-!
# The exchange of neighbours

The invariant of the rotations holds when the look ahead has found no conflict and the nodes to
rotate are out of the unique table, and after the last rotation the store is valid with the next
order. As no rotation is rejected, the calls that are rejected are those that the order or the look
ahead turns away, when nothing has changed.

* `Carried`, `Valid.basin` — nothing is collected but what lies below the level of `v`, and has been
  referred to.
* `Valid.begins` — the invariant before the first rotation.
* `Exchanging.valid` — the store after the last one.
* `Valid.swap_of_free` — with no conflict in sight, the exchange succeeds.
* `Valid.swap_or_hinders`, `Valid.swap` — the exchange succeeds with the next order, or it is
  rejected and nothing has changed.
* `Hinders` — what it is rejected with.
-/

namespace DecisionGraph

namespace Store

variable {s : Store} {o : VarOrder} {l : Nat} {v w : Var} {rest : List Rotation} {held : Holding}
  {n : NodeId}

/-- The children of a node that is not to be rotated lie below it in the new order too. -/
theorem Valid.layered_exchange (h : s.Valid held) (ho : s.order.Adjacent l v w) {b : Branch}
    (hb : s.diagram.branch? n = some b)
    (hr : ∀ r, s.diagram.Rotates v w r → r.node ≠ n) :
    (s.order.exchange l v w).levelOf b.var <
        s.diagram.levelIn (s.order.exchange l v w) b.low ∧
      (s.order.exchange l v w).levelOf b.var <
        s.diagram.levelIn (s.order.exchange l v w) b.high := by
  have hturns : ∀ m, (m = b.low ∨ m = b.high) → (s.order.levelOf b.var : Nat) = l →
      s.diagram.levelIn s.order m ≠ l + 1 := by
    intro m hm hv hw
    obtain ⟨b', hb'⟩ := Diagram.exists_branch_of_levelIn_lt (hw ▸ ho.size_gt)
    rw [Diagram.levelIn_of_branch? hb'] at hw
    obtain rfl := ho.eq_upper hv
    exact hr ⟨n, b.toChildren, s.diagram.cofactorsOf w b.low, s.diagram.cofactorsOf w b.high⟩
      ⟨hb, rfl, rfl, m, b', hm, hb', ho.eq_lower hw⟩ rfl
  obtain ⟨hlow, hhigh⟩ := h.layered n b hb
  rw [ho.levelOf_exchange, Diagram.levelIn_exchange ho, Diagram.levelIn_exchange ho]
  exact ⟨Level.exchange_lt hlow (hturns b.low (Or.inl rfl)),
    Level.exchange_lt hhigh (hturns b.high (Or.inr rfl))⟩

/-- `n` lies below level `l`, and something refers to it. -/
structure Carried (s : Store) (l : Nat) (n : NodeId) : Prop where
  alive : s.diagram.alive n
  lt_level : l < s.diagram.levelIn s.order n
  referred : 0 < s.refCount n

/-- The children of a node on level `l` or below are referred to by it. -/
theorem Valid.carried_children (h : s.Valid held) {b : Branch}
    (hb : s.diagram.branch? n = some b) (hl : l ≤ s.order.levelOf b.var) :
    s.Carried l b.low ∧ s.Carried l b.high := by
  obtain ⟨halow, hahigh⟩ := h.closed n b hb
  obtain ⟨hllow, hlhigh⟩ := h.layered n b hb
  exact ⟨⟨halow, Nat.lt_of_le_of_lt hl hllow, h.sound.refCount_pos_of_child (.low hb)⟩,
    hahigh, Nat.lt_of_le_of_lt hl hlhigh, h.sound.refCount_pos_of_child (.high hb)⟩

/-- What the rotations give up lies below the level of `v` and is referred to. -/
theorem Valid.basin (h : s.Valid held) (ho : s.order.Adjacent l v w)
    (hrest : ∀ r ∈ rest, s.diagram.Rotates v w r) : s.Basin (s.Carried l) rest where
  closed n b hn hb :=
    h.carried_children hb (Diagram.levelIn_of_branch? hb ▸ Nat.le_of_lt hn.lt_level)
  issued _ hn := Diagram.issued_of_alive hn.alive
  apart n hn hmem := by
    obtain ⟨r, hr, rfl⟩ := List.mem_map.mp hmem
    have hlevel := hn.lt_level
    rw [Diagram.levelIn_of_branch? (hrest r hr).branch?, ho.levelOf_upper] at hlevel
    exact Nat.lt_irrefl l hlevel
  children r hr := h.carried_children (hrest r hr).branch? (Nat.le_of_eq ho.levelOf_upper.symm)

/-- With the nodes to rotate out of the unique table, the rotations may begin. -/
theorem Valid.exchanging (h : s.Valid held) (ho : s.order.Adjacent l v w)
    (hnodup : (rest.map Rotation.node).Nodup) (hrest : ∀ r, r ∈ rest ↔ s.diagram.Rotates v w r)
    (hshapes : (rest.map fun r => (r.newLow, r.newHigh)).Nodup)
    (hfresh : ∀ r ∈ rest, s.diagram.Fresh v w r) :
    Gives (withdraw v rest s) fun t => Exchanging s.order l v w rest t held ∧
      s.Turns v w (s.Carried l) [] t ∧ s.Spares t := by
  have hupper : ∀ r ∈ rest, s.diagram.levelIn s.order r.node = l := by
    intro r hr
    rw [Diagram.levelIn_of_branch? ((hrest r).mp hr).branch?]
    exact ho.levelOf_upper
  refine gives_mono (withdraw_gives h.sound (fun r hr => ⟨((hrest r).mp hr).branch?, id⟩) hnodup)
    fun t ⟨ht, hdiagram, horder, hcomputed, hconfig, hsub⟩ => ⟨?_, ?_, fun n ⟨hb, hzero⟩ => ?_⟩
  · simp only [false_or] at ht
    refine ⟨ht, horder, fun r hr => hdiagram ▸ (hrest r).mp hr, fun r hr => ?_,
      fun r hr => hdiagram ▸ hfresh r hr, hnodup, hshapes, fun n b hb hn => ?_,
      fun n b hb hvar => ?_, ?_⟩
    · obtain ⟨hlow, hhigh⟩ := h.layered _ _ ((hrest r).mp hr).branch?
      rw [ho.levelOf_upper] at hlow hhigh
      rw [hdiagram]
      exact ⟨Diagram.lower_of_lt ho h.layered hlow, Diagram.lower_of_lt ho h.layered hhigh⟩
    · rw [hdiagram] at hb ⊢
      apply h.layered_exchange ho hb
      rintro r hr rfl
      exact hn (List.mem_map_of_mem ((hrest r).mpr hr))
    · rw [hdiagram] at hb
      obtain ⟨hlow, hhigh⟩ := h.layered n b hb
      rw [hvar, ho.levelOf_lower] at hlow hhigh
      have hpending : ∀ m, l + 1 < s.diagram.levelIn s.order m → m ∉ rest.map Rotation.node := by
        intro m hm hmem
        obtain ⟨r, hr, rfl⟩ := List.mem_map.mp hmem
        have := hupper r hr
        omega
      exact ⟨hpending _ hlow, hpending _ hhigh⟩
    · rw [hcomputed, hdiagram]
      exact h.faithful
  · exact turns_of_diagram_eq hdiagram (Nat.le_of_eq (by simp only [varCount, horder])) hconfig hsub
  · refine ⟨hdiagram ▸ hb, ?_⟩
    rw [h.sound.counted, ← hdiagram, ← ht.counted, hzero]

/-- After the last rotation the store is valid with the new order. -/
theorem Exchanging.valid (h : Exchanging o l v w [] s held) (ho : o.Adjacent l v w) :
    ({ s with order := o.exchange l v w } : Store).Valid held := by
  have hsound := h.sound
  simp only [List.map_nil, List.not_mem_nil] at hsound
  have hcount : (o.exchange l v w).size = s.varCount := by
    rw [VarOrder.size_exchange, varCount, h.order]
  refine ⟨⟨hsound.size_counts, hsound.counted, hsound.uncounted, hsound.live_eq, fun n b hb => ?_,
    ?_, hsound.entered, hsound.out_alive⟩, ho.lawful_exchange, fun n b hb => ?_, h.faithful⟩
  · show (o.exchange l v w).knows b.var
    rw [VarOrder.knows_exchange, ← h.order]
    exact hsound.knows n b hb
  · show s.unique.Lawful (o.exchange l v w).size
    rw [hcount]
    exact hsound.table
  · exact h.layered n b hb List.not_mem_nil

theorem misplaced?_eq_none (h : s.misplaced? v w = none) (ho : s.order.Lawful) :
    s.order.Adjacent (s.order.levelOf v) v w := by
  unfold Store.misplaced? at h
  split at h
  · cases h
  · rename_i hv
    split at h
    · cases h
    · split at h
      · cases h
      · rename_i x hx
        split at h
        · subst x
          refine ⟨ho, ho.varAt?_levelOf ?_, hx⟩
          simpa using hv
        · cases h

theorem misplaced?_of_adjacent (ho : s.order.Adjacent (s.order.levelOf v) v w) :
    s.misplaced? v w = none := by
  have hlower : s.order.varAt? (s.order.levelOf v).next = some w := ho.lower
  simp only [misplaced?, ho.lawful.knows_of_varAt? ho.upper, ho.lawful.knows_of_varAt? ho.lower,
    hlower, Bool.not_true, Bool.false_eq_true, if_false, if_true]

theorem reorder_eq (ho : s.order.Adjacent l v w) :
    s.reorder l v w = .ok { s with order := s.order.exchange l v w } :=
  if_pos ⟨VarOrder.lt_size_of_varAt? ho.lower, ho.lawful.knows_of_varAt? ho.upper,
    ho.lawful.knows_of_varAt? ho.lower⟩

/-- If the look ahead finds no conflict, the rotations that are planned may begin. -/
theorem Valid.begins (h : s.Valid held) (hplace : s.misplaced? v w = none) :
    Gives (s.rotations v w) fun plan => Gives (s.conflict? v w plan []) fun conflict =>
      conflict = none → Gives (withdraw v plan s) fun t =>
        Exchanging s.order (s.order.levelOf v) v w plan t held ∧
          s.Turns v w (s.Carried (s.order.levelOf v)) [] t ∧ s.Spares t := by
  have ho := misplaced?_eq_none hplace h.lawful
  have hv := ho.lawful.knows_of_varAt? ho.upper
  have hw := ho.lawful.knows_of_varAt? ho.lower
  refine gives_mono (h.rotations_gives hv w) fun plan ⟨hnodup, hplan⟩ => ?_
  refine gives_mono (h.sound.conflict?_gives hv hw plan []) fun conflict hfree hnone => ?_
  obtain ⟨hshapes, hfresh⟩ := hfree.mp hnone
  refine h.exchanging ho hnodup hplan ?_ fun r hr => (hfresh r hr).1
  -- different outlooks come from different cofactors
  refine List.Nodup.of_map (fun k => (s.foreseen v k.1, s.foreseen v k.2)) ?_
  rw [List.map_map]
  exact hshapes

/-- If the look ahead finds no conflict, the exchange succeeds, and changes what the rotations of
the plan change. -/
theorem Valid.swap_of_free (h : s.Valid held) (hplace : s.misplaced? v w = none)
    {plan : List Rotation} (hplan : s.rotations v w = .ok plan)
    (hfree : s.conflict? v w plan [] = .ok none) :
    Gives (swap v w s) fun p =>
      p.1 = .ok () ∧ p.2.Valid held ∧ s.Spares p.2 ∧
        p.2.order = s.order.exchange (s.order.levelOf v) v w ∧
        s.Turns v w (s.Carried (s.order.levelOf v)) plan p.2 := by
  have ho := misplaced?_eq_none hplace h.lawful
  have hbegins := ((h.begins hplace).of_eq hplan).of_eq hfree rfl
  have hrotates := ((h.rotations_gives (ho.lawful.knows_of_varAt? ho.upper) w).of_eq hplan).2
  have hbasin : s.Basin (s.Carried (s.order.levelOf v)) plan :=
    h.basin ho fun r hr => (hrotates r).mp hr
  unfold Store.swap
  rw [Action.store_bind, hplace]
  apply Action.gives_ask_of_eq hplan
  apply Action.gives_ask_of_eq hfree
  refine Action.gives_change hbegins fun s₁ ⟨h₁, hturns₁, hspares₁⟩ => ?_
  have hbasin₁ : s₁.Basin (s.Carried (s.order.levelOf v)) plan := hturns₁.basin hbasin
  rw [← List.append_nil plan] at h₁ hbasin₁
  refine Action.gives_bind (h₁.rotateAll_turns ho hbasin₁)
    (fun _ s₂ ⟨_, h₂, hturns₂, hspares₂⟩ => ?_) (fun e t hp => nomatch hp.1)
  have horder : s₂.order.exchange (s₂.order.levelOf v) v w =
      s.order.exchange (s.order.levelOf v) v w := by rw [h₂.order]
  apply Action.gives_of_change (gives_of_eq (reorder_eq (h₂.order ▸ ho)) rfl)
  rintro _ rfl
  have hvalid := h₂.valid ho
  rw [← horder] at hvalid
  have hturns₃ : s₂.Turns v w (s.Carried (s.order.levelOf v)) []
      { s₂ with order := s₂.order.exchange (s₂.order.levelOf v) v w } :=
    turns_of_diagram_eq rfl (Nat.le_of_eq (VarOrder.size_exchange _ _ _ _).symm) rfl fun _ _ => rfl
  have hturns : s.Turns v w (s.Carried (s.order.levelOf v)) plan s₂ :=
    hturns₁.trans hturns₂ h₁ h₂.sound.closed hbasin.issued (by simp) fun r hr =>
      Diagram.alive_of_branch? ((hrotates r).mp hr).branch?
  have hout : ∀ r ∈ plan, ¬ s.Carried (s.order.levelOf v) r.node ∧
      r.node ∉ ([] : List Rotation).map Rotation.node := fun _ hr =>
    ⟨hbasin.not_inside hr, List.not_mem_nil⟩
  rw [← List.append_nil plan]
  exact ⟨rfl, hvalid, hspares₁.trans hspares₂, horder,
    hturns.trans hturns₃ h₂ hvalid.closed hbasin.issued hout (by simp)⟩

/-- What an exchange of `v` and `w` may be rejected with, and when: the variables are not both
known, `v` is the last one, `w` is not the next one, or the node with the children that are named
cannot be rotated. -/
inductive Hinders (s : Store) (v w : Var) : Rejection → Prop where
  | unknown {x : Var} (hx : x = v ∨ x = w) (h : ¬ s.order.knows x) :
      Hinders s v w (.unknownVariable x)
  | last (hv : s.order.knows v) (h : (s.order.levelOf v : Nat) + 1 = s.varCount) :
      Hinders s v w (.lastVariable v)
  | apart (hv : s.order.knows v) (hw : s.order.knows w)
      (h : (s.order.levelOf w : Nat) ≠ s.order.levelOf v + 1) : Hinders s v w (.notAdjacent v w)
  | taken {n low high : NodeId} (ho : s.order.Adjacent (s.order.levelOf v) v w)
      (hn : s.diagram.branch? n = some ⟨⟨low, high⟩, v⟩) : Hinders s v w (.shapeTaken w low high)

/-- What the order shows is one of the hindrances. -/
theorem misplaced?_hinders {e : Rejection} (h : s.misplaced? v w = some e)
    (ho : s.order.Lawful) : s.Hinders v w e := by
  unfold Store.misplaced? at h
  split at h
  · rename_i hv
    cases h
    exact .unknown (Or.inl rfl) (by simpa using hv)
  rename_i hv
  replace hv : s.order.knows v := by simpa using hv
  split at h
  · rename_i hw
    cases h
    exact .unknown (Or.inr rfl) (by simpa using hw)
  rename_i hw
  replace hw : s.order.knows w := by simpa using hw
  split at h
  · rename_i hnone
    cases h
    have hlt : (s.order.levelOf v : Nat) < s.varCount := ho.levelOf_lt hv
    have hle : s.varCount ≤ (s.order.levelOf v : Nat) + 1 := Nat.le_of_not_lt fun hlt' => by
      obtain ⟨x, hx⟩ := VarOrder.varAt?_isSome hlt'
      exact nomatch hnone.symm.trans hx
    exact .last hv (Nat.le_antisymm hlt hle)
  · rename_i x hx
    split at h
    · cases h
    · rename_i hne
      cases h
      refine .apart hv hw fun heq => hne ?_
      have hxw := ho.varAt?_levelOf hw
      rw [show s.order.levelOf w = (s.order.levelOf v).next from heq, hx] at hxw
      exact Option.some.inj hxw

/-- The exchange of neighbours. The variables change places, or something hinders them and nothing
has changed. -/
theorem Valid.swap_or_hinders (h : s.Valid held) (v w : Var) :
    Gives (swap v w s) fun p =>
      (p.1 = .ok () ∧ p.2.Valid held ∧ s.Tidy p.2 ∧ s.order.Adjacent (s.order.levelOf v) v w ∧
        p.2.order = s.order.exchange (s.order.levelOf v) v w) ∨
      ∃ e, p = (.error e, s) ∧ s.Hinders v w e := by
  cases hplace : s.misplaced? v w with
  | some e =>
    unfold Store.swap
    rw [Action.store_bind, hplace]
    exact Action.gives_reject (Or.inr ⟨e, rfl, misplaced?_hinders hplace h.lawful⟩)
  | none =>
    obtain ⟨plan, hplan, conflict, hconflict, -⟩ := h.begins hplace
    cases conflict with
    | some e =>
      have ho := misplaced?_eq_none hplace h.lawful
      obtain ⟨-, hrotates⟩ :=
        (h.rotations_gives (h.lawful.knows_of_varAt? ho.upper) w).of_eq hplan
      obtain ⟨r, hr, rfl⟩ := s.conflict?_names v w plan [] _ hconflict e rfl
      unfold Store.swap
      rw [Action.store_bind, hplace]
      apply Action.gives_ask_of_eq hplan
      apply Action.gives_ask_of_eq hconflict
      exact Action.gives_reject (Or.inr ⟨_, rfl, .taken ho ((hrotates r).mp hr).branch?⟩)
    | none =>
      exact gives_mono (h.swap_of_free hplace hplan hconflict)
        fun p ⟨hok, hvalid, hspares, horder, hturns⟩ => Or.inl ⟨hok, hvalid,
          ⟨hturns.toMoves, hspares⟩, misplaced?_eq_none hplace h.lawful, horder⟩

/-- The variables change places, or the call is rejected and nothing has changed. -/
theorem Valid.swap (h : s.Valid held) (v w : Var) :
    Gives (swap v w s) fun p =>
      (p.1 = .ok () ∧ p.2.Valid held ∧ s.Tidy p.2 ∧ s.order.Adjacent (s.order.levelOf v) v w ∧
        p.2.order = s.order.exchange (s.order.levelOf v) v w) ∨
      ∃ e, p = (.error e, s) :=
  gives_mono (h.swap_or_hinders v w) fun _ hp => hp.imp_right fun ⟨e, hp, _⟩ => ⟨e, hp⟩

end Store

end DecisionGraph
