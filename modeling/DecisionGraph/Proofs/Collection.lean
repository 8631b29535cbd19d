import DecisionGraph.Collection
import DecisionGraph.Proofs.Accounts

/-!
# Collection keeps the accounts

Collecting a node without references turns the edges to its children into holds, which are given up
one after the other. So each round of the cascade starts from right accounts and ends with right
accounts, and what waits has no reference and hence no parent.

A cascade stays within every part of the diagram that is closed under children (`inside`). The rest,
which may be missing from the unique table, is not touched (`Shed.outside`). And it leaves no node
behind that has lost its last reference in it (`Spares`).

* `Sound.detach`, `Collected` — one node.
* `collectWithin_gives` — the cascade ends within its bound.
* `Sound.release_gives`, `Sound.delete_gives` — the calls for one node.
* `Swept`, `Sound.collectGarbage_gives` — the sweep.
-/

namespace DecisionGraph

namespace Store

variable {s t u : Store} {out inside : NodeId → Prop} {held : Holding} {b : Branch} {n : NodeId}

/-- From `s` to `t`, nodes inside of a part of the diagram are gone, and nothing else happened. A
subtable is not touched if no node of its variable is gone. -/
structure Shed (s : Store) (inside : NodeId → Prop) (t : Store) : Prop where
  shrinks : s.diagram.Shrinks t.diagram
  outside : ∀ n, ¬ inside n → t.diagram.branch? n = s.diagram.branch? n
  refCount_le : ∀ n, t.refCount n ≤ s.refCount n
  subtables : ∀ x, (∀ n b, s.diagram.branch? n = some b → t.diagram.branch? n = none → b.var ≠ x) →
    t.unique.subtable x = s.unique.subtable x
  order : t.order = s.order
  computed : t.computed = s.computed
  config : t.config = s.config

theorem Shed.refl (s : Store) (inside : NodeId → Prop) : s.Shed inside s :=
  ⟨.refl _, fun _ _ => rfl, fun _ => Nat.le_refl _, fun _ _ => rfl, rfl, rfl, rfl⟩

theorem Shed.trans (h : s.Shed inside t) (h' : t.Shed inside u) : s.Shed inside u where
  shrinks := h.shrinks.trans h'.shrinks
  outside n hn := (h'.outside n hn).trans (h.outside n hn)
  refCount_le n := Nat.le_trans (h'.refCount_le n) (h.refCount_le n)
  subtables x hx := by
    have hgone := fun n => (h'.shrinks.subset.branch?_eq_none (n := n))
    rw [h'.subtables x fun n b hb hn => hx n b (h.shrinks.subset n b hb) hn,
      h.subtables x fun n b hb hn => hx n b hb (hgone n hn)]
  order := h'.order.trans h.order
  computed := h'.computed.trans h.computed
  config := h'.config.trans h.config

/-- `n` is a live inner node to which nothing refers. -/
def Loose (s : Store) (n : NodeId) : Prop := (∃ b, s.diagram.branch? n = some b) ∧ s.refCount n = 0

theorem Loose.alive (h : s.Loose n) : s.diagram.alive n := by
  obtain ⟨⟨b, hb⟩, -⟩ := h
  exact Diagram.alive_of_branch? hb

/-- The nodes of `t` to which nothing refers are such nodes of `s`. -/
def Spares (s t : Store) : Prop := ∀ n, t.Loose n → s.Loose n

theorem Spares.refl (s : Store) : s.Spares s := fun _ h => h

theorem Spares.trans (h : s.Spares t) (h' : t.Spares u) : s.Spares u := fun n hn => h n (h' n hn)

/-- A part of the diagram that edges do not leave. -/
def ClosedPart (s : Store) (inside : NodeId → Prop) : Prop :=
  ∀ n b, inside n → s.diagram.branch? n = some b → inside b.low ∧ inside b.high

theorem ClosedPart.shrink (h : s.ClosedPart inside) (hs : t.diagram.Extends s.diagram) :
    t.ClosedPart inside := fun n b hn hb => h n b hn (hs n b hb)

/-! ## One node -/

/-- A node without references leaves its slot, and its children are held in place of its edges. -/
theorem Sound.detach (h : s.Sound out held) (hb : s.diagram.branch? n = some b)
    (hn : s.refCount n = 0) (hout : ¬ out n) :
    Gives (s.detach n b) fun t =>
      t.Sound out ((held.take b.low).take b.high) ∧ t.diagram = s.diagram.clear n ∧
        t.live + 1 = s.live ∧ t.counts = s.counts ∧
        (∀ x, x ≠ b.var → t.unique.subtable x = s.unique.subtable x) ∧ t.order = s.order ∧
        t.computed = s.computed ∧ t.config = s.config := by
  obtain ⟨unique, hrun, hlawful, hentered⟩ := h.table.erase_entered (h.var_lt hb)
    ((h.entered b.var b.toChildren n).mpr ⟨hb, hout⟩)
  have hlength := Diagram.length_inners_clear hb
  have hlive := h.live_eq
  unfold Store.detach
  apply gives_bind_of_eq hrun
  dsimp only
  rw [if_neg (fun hne => hne rfl)]
  have hdecrease : decrease s.live 1 = .ok (s.live - 1) := by
    rw [decrease, if_pos (by omega)]
  apply gives_bind_of_eq hdecrease
  refine gives_pure ⟨?_, rfl, ?_, rfl, fun _ => UniqueTable.subtable_of_erase hrun, rfl, rfl, rfl⟩
  · refine ⟨?_, fun m => ?_, fun m hm => ?_, ?_, ?_, hlawful, fun w k m => ?_, fun m hm => ?_⟩
    · show s.counts.size = (s.diagram.clear n).fresh.toNat
      rw [(Diagram.shrinks_clear s.diagram n).fresh_eq, h.size_counts]
    · have hedges := Diagram.edgesInto_clear hb m
      have hcounted := h.counted m
      rw [Holding.take_take_children]
      show s.refCount m = (s.diagram.clear n).edgesInto m + (held m + b.edgesTo m)
      omega
    · show s.refCount m = 0
      by_cases hmn : m = n
      · rw [hmn, hn]
      · apply h.uncounted m
        rw [← Diagram.alive_clear_of_ne s.diagram hmn]
        exact hm
    · show s.live - 1 = (s.diagram.clear n).inners.length
      omega
    · intro m b' hb'
      exact h.knows m b' (Diagram.clear_extends _ _ _ _ hb')
    · show unique.entered? w k = some m ↔ (s.diagram.clear n).branch? m = some ⟨k, w⟩ ∧ ¬ out m
      rw [hentered, h.entered_erase hb hout, Diagram.branch?_clear]
      by_cases hmn : m = n
      · simp [hmn]
      · simp [hmn]
    · show (s.diagram.clear n).alive m = true
      rw [Diagram.alive_clear_of_ne s.diagram (by rintro rfl; exact hout hm)]
      exact h.out_alive m hm
  · show s.live - 1 + 1 = s.live
    omega

/-! ## The cascade -/

theorem mem_enqueue_iff {m : NodeId} {count : Nat} {waiting : List NodeId} :
    m ∈ enqueue n count waiting ↔ m = n ∧ count = 0 ∧ !n.isTerminal ∨ m ∈ waiting := by
  unfold enqueue
  split
  · rename_i hcount
    rw [List.mem_cons, and_iff_left hcount]
  · rename_i hcount
    exact ⟨Or.inr, fun h => h.resolve_left fun hm => hcount hm.2⟩

theorem length_enqueue_le (n : NodeId) (count : Nat) (waiting : List NodeId) :
    (enqueue n count waiting).length ≤ waiting.length + 1 := by
  unfold enqueue
  split <;> simp

/-- One round of the cascade: `n` is gone, and its children have lost a reference each. The counts
that came with that are those the children are left with, but the first of two for one child. -/
structure Collected (s : Store) (n : NodeId) (b : Branch) (lowCount highCount : Nat) (t : Store) :
    Prop where
  live : t.live + 1 = s.live
  gone : t.diagram.branch? n = none
  counts : ∀ m, s.refCount m = t.refCount m + b.edgesTo m
  low_le : t.refCount b.low ≤ lowCount
  low_eq : b.low ≠ b.high → t.refCount b.low = lowCount
  high_eq : t.refCount b.high = highCount

theorem Sound.collectOne (h : s.Sound out held) (hb : s.diagram.branch? n = some b)
    (hn : s.refCount n = 0) (hin : inside n) (hout : ¬ out n) :
    ∃ s₁ s₂ t lowCount highCount, s.detach n b = .ok s₁ ∧ s₁.dropRef b.low = .ok (lowCount, s₂) ∧
      s₂.dropRef b.high = .ok (highCount, t) ∧ t.Sound out held ∧ s.Shed inside t ∧
      Collected s n b lowCount highCount t := by
  obtain ⟨t, hrun, ht, hd, hlive, hcounts, hsub, horder, hcomp, hconf⟩ := h.detach hb hn hout
  have hlow : t.diagram.alive b.low := ht.alive_of_held
    (Nat.lt_of_lt_of_le (Holding.take_pos held b.low) (Holding.le_take _ _ _))
  have hhigh : t.diagram.alive b.high := ht.alive_of_held (Holding.take_pos _ b.high)
  rw [Holding.take_comm] at ht
  have ht' := ht.dropRef hlow (Or.inl (Holding.take_pos _ _))
  rw [Holding.drop_take] at ht'
  have ht'' := ht'.dropRef (n := b.high) hhigh (Or.inl (Holding.take_pos _ _))
  rw [Holding.drop_take] at ht''
  have hle' := refCount_dropRef_le (n := b.high) ht' hhigh
  have hle := refCount_dropRef_le ht hlow
  have hgone : t.diagram.branch? n = none := by rw [hd, Diagram.branch?_clear, if_pos rfl]
  refine ⟨t, _, _, _, _, hrun, dropRef_eq t b.low hlow, dropRef_eq _ b.high hhigh, ht'',
    ⟨?_, fun m hm => ?_, fun m => ?_, fun x hx => hsub x (Ne.symm (hx n b hb ?_)), horder, hcomp,
      hconf⟩,
    ⟨hlive, ?_, fun m => ?_, hle' b.low, fun hne => ?_, rfl⟩⟩
  · show s.diagram.Shrinks t.diagram
    rw [hd]
    exact Diagram.shrinks_clear _ _
  · show t.diagram.branch? m = s.diagram.branch? m
    rw [hd, Diagram.branch?_clear, if_neg]
    rintro rfl
    exact hm hin
  · have hcount : t.refCount m = s.refCount m := by simp only [refCount, hcounts]
    exact hcount ▸ Nat.le_trans (hle' m) (hle m)
  · exact hgone
  · exact hgone
  · have hedges : s.diagram.edgesInto m = t.diagram.edgesInto m + b.edgesTo m := by
      rw [hd]
      exact (Diagram.edgesInto_clear hb m).symm
    rw [h.counted, ht''.counted, hedges]
    show _ = t.diagram.edgesInto m + held m + b.edgesTo m
    omega
  · rw [refCount_recount _ _ _ (ht'.toNat_lt hhigh), if_neg hne]

section Collected

variable {lowCount highCount : Nat} {m : NodeId} {waiting : List NodeId}
  (h : Collected s n b lowCount highCount t)

include h

/-- What waits then has waited before, or it is a child that has lost its last reference. -/
theorem Collected.of_mem_enqueue
    (hm : m ∈ enqueue b.high highCount (enqueue b.low lowCount waiting)) :
    (m = b.low ∨ m = b.high) ∧ t.refCount m = 0 ∨ m ∈ waiting := by
  rcases mem_enqueue_iff.mp hm with ⟨rfl, hzero, -⟩ | hm
  · exact Or.inl ⟨Or.inr rfl, h.high_eq.trans hzero⟩
  · rcases mem_enqueue_iff.mp hm with ⟨rfl, hzero, -⟩ | hm
    · exact Or.inl ⟨Or.inl rfl, Nat.eq_zero_of_le_zero (hzero ▸ h.low_le)⟩
    · exact Or.inr hm

/-- A child that has lost its last reference waits. -/
theorem Collected.mem_enqueue (hm : t.Loose m) (hchild : b.low = m ∨ b.high = m) :
    m ∈ enqueue b.high highCount (enqueue b.low lowCount waiting) := by
  obtain ⟨⟨b', hb'⟩, hzero⟩ := hm
  have hinner : !m.isTerminal := by rw [Diagram.isTerminal_of_branch? hb', Bool.not_false]
  rw [mem_enqueue_iff, mem_enqueue_iff]
  by_cases hhigh : b.high = m
  · subst hhigh
    exact Or.inl ⟨rfl, h.high_eq ▸ hzero, hinner⟩
  · obtain rfl := hchild.resolve_right hhigh
    exact Or.inr (Or.inl ⟨rfl, h.low_eq (Ne.symm hhigh) ▸ hzero, hinner⟩)

/-- What is left without references waits, or it had none before and is not the node that is
gone. -/
theorem Collected.loose (hshed : s.Shed inside t) (hm : t.Loose m)
    (hnot : m ∉ enqueue b.high highCount (enqueue b.low lowCount waiting)) :
    s.Loose m ∧ m ∉ n :: waiting := by
  have hedges : b.edgesTo m = 0 := Nat.eq_zero_of_not_pos fun hpos =>
    hnot (h.mem_enqueue hm (Branch.edgesTo_pos_iff.mp hpos))
  have hwaiting : m ∉ waiting := by
    rw [mem_enqueue_iff, mem_enqueue_iff, not_or, not_or] at hnot
    exact hnot.2.2
  obtain ⟨⟨b', hb'⟩, hzero⟩ := hm
  have hcount := h.counts m
  refine ⟨⟨⟨b', hshed.shrinks.subset m b' hb'⟩, by omega⟩,
    List.not_mem_cons_of_ne_of_not_mem ?_ hwaiting⟩
  rintro rfl
  rw [h.gone] at hb'
  cases hb'

end Collected

/-- The cascade ends, and takes only nodes without references: each round takes up one node that
waits, and makes at most two more wait if it collects one. What it leaves without references had
none before, and did not wait. -/
theorem collectWithin_gives {k : Nat} (collected : Nat) {waiting : List NodeId}
    (h : s.Sound out held)
    (hpart : s.ClosedPart inside) (hout : ∀ n, inside n → ¬ out n)
    (hwaiting : ∀ n ∈ waiting, inside n ∧ s.refCount n = 0 ∧ s.diagram.issued n)
    (hk : waiting.length + 2 * s.live ≤ k) :
    Gives (collectWithin k waiting collected s) fun p =>
      p.2.Sound out held ∧ s.Shed inside p.2 ∧ p.1 + p.2.live = collected + s.live ∧
        ∀ n, p.2.Loose n → s.Loose n ∧ n ∉ waiting := by
  induction k generalizing collected waiting s with
  | zero =>
    cases waiting with
    | nil => exact gives_ok ⟨h, .refl _ _, rfl, fun n hn => ⟨hn, List.not_mem_nil⟩⟩
    | cons n waiting =>
      rw [List.length_cons] at hk
      omega
  | succ k ih =>
    cases waiting with
    | nil => exact gives_ok ⟨h, .refl _ _, rfl, fun n hn => ⟨hn, List.not_mem_nil⟩⟩
    | cons n waiting =>
      obtain ⟨hin, hn, hissued⟩ := hwaiting n List.mem_cons_self
      rw [List.length_cons] at hk
      rw [collectWithin]
      cases hb : s.diagram.branch? n with
      | none =>
        dsimp only
        rw [if_pos hissued]
        refine gives_mono (ih collected h hpart
          (fun m hm => hwaiting m (List.mem_cons_of_mem _ hm)) (by omega))
          fun p ⟨hp, hshed, hcount, hloose⟩ => ⟨hp, hshed, hcount, fun m hm => ?_⟩
        obtain ⟨hm, hrest⟩ := hloose m hm
        refine ⟨hm, List.not_mem_cons_of_ne_of_not_mem ?_ hrest⟩
        rintro rfl
        exact absurd hm.1 (by simp [hb])
      | some b =>
        obtain ⟨s₁, s₂, t, lowCount, highCount, hdetach, hdrop, hdrop', ht, hshed, hcollected⟩ :=
          h.collectOne hb hn hin (hout n hin)
        obtain ⟨hinlow, hinhigh⟩ := hpart n b hin hb
        have hrest : ∀ m ∈ enqueue b.high highCount (enqueue b.low lowCount waiting),
            inside m ∧ t.refCount m = 0 ∧ t.diagram.issued m := by
          obtain ⟨hlow, hhigh⟩ := h.closed n b hb
          intro m hm
          rw [hshed.shrinks.issued_eq]
          rcases hcollected.of_mem_enqueue hm with ⟨rfl | rfl, hzero⟩ | hm
          · exact ⟨hinlow, hzero, Diagram.issued_of_alive hlow⟩
          · exact ⟨hinhigh, hzero, Diagram.issued_of_alive hhigh⟩
          · obtain ⟨hinm, hzero, hissued'⟩ := hwaiting m (List.mem_cons_of_mem _ hm)
            exact ⟨hinm, Nat.eq_zero_of_le_zero (hzero ▸ hshed.refCount_le m), hissued'⟩
        have hlength := length_enqueue_le b.high highCount (enqueue b.low lowCount waiting)
        have hlength' := length_enqueue_le b.low lowCount waiting
        have hlive := hcollected.live
        obtain ⟨⟨count, u⟩, hrun, hu, hshed', hcount, hloose⟩ := ih (collected + 1) ht
          (hpart.shrink hshed.shrinks.subset) hrest (by omega)
        refine ⟨(count, u), ?_, hu, hshed.trans hshed', ?_, fun m hm => ?_⟩
        · simp only [hdetach, hdrop, hdrop', bind, Except.bind]
          exact hrun
        · simp only at hcount ⊢
          omega
        · obtain ⟨hm, hnot⟩ := hloose m hm
          exact hcollected.loose hshed hm hnot

/-! ## The calls -/

theorem Sound.collectFrom_gives (h : s.Sound out held) (hpart : s.ClosedPart inside)
    (hout : ∀ n, inside n → ¬ out n) (hin : inside n) (hn : s.refCount n = 0)
    (hissued : s.diagram.issued n) :
    Gives (s.collectFrom n) fun p =>
      p.2.Sound out held ∧ s.Shed inside p.2 ∧ p.1 + p.2.live = s.live ∧
        ∀ m, p.2.Loose m → s.Loose m ∧ m ≠ n := by
  have hlive := h.live_eq
  have hle := s.diagram.length_inners_le
  refine gives_mono (collectWithin_gives 0 h hpart hout (fun m hm => ?_) ?_) fun p hp => ?_
  · rw [List.mem_singleton.mp hm]
    exact ⟨hin, hn, hissued⟩
  · simp only [List.length_singleton, Diagram.depth]
    omega
  · simpa using hp

/-- The last reference to an inner node is given up. -/
theorem Sound.release_last (h : s.Sound out held) (ha : s.diagram.alive n)
    (hn : !n.isTerminal) (hcount : s.refCount n ≤ 1) :
    s.release n = (s.recount n (· - 1)).collectFrom n := by
  have hzero : (s.recount n (· - 1)).refCount n = 0 := by
    rw [refCount_recount s n _ (h.toNat_lt ha), if_pos rfl]
    omega
  simp only [Store.release, dropRef_eq s n ha, bind, Except.bind]
  rw [if_pos ⟨hzero, hn⟩]

/-- A reference is given up that is one of several, or leads to a terminal. -/
theorem Sound.release_among (h : s.Sound out held) (ha : s.diagram.alive n)
    (hn : n.isTerminal ∨ 2 ≤ s.refCount n) : s.release n = .ok (0, s.recount n (· - 1)) := by
  have hstays : ¬ ((s.recount n (· - 1)).refCount n = 0 ∧ !n.isTerminal) := by
    rw [refCount_recount s n _ (h.toNat_lt ha), if_pos rfl]
    rintro ⟨hzero, hinner⟩
    rcases hn with hterminal | hcount
    · simp [hterminal] at hinner
    · omega
  simp only [Store.release, dropRef_eq s n ha, bind, Except.bind]
  rw [if_neg hstays]
  rfl

/-- A reference is given up, and what has none left goes. -/
theorem Sound.release_gives (h : s.Sound out held) (hpart : s.ClosedPart inside)
    (hout : ∀ n, inside n → ¬ out n) (hin : inside n) (ha : s.diagram.alive n)
    (hn : 0 < held n ∨ s.refCount n = 0) :
    Gives (s.release n) fun p =>
      p.2.Sound out (held.drop n) ∧ s.Shed inside p.2 ∧ s.Spares p.2 := by
  have ht := h.dropRef ha hn
  have hcount := refCount_recount s n (· - 1) (h.toNat_lt ha)
  have hother : ∀ m, (s.recount n (· - 1)).Loose m → m ≠ n → s.Loose m := by
    rintro m ⟨hb, hzero⟩ hne
    rw [hcount, if_neg hne] at hzero
    exact ⟨hb, hzero⟩
  have hshed : s.Shed inside (s.recount n (· - 1)) :=
    ⟨.refl _, fun _ _ => rfl, refCount_dropRef_le h ha, fun _ _ => rfl, rfl, rfl, rfl⟩
  by_cases hlast : !n.isTerminal ∧ s.refCount n ≤ 1
  · rw [h.release_last ha hlast.1 hlast.2]
    have hzero : (s.recount n (· - 1)).refCount n = 0 := by
      rw [hcount, if_pos rfl]
      omega
    exact gives_mono (ht.collectFrom_gives hpart hout hin hzero (Diagram.issued_of_alive ha))
      fun p ⟨hp, hshed', _, hloose⟩ => ⟨hp, hshed.trans hshed', fun m hm =>
        hother m (hloose m hm).1 (hloose m hm).2⟩
  · have hamong : n.isTerminal ∨ 2 ≤ s.refCount n := by
      cases hterminal : n.isTerminal with
      | true => exact Or.inl rfl
      | false =>
        rw [hterminal] at hlast
        exact Or.inr (Nat.lt_of_not_le fun hle => hlast ⟨rfl, hle⟩)
    rw [h.release_among ha hamong]
    refine gives_ok ⟨ht, hshed, fun m hm => hother m hm ?_⟩
    rintro rfl
    obtain ⟨⟨b, hb⟩, hzero⟩ := hm
    rw [hcount, if_pos rfl] at hzero
    rcases hamong with hterminal | hcount'
    · rw [Diagram.isTerminal_of_branch? hb] at hterminal
      cases hterminal
    · omega

theorem closedPart_all (s : Store) : s.ClosedPart fun _ => True := fun _ _ _ _ => ⟨trivial, trivial⟩

/-- The cascade in a store from whose table no node is missing. -/
theorem Sound.collectFrom_gives_all (h : s.Sound NoneOut held) (hn : s.refCount n = 0)
    (hissued : s.diagram.issued n) :
    Gives (s.collectFrom n) fun p =>
      p.2.Sound NoneOut held ∧ s.Shed (fun _ => True) p.2 ∧ p.1 + p.2.live = s.live ∧
        ∀ m, p.2.Loose m → s.Loose m ∧ m ≠ n :=
  h.collectFrom_gives s.closedPart_all (fun _ _ h => h) trivial hn hissued

theorem Sound.delete_gives (h : s.Sound NoneOut held) (n : NodeId) :
    Gives (s.delete n) fun p => p.2.Sound NoneOut held ∧ s.Shed (fun _ => True) p.2 := by
  unfold Store.delete
  split
  · exact gives_ok ⟨h, .refl _ _⟩
  · rename_i hcount
    simp only [not_or, Bool.not_eq_true', Bool.not_eq_false, ne_eq, Decidable.not_not] at hcount
    obtain ⟨-, ha, hzero⟩ := hcount
    exact gives_mono (h.collectFrom_gives_all hzero (Diagram.issued_of_alive ha))
      fun _ hp => ⟨hp.1, hp.2.1⟩

theorem collectAll_gives {ns : List NodeId} (collected : Nat) (h : s.Sound NoneOut held)
    (hns : ∀ n ∈ ns, s.refCount n = 0 ∧ s.diagram.issued n) :
    Gives (collectAll ns collected s) fun p =>
      p.2.Sound NoneOut held ∧ s.Shed (fun _ => True) p.2 ∧
        p.1 + p.2.live = collected + s.live ∧ ∀ n, p.2.Loose n → s.Loose n ∧ n ∉ ns := by
  induction ns generalizing collected s with
  | nil => exact gives_ok ⟨h, .refl _ _, rfl, fun n hn => ⟨hn, List.not_mem_nil⟩⟩
  | cons n ns ih =>
    rw [collectAll]
    obtain ⟨hzero, hissued⟩ := hns n List.mem_cons_self
    refine gives_bind (h.collectFrom_gives_all hzero hissued)
      fun ⟨k, t⟩ ⟨ht, hshed, hcount, hloose⟩ => ?_
    have hrest : ∀ m ∈ ns, t.refCount m = 0 ∧ t.diagram.issued m := by
      intro m hm
      obtain ⟨hzero', hissued'⟩ := hns m (List.mem_cons_of_mem _ hm)
      rw [hshed.shrinks.issued_eq]
      exact ⟨Nat.eq_zero_of_le_zero (hzero' ▸ hshed.refCount_le m), hissued'⟩
    refine gives_mono (ih (collected + k) ht hrest)
      fun p ⟨hp, hshed', hcount', hloose'⟩ => ⟨hp, hshed.trans hshed', ?_, fun m hm => ?_⟩
    · simp only at hcount hcount' ⊢
      omega
    · obtain ⟨hm, hnot⟩ := hloose' m hm
      exact ⟨(hloose m hm).1, List.not_mem_cons_of_ne_of_not_mem (hloose m hm).2 hnot⟩

/-- A sweep has taken `k` nodes, and nothing without references is left. The computed table keeps
what is alive. -/
structure Swept (s : Store) (k : Nat) (t : Store) : Prop where
  shrinks : s.diagram.Shrinks t.diagram
  order : t.order = s.order
  config : t.config = s.config
  live : k + t.live = s.live
  computed : t.computed = (s.computed.purge t.diagram.alive).2
  not_loose : ∀ n, ¬ t.Loose n

theorem mem_idle_iff : (n ∈ s.diagram.inners.filter fun n => s.refCount n = 0) ↔ s.Loose n := by
  rw [List.mem_filter, Diagram.mem_inners_iff, decide_eq_true_eq, Loose]

/-- The unique table has no dead entry to lose. -/
theorem Sound.removeDead_eq (h : s.Sound NoneOut held) :
    ∃ unique, s.unique.removeDead s.diagram.alive = .ok (0, unique) ∧ unique.Lawful s.varCount ∧
      ∀ v k, unique.entered? v k = s.unique.entered? v k :=
  h.table.removeDead_alive fun v k n hk => Diagram.alive_of_branch? ((h.entered v k n).mp hk).1

/-- The sweep takes nodes without references, and then forgets what is dead in both tables. -/
theorem Sound.collectGarbage_gives (h : s.Sound NoneOut held) :
    Gives s.collectGarbage fun p => p.2.Sound NoneOut held ∧ s.Swept p.1 p.2 := by
  unfold Store.collectGarbage
  refine gives_bind (collectAll_gives 0 h fun n hn =>
    ⟨(mem_idle_iff.mp hn).2, Diagram.issued_of_alive (mem_idle_iff.mp hn).alive⟩)
    fun ⟨k, t⟩ ⟨ht, hshed, hcount, hloose⟩ => ?_
  obtain ⟨unique, hrun, hlawful, hentered⟩ := ht.removeDead_eq
  apply gives_bind_of_eq hrun
  refine gives_pure ⟨⟨ht.size_counts, ht.counted, ht.uncounted, ht.live_eq, ht.knows, hlawful,
    fun v k n => ?_, ht.out_alive⟩,
    ⟨hshed.shrinks, hshed.order, hshed.config, ?_, ?_, fun n hn => ?_⟩⟩
  · exact (hentered v k).symm ▸ ht.entered v k n
  · exact hcount.trans (Nat.zero_add _)
  · exact hshed.computed ▸ rfl
  · obtain ⟨hn, hnot⟩ := hloose n hn
    exact hnot (mem_idle_iff.mpr hn)

end Store

end DecisionGraph
