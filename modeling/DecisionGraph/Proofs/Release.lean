import DecisionGraph.Proofs.Sweep

/-!
# Giving up one node is exact

When the last reference to a node is given up, or a node without references is collected, the
cascade takes what only that node needed: the inner nodes below it that lie below no other node that
stands by itself, because it is held or because nothing refers to it. What such a node needs stays,
since the node itself lies outside of the part that the cascade can reach. And what no such node
needs goes, since a node that is left lies below a node of the smaller diagram that is held or that
nothing refers to, and the cascade leaves no new node of that kind behind.

* `Standing`, `Dependent` — what stands by itself, and what only one node needs.
* `Frees`, `Valid.collectFrom_frees` — a cascade takes just what depends on its first node.
-/

namespace DecisionGraph

namespace Store

variable {s t : Store} {held : Holding} {b : Branch} {k : Nat} {m n r : NodeId}

/-- `r` is alive and needs no other node above it: it is held, or nothing refers to it. -/
def Standing (s : Store) (held : Holding) (r : NodeId) : Prop :=
  s.alive r ∧ (0 < held r ∨ s.refCount r = 0)

/-- `m` is an inner node below `n`, and below no other node that stands by itself. -/
structure Dependent (s : Store) (held : Holding) (n m : NodeId) : Prop where
  inner : ∃ b, s.diagram.branch? m = some b
  below : s.diagram.Below n m
  alone : ∀ r, r ≠ n → s.Standing held r → ¬ s.diagram.Below r m

/-- From `s` to `t`, `k` nodes are gone: those that depended on `n`, each with its entry in the
unique table. The other nodes are what they were. -/
structure Frees (s : Store) (held : Holding) (n : NodeId) (k : Nat) (t : Store) : Prop where
  gone_iff : ∀ m, m ∈ s.diagram.gone t.diagram ↔ s.Dependent held n m
  count : k = (s.diagram.gone t.diagram).length
  live : k + t.liveCount = s.liveCount
  branch?_iff : ∀ m b, t.diagram.branch? m = some b ↔
    s.diagram.branch? m = some b ∧ ¬ s.Dependent held n m
  entry : ∀ m b, s.diagram.branch? m = some b → s.Dependent held n m →
    t.unique.entered? b.var b.toChildren = none

/-! ## The cascade -/

/-- A node without references lies below itself alone. -/
theorem Sound.eq_of_below {out : NodeId → Prop} (h : s.Sound out held) (hn : s.refCount n = 0)
    (hm : s.diagram.Below m n) : m = n := by
  cases hm with
  | refl => rfl
  | step _ edge => exact absurd hn (Nat.ne_of_gt (h.refCount_pos_of_child edge))

/-- What stands by itself, other than `n`, lies outside of the part below `n` or is held. So it
stays when that part alone loses nodes. -/
theorem Shed.alive_of_standing (h : s.Shed (s.diagram.Below n) t) (hs : s.Valid held)
    (ht : t.Sound NoneOut held) (hne : r ≠ n) (hr : s.Standing held r) : t.diagram.alive r := by
  obtain ⟨ha, hheld | hzero⟩ := hr
  · exact ht.alive_of_held hheld
  · have hout : ¬ s.diagram.Below n r := fun hbelow => hne (hs.sound.eq_of_below hzero hbelow).symm
    rw [Diagram.alive_iff, h.outside r hout]
    exact Diagram.alive_iff.mp ha

/-- Where a part below `n` has lost nodes, and `n` with it, a node is left if it did not depend on
`n`. -/
theorem Shed.alive_iff_not_dependent (h : s.Shed (s.diagram.Below n) t) (hs : s.Valid held)
    (ht : t.Valid held) (hn : held n = 0) (hloose : ∀ m, t.Loose m → s.Loose m ∧ m ≠ n)
    (hb : s.diagram.branch? m = some b) : t.diagram.alive m ↔ ¬ s.Dependent held n m := by
  have hsubset := h.shrinks.subset
  constructor
  · intro ha hdependent
    obtain ⟨r, hr, hbelow⟩ := ht.exists_standing ((hsubset.branch?_eq ha).trans hb)
    have hstanding : r ≠ n ∧ s.Standing held r := by
      rcases hr with hheld | hzero
      · refine ⟨?_, hs.sound.alive_of_held hheld, Or.inl hheld⟩
        rintro rfl
        exact Nat.ne_of_gt hheld hn
      · obtain ⟨hzero, hne⟩ := hloose r hzero
        exact ⟨hne, hzero.alive, Or.inr hzero.2⟩
    exact hdependent.alone r hstanding.1 hstanding.2 (hbelow.extends hsubset)
  · intro hnot
    by_cases hbelow : s.diagram.Below n m
    · obtain ⟨r, hne, hr, hrm⟩ : ∃ r, r ≠ n ∧ s.Standing held r ∧ s.diagram.Below r m :=
        Classical.byContradiction fun hno => hnot ⟨⟨b, hb⟩, hbelow, fun r hne hr hrm =>
          hno ⟨r, hne, hr, hrm⟩⟩
      exact (hrm.shrink hsubset ht.closed (h.alive_of_standing hs ht.sound hne hr)).2
    · exact Diagram.alive_of_branch? ((h.outside m hbelow).trans hb)

/-- The part below a node is closed. -/
theorem closedPart_below (s : Store) (n : NodeId) : s.ClosedPart (s.diagram.Below n) :=
  fun _ _ hm hb => ⟨.step hm (.low hb), .step hm (.high hb)⟩

/-- A cascade takes what depends on its first node. -/
theorem Valid.collectFrom_frees (h : s.Valid held) (hb : s.diagram.branch? n = some b)
    (hn : s.refCount n = 0) :
    Gives (s.collectFrom n) fun p => p.2.Valid held ∧ s.Frees held n p.1 p.2 := by
  have hcounted := h.sound.counted n
  refine gives_mono (h.sound.collectFrom_gives (s.closedPart_below n) (fun _ _ h => h) .refl hn
    (Diagram.issued_of_alive (Diagram.alive_of_branch? hb)))
    fun ⟨k, t⟩ ⟨hsound, hshed, hlive, hloose⟩ => ?_
  have ht := h.shed hsound hshed
  have halive : ∀ m b, s.diagram.branch? m = some b →
      (t.diagram.alive m ↔ ¬ s.Dependent held n m) := fun m b hb =>
    hshed.alive_iff_not_dependent h ht (by omega) hloose hb
  have hsubset := hshed.shrinks.subset
  have hlength : (s.diagram.gone t.diagram).length + t.diagram.inners.length =
      s.diagram.inners.length := hshed.shrinks.length_gone
  have hs := h.sound.live_eq
  have ht' := hsound.live_eq
  dsimp only at hlive ht'
  refine ⟨ht, fun m => ?_, ?_, ?_, fun m b => ?_, fun m b hb hm => ?_⟩
  · rw [Diagram.mem_gone_iff]
    constructor
    · rintro ⟨⟨b, hb⟩, hdead⟩
      exact Classical.not_not.mp fun hno => hdead ((halive m b hb).mpr hno)
    · intro hm
      obtain ⟨b, hb⟩ := hm.inner
      exact ⟨⟨b, hb⟩, fun ha => (halive m b hb).mp ha hm⟩
  · show k = (s.diagram.gone t.diagram).length
    omega
  · simp only [liveCount]
    omega
  · constructor
    · intro hb
      exact ⟨hsubset m b hb, (halive m b (hsubset m b hb)).mp (Diagram.alive_of_branch? hb)⟩
    · rintro ⟨hb, hm⟩
      exact (hsubset.branch?_eq ((halive m b hb).mpr hm)).trans hb
  · refine Option.eq_none_iff_forall_ne_some.mpr fun m' hm' => ?_
    have hb' := ((hsound.entered b.var b.toChildren m').mp hm').1
    obtain rfl := h.distinct m' m b (hsubset m' b hb') hb
    exact (halive m' b hb).mp (Diagram.alive_of_branch? hb') hm

/-! ## The calls -/

theorem standing_recount (hlt : n.toNat < s.counts.size) (f : Nat → Nat) (hne : r ≠ n) :
    (s.recount n f).Standing (held.drop n) r ↔ s.Standing held r := by
  simp only [Standing, refCount_recount s n f hlt, Holding.drop, if_neg hne]
  rfl

/-- Another count for `n`, and one hold on it less, change nothing in what depends on it. -/
theorem dependent_recount (hlt : n.toNat < s.counts.size) (f : Nat → Nat) :
    (s.recount n f).Dependent (held.drop n) n m ↔ s.Dependent held n m :=
  ⟨fun h => ⟨h.inner, h.below, fun r hne hr => h.alone r hne ((standing_recount hlt f hne).mpr hr)⟩,
    fun h => ⟨h.inner, h.below, fun r hne hr => h.alone r hne ((standing_recount hlt f hne).mp hr)⟩⟩

theorem frees_recount (hlt : n.toNat < s.counts.size) (f : Nat → Nat)
    (h : (s.recount n f).Frees (held.drop n) n k t) : s.Frees held n k t where
  gone_iff m := (h.gone_iff m).trans (dependent_recount hlt f)
  count := h.count
  live := h.live
  branch?_iff m b := (h.branch?_iff m b).trans
    (and_congr_right fun _ => not_congr (dependent_recount hlt f))
  entry m b hb hm := h.entry m b hb ((dependent_recount hlt f).mpr hm)

/-- The last reference to a node is given up, or there was none. -/
theorem Valid.release_frees (h : s.Valid held) (hb : s.diagram.branch? n = some b)
    (hn : 0 < held n ∨ s.refCount n = 0) (hcount : s.refCount n ≤ 1) :
    Gives (s.release n) fun p => s.Frees held n p.1 p.2 := by
  have ha := Diagram.alive_of_branch? hb
  have hlt := h.sound.toNat_lt ha
  have hzero : (s.recount n (· - 1)).refCount n = 0 := by
    rw [refCount_recount s n _ hlt, if_pos rfl]
    omega
  rw [h.sound.release_last ha (by rw [Diagram.isTerminal_of_branch? hb, Bool.not_false]) hcount]
  exact gives_mono ((h.dropRef ha hn).collectFrom_frees hb hzero) fun _ hp =>
    frees_recount hlt _ hp.2

theorem Valid.delete_frees (h : s.Valid held) (hb : s.diagram.branch? n = some b)
    (hn : s.refCount n = 0) : Gives (s.delete n) fun p => s.Frees held n p.1 p.2 := by
  have ha : s.alive n := Diagram.alive_of_branch? hb
  rw [Store.delete, if_neg (by simp [Diagram.isTerminal_of_branch? hb, ha, hn])]
  exact gives_mono (h.collectFrom_frees hb hn) fun _ hp => hp.2

end Store

namespace Client

variable {c : Client} {n : NodeId}

/-- Giving up a node is exact, in every reachable state. If an inner node has no reference, or one
that the client holds and gives back, the nodes that go are those that depend on it. They are told
in number, and nothing else happens to the nodes that stay. In all other cases no node goes, and at
most the count of the node itself is another. -/
theorem release_exact (hc : Reachable c) (n : NodeId) :
    (∀ b, c.store.diagram.branch? n = some b → c.Permits (.release n) → c.store.refCount n ≤ 1 →
      ∃ k t, c.store.release n = .ok (k, t) ∧ c.store.Frees c.held n k t) ∧
    (∀ b, c.store.diagram.branch? n = some b → c.store.refCount n = 0 →
      ∃ k t, c.store.delete n = .ok (k, t) ∧ c.store.Frees c.held n k t) ∧
    (c.Permits (.release n) → n.isTerminal ∨ 2 ≤ c.store.refCount n →
      c.store.release n = .ok (0, c.store.recount n (· - 1))) ∧
    (n.isTerminal ∨ ¬ c.store.alive n ∨ c.store.refCount n ≠ 0 →
      c.store.delete n = .ok (0, c.store)) := by
  have hvalid := hc.valid
  refine ⟨fun b hb permitted hcount => ?_, fun b hb hn => ?_, fun permitted hn => ?_, fun hn => ?_⟩
  · obtain ⟨⟨k, t⟩, hrun, hfrees⟩ := hvalid.release_frees hb permitted.2 hcount
    exact ⟨k, t, hrun, hfrees⟩
  · obtain ⟨⟨k, t⟩, hrun, hfrees⟩ := hvalid.delete_frees hb hn
    exact ⟨k, t, hrun, hfrees⟩
  · exact hvalid.sound.release_among (permitted.1 n List.mem_cons_self) hn
  · exact if_pos (by simpa using hn)

/-- An idle test is given back, and the node that it leads to twice goes with it. The node below
both is needed by another test. -/
theorem release_exact_idle : ∃ c : Client,
    (start 3 ⟨1, ⟨0⟩⟩).after [.create ⟨2⟩ .zero .one, .createHeld ⟨1⟩ .zero (.inner 0),
      .create ⟨1⟩ (.inner 0) .one, .createHeld ⟨0⟩ (.inner 2) (.inner 2)] = some c ∧
    c.store.refCount (.inner 2) = 2 ∧ c.held (.inner 3) = 1 ∧
    ∃ t, c.store.release (.inner 3) = .ok (2, t) ∧ c.store.Frees c.held (.inner 3) 2 t ∧
      t.alive (.inner 0) := by
  let calls : List Call := [.create ⟨2⟩ .zero .one, .createHeld ⟨1⟩ .zero (.inner 0),
    .create ⟨1⟩ (.inner 0) .one, .createHeld ⟨0⟩ (.inner 2) (.inner 2)]
  have hends : ((start 3 ⟨1, ⟨0⟩⟩).after calls).map
      (fun c => (c.store.diagram.branch? (.inner 3), c.held (.inner 3),
        c.store.refCount (.inner 2), c.store.refCount (.inner 3))) =
        some (some ⟨⟨.inner 2, .inner 2⟩, ⟨0⟩⟩, 1, 2, 1) := by
    decide +kernel
  have hleft : ((start 3 ⟨1, ⟨0⟩⟩).after calls).map
      (fun c => (c.store.release (.inner 3)).toOption.map fun p => (p.1, p.2.alive (.inner 0))) =
        some (some (2, true)) := by
    decide +kernel
  obtain ⟨c, hc, hfound⟩ := Option.map_eq_some_iff.mp hends
  rw [hc, Option.map_some, Option.some.injEq] at hleft
  simp only [Prod.mk.injEq] at hfound
  obtain ⟨hb, hheld, hshared, hcount⟩ := hfound
  have permitted : c.Permits (.release (.inner 3)) :=
    ⟨fun m hm => List.mem_singleton.mp hm ▸ Diagram.alive_of_branch? hb,
      Or.inl (hheld ▸ Nat.one_pos)⟩
  obtain ⟨k, t, hrun, hfrees⟩ :=
    (release_exact (reachable_of_after hc) (.inner 3)).1 _ hb permitted (Nat.le_of_eq hcount)
  rw [hrun, Except.toOption, Option.map_some, Option.some.injEq, Prod.mk.injEq] at hleft
  obtain ⟨rfl, halive⟩ := hleft
  exact ⟨c, hc, hshared, hheld, t, hrun, hfrees, halive⟩

end Client

end DecisionGraph
