import DecisionGraph.Reduction
import DecisionGraph.Proofs.Invariant

/-!
# Reduction keeps the function

What is found for a node on the way up is what is left of it without idle tests. So it stands for
the node: it has the same function, and no other variables occur in it. The levels are done from the
bottom up, and before each level everything below it has been found. So no child is ever missing,
and every test that is made lies over nodes on lower levels.

* `Diagram.Reduces` — what is left of a node without idle tests.
* `Diagram.Stands` — one node in place of another.
* `Diagram.partLevel_gives`, `shareTests_gives`, `reduceLevels_gives` — one level, and all of them.
* `Valid.reduce` — the canonical node of a root is alive, has its function and no idle test below
  it, and nothing has been made that it does not need.
-/

namespace DecisionGraph

namespace Diagram

/-- `r` has the function of `n`, and nothing occurs in it that does not occur in `n`. -/
structure Stands (d : Diagram) (n r : NodeId) : Prop where
  value : ∀ a x, d.Value a n x → d.Value a r x
  occurs : ∀ v, d.Occurs r v → d.Occurs n v

/-- `r` is what is left of `n` without idle tests: it stands for the test of what is left of the two
children. -/
inductive Reduces (d : Diagram) : NodeId → NodeId → Prop where
  | terminal (value : Bool) : Reduces d (.terminal value) (.terminal value)
  | test {n r : NodeId} {b : Branch} {k : Children} (hb : d.branch? n = some b)
      (low : Reduces d b.low k.low) (high : Reduces d b.high k.high)
      (unfolds : d.Unfolds b.var r k) : Reduces d n r

variable {d d' : Diagram} {o : VarOrder} {b : Branch} {m n r r' low high : NodeId}

theorem Stands.lt_levelIn (h : d.Stands n r) (hl : d.Layered o) {l : Nat} (hsize : l < o.size)
    (hn : l < d.levelIn o n) : l < d.levelIn o r :=
  lt_levelIn_of_occurs hsize fun v hv => Nat.lt_of_lt_of_le hn ((h.occurs v hv).levelIn_le hl)

/-- A test of nodes that stand for the children stands for the parent. -/
theorem Stands.join (hb : d.branch? n = some b) (hlow : d.Stands b.low low)
    (hhigh : d.Stands b.high high) (hr : d.Joins b.var low high r) : d.Stands n r where
  value a x hx := by
    have hchild := hx.of_branch? hb
    exact hr.of_cases (fun hav => hlow.value a x (by simpa [hav] using hchild))
      fun hav => hhigh.value a x (by simpa [hav] using hchild)
  occurs v hv := by
    rcases hr.occurs v hv with rfl | hv | hv
    · exact .here hb
    · exact .low hb (hlow.occurs v hv)
    · exact .high hb (hhigh.occurs v hv)

theorem Reduces.extends (h : d.Reduces n r) (he : d.Extends d') : d'.Reduces n r := by
  induction h with
  | terminal value => exact .terminal value
  | test hb _ _ unfolds ihlow ihhigh => exact .test (he _ _ hb) ihlow ihhigh (unfolds.extends he)

theorem Reduces.stands (h : d.Reduces n r) : d.Stands n r := by
  induction h with
  | terminal value => exact ⟨fun _ _ hx => hx, fun _ hv => hv⟩
  | test hb _ _ unfolds ihlow ihhigh => exact ihlow.join hb ihhigh unfolds.joins

theorem Reduces.reduced (h : d.Reduces n r) : d.Reduced r := by
  induction h with
  | terminal value => exact reduced_terminal d value
  | test _ _ _ unfolds ihlow ihhigh => exact unfolds.reduced ihlow ihhigh

theorem Reduces.unique (hd : d.Distinct) (h : d.Reduces n r) (h' : d.Reduces n r') : r = r' := by
  induction h generalizing r' with
  | terminal value =>
    cases h' with
    | terminal => rfl
    | test hb => simp at hb
  | @test n r b k hb _ _ unfolds ihlow ihhigh =>
    cases h' with
    | terminal => simp at hb
    | @test _ _ b' k' hb' low' high' unfolds' =>
      rw [hb, Option.some.injEq] at hb'
      subst hb'
      obtain ⟨kl, kh⟩ := k
      obtain ⟨kl', kh'⟩ := k'
      obtain rfl : kl = kl' := ihlow low'
      obtain rfl : kh = kh' := ihhigh high'
      exact unfolds.node_unique hd unfolds'

/-- What is left of a node lies below what is left of the nodes above it. -/
theorem Reduces.exists_below (h : d.Reduces n r) (hm : d.Below n m) :
    ∃ r', d.Reduces m r' ∧ d.Below r r' := by
  induction h with
  | terminal value =>
    rw [below_terminal hm]
    exact ⟨_, .terminal value, .refl⟩
  | @test n r b k hb low high unfolds ihlow ihhigh =>
    rcases hm.of_branch? hb with rfl | hm | hm
    · exact ⟨r, .test hb low high unfolds, .refl⟩
    · obtain ⟨r', hr', hbelow⟩ := ihlow hm
      exact ⟨r', hr', unfolds.below.1.trans hbelow⟩
    · obtain ⟨r', hr', hbelow⟩ := ihhigh hm
      exact ⟨r', hr', unfolds.below.2.trans hbelow⟩

end Diagram

namespace Canonical

/-- What is entered for a live node is what is left of it. -/
def Faithful (known : Canonical) (d : Diagram) : Prop :=
  ∀ n r, known[n]? = some r → d.alive n ∧ d.alive r ∧ d.Reduces n r

variable {known : Canonical} {d d' : Diagram} {m n r : NodeId}

theorem Faithful.extends (h : known.Faithful d) (he : d.Extends d') : known.Faithful d' := by
  intro n r hr
  obtain ⟨hn, ha, hreduces⟩ := h n r hr
  exact ⟨he.alive hn, he.alive ha, hreduces.extends he⟩

theorem Faithful.insert (h : known.Faithful d) (hn : d.alive n) (hr : d.alive r)
    (hreduces : d.Reduces n r) : Faithful (known.insert n r) d :=
  forall_entry_insert h ⟨hn, hr, hreduces⟩

theorem mem_insert_iff : m ∈ known.insert n r ↔ m = n ∨ m ∈ known := by
  rw [Std.TreeMap.mem_insert, Std.LawfulEqOrd.compare_eq_iff_eq, eq_comm]

theorem faithful_terminals (d : Diagram) : terminals.Faithful d := by
  refine Faithful.insert (Faithful.insert ?_ rfl rfl (.terminal _)) rfl rfl (.terminal _)
  intro n r hr
  simp at hr

theorem mem_terminals (value : Bool) : NodeId.terminal value ∈ terminals := by
  unfold terminals
  rw [mem_insert_iff, mem_insert_iff]
  cases value <;> simp

theorem get_gives (hn : n ∈ known) : Gives (known.get n) fun r => known[n]? = some r := by
  obtain ⟨r, hr⟩ : ∃ r, known[n]? = some r :=
    Option.isSome_iff_exists.mp (Std.TreeMap.mem_iff_isSome_getElem?.mp hn)
  refine ⟨r, ?_, hr⟩
  simp only [get, hr]

end Canonical

/-! ## One level -/

/-- A test with canonical children: `t.first` and `t.second` are what is left of the children of
`t.third`, which is one of `ns` and tests `v`, and they are not the same. -/
def Diagram.Planned (d : Diagram) (v : Var) (ns : List NodeId) (t : NodeTriple) : Prop :=
  t.third ∈ ns ∧ ∃ b, d.branch? t.third = some b ∧ b.var = v ∧ t.first ≠ t.second ∧
    d.alive t.first ∧ d.Reduces b.low t.first ∧ d.alive t.second ∧ d.Reduces b.high t.second

theorem Diagram.Planned.extends {d d' : Diagram} {v : Var} {ns : List NodeId} {t : NodeTriple}
    (h : d.Planned v ns t) (he : d.Extends d') : d'.Planned v ns t := by
  obtain ⟨hmem, b, hb, hvar, hne, hfirst, hrfirst, hsecond, hrsecond⟩ := h
  exact ⟨hmem, b, he _ b hb, hvar, hne, he.alive hfirst, hrfirst.extends he, he.alive hsecond,
    hrsecond.extends he⟩

/-- The nodes of a level are parted: each is found, or it is planned. -/
theorem Diagram.partLevel_gives {d : Diagram} {v : Var} {below ns : List NodeId} {known : Canonical}
    {tests : DecisionGraph.Tests} (hc : known.Faithful d)
    (hns : ∀ n ∈ ns,
      n ∈ below ∧ ∃ b, d.branch? n = some b ∧ b.var = v ∧ b.low ∈ known ∧ b.high ∈ known)
    (htests : ∀ t ∈ tests, d.Planned v below t) :
    Gives (d.partLevel ns known tests) fun p =>
      p.1.Faithful d ∧ (∀ t ∈ p.2, d.Planned v below t) ∧ (∀ n ∈ known, n ∈ p.1) ∧
        (∀ t ∈ tests, t ∈ p.2) ∧ ∀ n ∈ ns, n ∈ p.1 ∨ ∃ t ∈ p.2, t.third = n := by
  induction ns generalizing known tests with
  | nil => exact gives_ok ⟨hc, htests, fun _ h => h, fun _ h => h, by simp⟩
  | cons n ns ih =>
    obtain ⟨hmem, b, hb, hvar, hlow, hhigh⟩ := hns n List.mem_cons_self
    have hrest := fun m hm => hns m (List.mem_cons_of_mem _ hm)
    unfold partLevel
    apply gives_bind_of_eq (branch_eq_ok_iff.mpr hb)
    apply gives_bind (Canonical.get_gives hlow)
    intro low hclow
    apply gives_bind (Canonical.get_gives hhigh)
    intro high hchigh
    obtain ⟨-, halow, hrlow⟩ := hc _ _ hclow
    obtain ⟨-, hahigh, hrhigh⟩ := hc _ _ hchigh
    split
    · rename_i heq
      have hreduces : d.Reduces n low :=
        .test (k := ⟨low, high⟩) hb hrlow hrhigh (Or.inl ⟨heq, rfl⟩)
      refine gives_mono
        (ih (hc.insert (alive_of_branch? hb) halow hreduces) (fun m hm => ?_) htests)
        fun p ⟨hfaithful, hplanned, hold, hkept, hfound⟩ => ?_
      · obtain ⟨hmem', b', hb', hvar', hlow', hhigh'⟩ := hrest m hm
        exact ⟨hmem', b', hb', hvar', Canonical.mem_insert_iff.mpr (Or.inr hlow'),
          Canonical.mem_insert_iff.mpr (Or.inr hhigh')⟩
      · refine ⟨hfaithful, hplanned, fun m hm => hold m (Canonical.mem_insert_iff.mpr (Or.inr hm)),
          hkept, fun m hm => ?_⟩
        rcases List.mem_cons.mp hm with rfl | hm
        · exact Or.inl (hold m (Canonical.mem_insert_iff.mpr (Or.inl rfl)))
        · exact hfound m hm
    · rename_i hne
      have hinsert : ∀ t, t ∈ tests.insert ⟨low, high, n⟩ ↔ t = ⟨low, high, n⟩ ∨ t ∈ tests := by
        intro t
        rw [Std.TreeSet.mem_insert, Std.LawfulEqOrd.compare_eq_iff_eq, eq_comm]
      have hplan : ∀ t ∈ tests.insert ⟨low, high, n⟩, d.Planned v below t := by
        intro t ht
        rcases (hinsert t).mp ht with rfl | ht
        · exact ⟨hmem, b, hb, hvar, hne, halow, hrlow, hahigh, hrhigh⟩
        · exact htests t ht
      refine gives_mono (ih hc hrest hplan) fun p ⟨hfaithful, hplanned, hold, hkept, hfound⟩ => ?_
      refine ⟨hfaithful, hplanned, hold, fun t ht => hkept t ((hinsert t).mpr (Or.inr ht)),
        fun m hm => ?_⟩
      rcases List.mem_cons.mp hm with rfl | hm
      · exact Or.inr ⟨_, hkept _ ((hinsert _).mpr (Or.inl rfl)), rfl⟩
      · exact hfound m hm

namespace Store

variable {s t : Store} {held : Holding} {v : Var} {n : NodeId} {known : Canonical}

/-- The planned tests of a level are made, over canonical children on lower levels. What is new is
left of a test that was planned. -/
theorem shareTests_gives {ts : List NodeTriple} {below : List NodeId} (h : s.Valid held)
    (hc : known.Faithful s.diagram)
    (hts : ∀ t ∈ ts, s.diagram.Planned v below t) :
    Gives (shareTests v ts known s) fun p =>
      p.2.Valid held ∧ s.Grew p.2 ∧ p.1.Faithful p.2.diagram ∧ (∀ n ∈ known, n ∈ p.1) ∧
        (∀ t ∈ ts, t.third ∈ p.1) ∧
        s.diagram.Gains p.2.diagram fun m => ∃ t ∈ ts, p.2.diagram.Reduces t.third m := by
  induction ts generalizing known s with
  | nil => exact gives_ok ⟨h, .refl s, hc, fun _ h => h, by simp, .refl _ _⟩
  | cons t ts ih =>
    obtain ⟨-, b, hb, rfl, hne, hfirst, hrfirst, hsecond, hrsecond⟩ := hts t List.mem_cons_self
    have hknows := h.sound.knows _ b hb
    have hsize := h.lawful.levelOf_lt hknows
    obtain ⟨hllow, hlhigh⟩ := h.layered _ b hb
    unfold shareTests
    refine gives_bind (h.cons hknows hfirst hsecond
      (hrfirst.stands.lt_levelIn h.layered hsize hllow)
      (hrsecond.stands.lt_levelIn h.layered hsize hlhigh)) fun ⟨r, s₁⟩ ⟨h₁, hcons⟩ => ?_
    have hgrew := hcons.grew
    have hsub := hgrew.grows.subset
    have hreduces : s₁.diagram.Reduces t.third r :=
      .test (hgrew.branch? hb) (hrfirst.extends hsub) (hrsecond.extends hsub)
        (Or.inr ⟨hne, hcons.branch?⟩)
    refine gives_mono (ih h₁ ((hc.extends hsub).insert
      (Diagram.alive_of_branch? (hgrew.branch? hb)) (Diagram.alive_of_branch? hcons.branch?)
      hreduces) fun u hu => (hts u (List.mem_cons_of_mem _ hu)).extends hsub)
      fun p ⟨hvalid, hgrew', hfaithful, hold, hfound, hgains⟩ => ?_
    refine ⟨hvalid, hgrew.trans hgrew', hfaithful,
      fun m hm => hold m (Canonical.mem_insert_iff.mpr (Or.inr hm)), fun u hu => ?_, ?_⟩
    · rcases List.mem_cons.mp hu with rfl | hu
      · exact hold _ (Canonical.mem_insert_iff.mpr (Or.inl rfl))
      · exact hfound u hu
    · refine (hcons.gains hne fun m hm => ?_).trans
        (hgains.mono fun m ⟨u, hu, hm⟩ => ⟨u, List.mem_cons_of_mem _ hu, hm⟩)
      subst hm
      exact ⟨t, List.mem_cons_self, hreduces.extends hgrew'.grows.subset⟩

theorem mem_onLevel_iff {l : Level} {ns : List NodeId} :
    n ∈ s.onLevel l ns ↔
      n ∈ ns ∧ ∃ b, s.diagram.branch? n = some b ∧ s.order.levelOf b.var = l := by
  simp only [onLevel, List.mem_filter]
  apply and_congr_right
  intro _
  split
  · rename_i b hb
    simp [hb]
  · rename_i hb
    simp [hb]

/-- The levels above level `l` are done, from the bottom up. All that lies on level `l` or below has
been found before. What is new is left of one of the nodes. -/
theorem reduceLevels_gives {ns : List NodeId} {l : Nat} (h : s.Valid held) (hl : l ≤ s.order.size)
    (hc : known.Faithful s.diagram) (hns : ∀ n ∈ ns, s.diagram.alive n)
    (hchildren : ∀ n ∈ ns, ∀ b, s.diagram.branch? n = some b → b.low ∈ ns ∧ b.high ∈ ns)
    (hdone : ∀ n ∈ ns, l ≤ s.diagram.levelIn s.order n → n ∈ known) :
    Gives (reduceLevels ns l known s) fun p =>
      p.2.Valid held ∧ s.Grew p.2 ∧ p.1.Faithful p.2.diagram ∧ (∀ n ∈ ns, n ∈ p.1) ∧
        s.diagram.Gains p.2.diagram fun m => ∃ n ∈ ns, p.2.diagram.Reduces n m := by
  induction l generalizing known s with
  | zero => exact gives_ok ⟨h, .refl s, hc, fun n hn => hdone n hn (Nat.zero_le _), .refl _ _⟩
  | succ l ih =>
    obtain ⟨v, hv⟩ := VarOrder.varAt?_isSome (l := l) hl
    have hlevel := h.lawful.levelOf_of_varAt? hv
    -- the nodes of level `l` test `v`, and their children have been found
    have hon : ∀ n ∈ s.onLevel l ns,
        n ∈ ns ∧ ∃ b, s.diagram.branch? n = some b ∧ b.var = v ∧
          b.low ∈ known ∧ b.high ∈ known := by
      intro n hn
      obtain ⟨hmem, b, hb, hlb⟩ := mem_onLevel_iff.mp hn
      obtain ⟨hlow, hhigh⟩ := hchildren n hmem b hb
      obtain ⟨hllow, hlhigh⟩ := h.layered n b hb
      rw [hlb] at hllow hlhigh
      exact ⟨hmem, b, hb, h.lawful.levelOf_injective (h.sound.knows n b hb) (hlb.trans hlevel.symm),
        hdone _ hlow hllow, hdone _ hhigh hlhigh⟩
    unfold reduceLevels
    apply gives_bind_of_eq (varAt_eq hv)
    have hnone : ∀ t ∈ (∅ : DecisionGraph.Tests), s.diagram.Planned v ns t := by simp
    refine gives_bind (Diagram.partLevel_gives hc hon hnone)
      fun ⟨known₁, tests⟩ ⟨hc₁, hplanned, hold₁, _, hfound₁⟩ => ?_
    refine gives_bind (shareTests_gives h hc₁ fun t ht => hplanned t (Std.TreeSet.mem_toList.mp ht))
      fun ⟨known₂, s₂⟩ ⟨h₂, hgrew₂, hc₂, hold₂, hfound₂, hgains₂⟩ => ?_
    have hbranch : ∀ n ∈ ns, s₂.diagram.branch? n = s.diagram.branch? n :=
      fun n hn => (hgrew₂.grows.subset.branch?_eq (hns n hn)).symm
    refine gives_mono (ih h₂ ?_ hc₂ (fun n hn => hgrew₂.alive (hns n hn)) ?_ ?_)
      fun p ⟨hvalid, hgrew, hfaithful, hfound, hgains⟩ =>
        ⟨hvalid, hgrew₂.trans hgrew, hfaithful, hfound, (hgains₂.mono fun m ⟨t, ht, hm⟩ =>
          ⟨t.third, (hplanned t (Std.TreeSet.mem_toList.mp ht)).1,
            hm.extends hgrew.grows.subset⟩).trans hgains⟩
    · rw [hgrew₂.order]
      omega
    · intro n hn b hb
      rw [hbranch n hn] at hb
      exact hchildren n hn b hb
    · intro n hn hle
      rw [hgrew₂.levelIn_eq (hns n hn)] at hle
      rcases Nat.lt_or_eq_of_le hle with hlt | heq
      · exact hold₂ n (hold₁ n (hdone n hn hlt))
      · obtain ⟨b, hb⟩ := Diagram.exists_branch_of_levelIn_lt (d := s.diagram) (o := s.order)
          (heq ▸ hl)
        rw [Diagram.levelIn_of_branch? hb] at heq
        rcases hfound₁ n (mem_onLevel_iff.mpr ⟨hn, b, hb, heq.symm⟩) with hn₁ | ⟨t, ht, rfl⟩
        · exact hold₂ n hn₁
        · exact hfound₂ t (Std.TreeSet.mem_toList.mpr ht)

/-- Reduction of a live root makes a live node with its function, with no idle test below it. -/
theorem Valid.reduce (h : s.Valid held) (hn : s.diagram.alive n) :
    Gives (s.reduce n) fun p => s.Made held p.1 p.2 ∧ p.2.diagram.Reduces n p.1 := by
  unfold Store.reduce
  split
  · rename_i hterminal
    cases n with
    | terminal value => exact gives_pure ⟨h.made hn, .terminal value⟩
    | inner i => cases hterminal
  · refine gives_bind (Diagram.reachable_gives h.closed h.layered hn) fun ns ⟨_, hns⟩ => ?_
    refine gives_bind (reduceLevels_gives h (Nat.le_refl _)
      (Canonical.faithful_terminals _) (fun m hm => ((hns m).mp hm).alive h.closed hn) ?_ ?_)
      fun ⟨known, t⟩ ⟨ht, hgrew, hc, hfound, hgains⟩ => ?_
    · intro m hm b hb
      exact ⟨(hns _).mpr (((hns m).mp hm).trans (Diagram.Child.low hb).below),
        (hns _).mpr (((hns m).mp hm).trans (Diagram.Child.high hb).below)⟩
    · intro m hm hle
      cases m with
      | terminal value => exact Canonical.mem_terminals value
      | inner i =>
        obtain ⟨b, hb⟩ := Diagram.exists_branch (((hns _).mp hm).alive h.closed hn)
        exact absurd hle (Nat.not_le_of_lt (h.sound.knows.levelIn_lt h.lawful hb))
    · apply gives_bind (Canonical.get_gives (hfound n ((hns n).mpr .refl)))
      intro r hr
      obtain ⟨-, halive, hreduces⟩ := hc n r hr
      refine gives_pure ⟨⟨⟨ht, hgrew, halive⟩, hgains.mono fun m ⟨k, hk, hm⟩ => ?_⟩, hreduces⟩
      -- what is left of a node below the root lies below what is left of the root
      obtain ⟨m', hm', hbelow⟩ := hreduces.exists_below (((hns k).mp hk).extends hgrew.grows.subset)
      exact ⟨r, List.mem_singleton_self r, hm'.unique ht.distinct hm ▸ hbelow⟩

end Store

end DecisionGraph
