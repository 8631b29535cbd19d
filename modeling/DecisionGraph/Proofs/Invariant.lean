import DecisionGraph.Proofs.Collection

/-!
# The invariant of a store

A store is valid if its accounts are right, its order is lawful, its diagram is layered by that
order, and its computed table is faithful. An entry of the computed table is trusted only while all
of its four nodes are alive, and what it says is said of values, of tested variables and, where it
is a complement, of idle tests. None of them depends on the order or on the branches of nodes, and
numbers are never given away again; so an entry stays right whatever the store goes through
(`ComputedTable.Faithful.evolves`).

* `ComputedTable.Faithful` — what the entries of the computed table say is true.
* `ComputedTable.Clean` — which of its results have no idle tests below them.
* `Store.Valid` — the invariant.
* `Grew`, `Valid.cons`, `Valid.consReduced` — new nodes over old ones.
* `Adds`, `Made` — new nodes that are needed for others, and are no idle tests.
* `Moves`, `Tidy` — what a change does to the nodes that stay.
* `Valid.exists_standing`, `Valid.exists_root` — every node lies below one that is held or has no
  references.
* `valid_new`, `Valid.addVariable`, `Valid.release_gives`, ... — the invariant under the plain
  calls.
-/

namespace DecisionGraph

/-- What holds of all entries of a map and of a new one, holds of all entries then. -/
theorem forall_entry_insert {α : Type} {known : NodeMap α} {P : NodeId → α → Prop}
    (h : ∀ n x, known[n]? = some x → P n x) {n : NodeId} {x : α} (hn : P n x) :
    ∀ m y, (known.insert n x)[m]? = some y → P m y := by
  intro m y hm
  simp only [Std.TreeMap.getElem?_insert, Std.LawfulEqOrd.compare_eq_iff_eq] at hm
  split at hm
  · subst m
    cases hm
    exact hn
  · exact h m y hm

/-- `r` agrees with `g` where `f` is true and with `h` elsewhere, and nothing occurs in it that does
not occur in one of the three. -/
structure Diagram.Selects (d : Diagram) (f g h r : NodeId) : Prop where
  value : ∀ a x y z, d.Value a f x → d.Value a g y → d.Value a h z →
    d.Value a r (if x then y else z)
  occurs : ∀ v, d.Occurs r v → d.Occurs f v ∨ d.Occurs g v ∨ d.Occurs h v

/-- What an entry of the computed table says: `r` selects from the three operands and, as a
complement of the first, has no idle test below it. -/
structure Diagram.Answers (d : Diagram) (f g h r : NodeId) : Prop extends d.Selects f g h r where
  reduced : g = .zero → h = .one → d.Reduced r

/-- `r` agrees with `high` where `v` is true and with `low` elsewhere, and nothing occurs in it but
`v` and what occurs in one of the two. -/
structure Diagram.Joins (d : Diagram) (v : Var) (low high r : NodeId) : Prop where
  value : ∀ a x, d.Value a (if a v then high else low) x → d.Value a r x
  occurs : ∀ w, d.Occurs r w → w = v ∨ d.Occurs low w ∨ d.Occurs high w

namespace Diagram

variable {d d' : Diagram} {b : Branch} {f g h n r : NodeId}

/-- What a node selects, it selects as long as all four nodes are there. -/
theorem Selects.evolves (hs : d.Selects f g h r) (he : d.Evolves d')
    (ha : ∀ n ∈ [r, f, g, h], d.alive n) (ha' : ∀ n ∈ [r, f, g, h], d'.alive n) :
    d'.Selects f g h r := by
  simp only [List.forall_mem_cons, List.not_mem_nil, false_implies, implies_true, and_true]
    at ha ha'
  obtain ⟨hr, hf, hg, hh⟩ := ha
  obtain ⟨hr', hf', hg', hh'⟩ := ha'
  constructor
  · intro a x y z hx hy hz
    rw [← he.value _ hr hr']
    exact hs.value a x y z ((he.value _ hf hf' a x).mpr hx) ((he.value _ hg hg' a y).mpr hy)
      ((he.value _ hh hh' a z).mpr hz)
  · intro v hv
    rw [← he.occurs _ hr hr'] at hv
    exact (hs.occurs v hv).imp (he.occurs _ hf hf' v).mp
      (Or.imp (he.occurs _ hg hg' v).mp (he.occurs _ hh hh' v).mp)

theorem Selects.grows (hs : d.Selects f g h r) (hg : d.Grows d') (hc : d.Closed)
    (ha : ∀ n ∈ [r, f, g, h], d.alive n) : d'.Selects f g h r :=
  hs.evolves (hg.evolves hc) ha fun n hn => hg.subset.alive (ha n hn)

theorem Answers.evolves (hs : d.Answers f g h r) (he : d.Evolves d')
    (ha : ∀ n ∈ [r, f, g, h], d.alive n) (ha' : ∀ n ∈ [r, f, g, h], d'.alive n) :
    d'.Answers f g h r where
  toSelects := hs.toSelects.evolves he ha ha'
  reduced hg hh := he.reduced r (ha r (by simp)) (ha' r (by simp)) (hs.reduced hg hh)

theorem Answers.grows (hs : d.Answers f g h r) (hg : d.Grows d') (hc : d.Closed)
    (ha : ∀ n ∈ [r, f, g, h], d.alive n) : d'.Answers f g h r :=
  hs.evolves (hg.evolves hc) ha fun n hn => hg.subset.alive (ha n hn)

theorem Unfolds.joins {v : Var} {k : Children} (h : d.Unfolds v n k) :
    d.Joins v k.low k.high n where
  value a x hx := (h.value_iff a x).mpr hx
  occurs w hw := ((h.occurs_iff w).mp hw).imp_left And.left

theorem Joins.of_cases {v : Var} {low high : NodeId} {a : Assignment} {x : Bool}
    (h : d.Joins v low high r) (hlow : a v = false → d.Value a low x)
    (hhigh : a v = true → d.Value a high x) : d.Value a r x := by
  apply h.value a x
  cases hav : a v with
  | false => exact hlow hav
  | true => exact hhigh hav

end Diagram

/-! ## The computed table -/

namespace ComputedTable

/-- What the first table knows, the second knows too. -/
def Within (t t' : ComputedTable) : Prop :=
  ∀ (k : NodeTriple) (r : NodeId), t.results[k]? = some r → t'.results[k]? = some r

/-- The nodes of an entry have been given out. While all of them are alive, the entry is true. -/
structure Faithful (t : ComputedTable) (d : Diagram) : Prop where
  assigned : ∀ (k : NodeTriple) (r : NodeId), t.results[k]? = some r →
    ∀ n ∈ r :: k.word, n.toNat < d.fresh.toNat
  answers : ∀ (k : NodeTriple) (r : NodeId), t.results[k]? = some r →
    (∀ n ∈ r :: k.word, d.alive n) → d.Answers k.first k.second k.third r

/-- While all nodes of an entry are alive, there is no idle test below the result if there is none
below the operands. Where `all` holds, there is none below the result, whatever the operands. -/
def Clean (t : ComputedTable) (d : Diagram) (all : Prop) : Prop :=
  ∀ (k : NodeTriple) (r : NodeId), t.results[k]? = some r → (∀ n ∈ r :: k.word, d.alive n) →
    (all ∨ ∀ n ∈ k.word, d.Reduced n) → d.Reduced r

variable {t t' : ComputedTable} {d d' : Diagram} {k : NodeTriple} {r : NodeId}
  {alive : NodeId → Bool} {all : Prop}

theorem Within.refl (t : ComputedTable) : t.Within t := fun _ _ hk => hk

theorem lookup_within (t : ComputedTable) (k : NodeTriple) (alive : NodeId → Bool) :
    (t.lookup k alive).2.Within t := by
  intro k' r' hk'
  unfold ComputedTable.lookup at hk'
  split at hk'
  · split at hk'
    · exact hk'
    · rw [Std.ExtTreeMap.getElem?_erase] at hk'
      split at hk'
      · cases hk'
      · exact hk'
  · exact hk'

theorem of_insert {k' : NodeTriple} {r' : NodeId} (h : (t.insert k r).results[k']? = some r') :
    k' = k ∧ r' = r ∨ t.results[k']? = some r' := by
  simp only [ComputedTable.insert, Std.ExtTreeMap.getElem?_insert,
    Std.LawfulEqOrd.compare_eq_iff_eq] at h
  split at h
  · exact Or.inl ⟨by symm; assumption, (Option.some.inj h).symm⟩
  · exact Or.inr h

theorem faithful_empty (d : Diagram) : empty.Faithful d where
  assigned k r hk := by simp [empty] at hk
  answers k r hk := by simp [empty] at hk

/-- Entries stay true: a node that is alive later, and has been given out before, was alive then. -/
theorem Faithful.evolves (h : t.Faithful d) (he : d.Evolves d') : t.Faithful d' where
  assigned k r hk n hn := Nat.lt_of_lt_of_le (h.assigned k r hk n hn) he.fresh_le
  answers k r hk ha' := by
    have ha : ∀ n ∈ r :: k.word, d.alive n :=
      fun n hn => he.gone n (h.assigned k r hk n hn) (ha' n hn)
    exact (h.answers k r hk ha).evolves he ha ha'

/-- A table with fewer entries. -/
theorem Faithful.of_subset (h : t.Faithful d) (hsub : t'.Within t) : t'.Faithful d where
  assigned k r hk := h.assigned k r (hsub k r hk)
  answers k r hk := h.answers k r (hsub k r hk)

theorem Faithful.lookup (h : t.Faithful d) (k : NodeTriple) (alive : NodeId → Bool) :
    (t.lookup k alive).2.Faithful d := h.of_subset (t.lookup_within k alive)

/-- What a look-up finds is entered and alive. -/
theorem of_lookup (h : (t.lookup k alive).1 = some r) : t.results[k]? = some r ∧ alive r := by
  unfold ComputedTable.lookup at h
  split at h
  · split at h
    · cases h
      exact ⟨‹_›, ‹_›⟩
    · cases h
  · cases h

theorem Faithful.insert (h : t.Faithful d) (ha : ∀ n ∈ r :: k.word, d.alive n)
    (hs : d.Answers k.first k.second k.third r) : (t.insert k r).Faithful d := by
  constructor
  · intro k' r' hk'
    rcases of_insert hk' with ⟨rfl, rfl⟩ | hk'
    · exact fun n hn => Diagram.toNat_lt_fresh (ha n hn)
    · exact h.assigned k' r' hk'
  · intro k' r' hk'
    rcases of_insert hk' with ⟨rfl, rfl⟩ | hk'
    · exact fun _ => hs
    · exact h.answers k' r' hk'

theorem clean_empty (d : Diagram) (all : Prop) : empty.Clean d all := fun k r hk => by
  simp [empty] at hk

theorem Clean.within (h : t.Clean d all) (hw : t'.Within t) : t'.Clean d all :=
  fun k r hk => h k r (hw k r hk)

theorem Clean.weaken (h : t.Clean d True) (all : Prop) : t.Clean d all :=
  fun k r hk ha _ => h k r hk ha (Or.inl trivial)

/-- A clean table stays clean, if no node loses its idle tests, or if there are no idle tests below
any result. -/
theorem Clean.evolves (h : t.Clean d all) (hf : t.Faithful d) (he : d.Evolves d')
    (hraw : all ∨ ∀ n, d.alive n → d'.alive n → d'.Reduced n → d.Reduced n) :
    t.Clean d' all := by
  intro k r hk ha' hr'
  have ha : ∀ n ∈ r :: k.word, d.alive n :=
    fun n hn => he.gone n (hf.assigned k r hk n hn) (ha' n hn)
  refine he.reduced r (ha r List.mem_cons_self) (ha' r List.mem_cons_self) (h k r hk ha ?_)
  rcases hr' with hall | hoperands
  · exact Or.inl hall
  · exact hraw.imp_right fun hraw n hn => hraw n (ha n (List.mem_cons_of_mem _ hn))
      (ha' n (List.mem_cons_of_mem _ hn)) (hoperands n hn)

theorem Clean.insert (h : t.Clean d all)
    (hr : (all ∨ ∀ n ∈ k.word, d.Reduced n) → d.Reduced r) : (t.insert k r).Clean d all := by
  intro k' r' hk'
  rcases of_insert hk' with ⟨rfl, rfl⟩ | hk'
  · exact fun _ => hr
  · exact h k' r' hk'

/-- What is kept of the entries: those with no dead node in them. -/
theorem purge_eq_some_iff : (t.purge alive).2.results[k]? = some r ↔
    t.results[k]? = some r ∧ ∀ n ∈ r :: k.word, alive n := by
  simp only [ComputedTable.purge, Std.ExtTreeMap.getElem?_filter', Option.filter_eq_some_iff,
    NodeTriple.word, List.forall_mem_cons, List.not_mem_nil, false_implies, implies_true, and_true,
    Bool.and_eq_true, and_assoc]

/-- Where no entry has a dead node in it, all are kept. -/
theorem purge_eq_self (h : ∀ (k : NodeTriple) (r : NodeId), t.results[k]? = some r →
    ∀ n ∈ r :: k.word, alive n) : (t.purge alive).2 = t := by
  have hresults : (t.purge alive).2.results = t.results := by
    refine Std.ExtTreeMap.ext_getElem? fun {k} => Option.ext fun r => ?_
    rw [purge_eq_some_iff]
    exact and_iff_left_of_imp (h k r)
  calc
    (t.purge alive).2 = ⟨(t.purge alive).2.results, t.hits, t.misses⟩ := rfl
    _ = t := by rw [hresults]

end ComputedTable

namespace Store

/-- The invariant: the accounts are right, the order is lawful, the diagram is layered, and the
computed table is faithful. -/
structure Valid (s : Store) (held : Holding) : Prop where
  sound : s.Sound NoneOut held
  lawful : s.order.Lawful
  layered : s.diagram.Layered s.order
  faithful : s.computed.Faithful s.diagram

/-- The two stores differ in nothing but the computed table. -/
def Twin (s t : Store) : Prop := ∃ c, t = { s with computed := c }

/-- From `s` to `t` the diagram has grown, and the order is the same. If there is no new node, there
is nothing new but results in the computed table. -/
structure Grew (s t : Store) : Prop where
  grows : s.diagram.Grows t.diagram
  order : t.order = s.order
  config : t.config = s.config
  still : (∀ n, t.diagram.alive n → s.diagram.alive n) → s.Twin t

/-- `n` is a live node of the valid store `t`, which has grown from `s`. -/
structure Built (s : Store) (held : Holding) (n : NodeId) (t : Store) : Prop where
  valid : t.Valid held
  grew : s.Grew t
  alive : t.diagram.alive n

/-- What is in `t` and not in `s` is no idle test, and lies below one of the roots. -/
def Adds (s : Store) (roots : List NodeId) (t : Store) : Prop :=
  s.diagram.Gains t.diagram fun m => ∃ r ∈ roots, t.diagram.Below r m

/-- `n` has been built, with nothing but what it needs. -/
structure Made (s : Store) (held : Holding) (n : NodeId) (t : Store) : Prop
    extends Built s held n t where
  adds : s.Adds [n] t

/-- From `s` to `t` no node has come back or changed its meaning, no idle test has come below a node
that stays, and no variable is gone. -/
structure Moves (s t : Store) : Prop where
  evolves : s.diagram.Evolves t.diagram
  varCount_le : s.varCount ≤ t.varCount
  config : t.config = s.config

/-- From `s` to `t` no node has been left without references either. -/
structure Tidy (s t : Store) : Prop extends Moves s t where
  spares : s.Spares t

variable {s t u : Store} {held held' : Holding} {inside : NodeId → Prop} {v : Var} {b : Branch}
  {m n low high : NodeId}

theorem Twin.refl (s : Store) : s.Twin s := ⟨s.computed, rfl⟩

theorem Twin.symm (h : s.Twin t) : t.Twin s := by
  obtain ⟨c, rfl⟩ := h
  exact ⟨s.computed, rfl⟩

theorem Twin.trans (h : s.Twin t) (h' : t.Twin u) : s.Twin u := by
  obtain ⟨c, rfl⟩ := h
  obtain ⟨c', rfl⟩ := h'
  exact ⟨c', rfl⟩

theorem Twin.diagram (h : s.Twin t) : t.diagram = s.diagram := by
  obtain ⟨c, rfl⟩ := h
  rfl

theorem twin_setComputed (s : Store) (c : ComputedTable) : s.Twin { s with computed := c } :=
  ⟨c, rfl⟩

theorem Twin.grew (h : s.Twin t) : s.Grew t := by
  obtain ⟨c, rfl⟩ := h
  exact ⟨.refl _, rfl, rfl, fun _ => s.twin_setComputed c⟩

theorem Grew.refl (s : Store) : s.Grew s := (Twin.refl s).grew

theorem Grew.trans (h : s.Grew t) (h' : t.Grew u) : s.Grew u where
  grows := h.grows.trans h'.grows
  order := h'.order.trans h.order
  config := h'.config.trans h.config
  still hu := (h.still fun n hn => hu n (h'.grows.subset.alive hn)).trans
    (h'.still fun n hn => h.grows.subset.alive (hu n hn))

theorem Grew.alive (h : s.Grew t) (ha : s.diagram.alive n) : t.diagram.alive n :=
  h.grows.subset.alive ha

theorem Grew.branch? (h : s.Grew t) (hb : s.diagram.branch? n = some b) :
    t.diagram.branch? n = some b := h.grows.subset n b hb

theorem Grew.alive_eq (h : s.Grew t) (hissued : s.diagram.issued n) :
    t.diagram.alive n = s.diagram.alive n :=
  Bool.eq_iff_iff.mpr ⟨h.grows.gone n (Diagram.issued_iff.mp hissued), h.alive⟩

theorem Grew.branch?_eq (h : s.Grew t) (hissued : s.diagram.issued n) :
    t.diagram.branch? n = s.diagram.branch? n := by
  ext b
  constructor
  · intro hb
    have ha : s.diagram.alive n := h.alive_eq hissued ▸ Diagram.alive_of_branch? hb
    exact (h.grows.subset.branch?_eq ha).trans hb
  · exact h.branch?

theorem Grew.levelIn_eq (h : s.Grew t) (ha : s.diagram.alive n) :
    t.diagram.levelIn t.order n = s.diagram.levelIn s.order n := by
  rw [h.order, h.grows.subset.levelIn_eq ha]

theorem Consed.grew (h : Consed s b n t) : s.Grew t where
  grows := h.grows
  order := h.order
  config := h.config
  still ht := h.found (ht n (Diagram.alive_of_branch? h.branch?)) ▸ .refl s

theorem Consed.built (h : Consed s b n t) (ht : t.Valid held) : s.Built held n t :=
  ⟨ht, h.grew, Diagram.alive_of_branch? h.branch?⟩

theorem Grew.built (h : s.Grew t) (h' : t.Built held n u) : s.Built held n u :=
  ⟨h'.valid, h.trans h'.grew, h'.alive⟩

theorem Adds.refl (s : Store) (roots : List NodeId) : s.Adds roots s := Diagram.Gains.refl _ _

theorem Adds.trans {ms ns : List NodeId} (h : s.Adds ms t) (h' : t.Adds ns u)
    (he : t.diagram.Extends u.diagram) : s.Adds (ms ++ ns) u :=
  Diagram.Gains.trans
    (Diagram.Gains.mono h fun _ ⟨r, hr, hbelow⟩ =>
      ⟨r, List.mem_append_left _ hr, hbelow.extends he⟩)
    (Diagram.Gains.mono h' fun _ ⟨r, hr, hbelow⟩ => ⟨r, List.mem_append_right _ hr, hbelow⟩)

/-- Roots that lie below others need not be named. -/
theorem Adds.mono {ms ns : List NodeId} (h : s.Adds ms t)
    (hsub : ∀ m ∈ ms, ∃ n ∈ ns, t.diagram.Below n m) : s.Adds ns t := by
  refine Diagram.Gains.mono h fun k ⟨r, hr, hbelow⟩ => ?_
  obtain ⟨n, hn, hbelow'⟩ := hsub r hr
  exact ⟨n, hn, hbelow'.trans hbelow⟩

/-- What is issued in between is such a node. -/
theorem Adds.exists_branch {roots : List NodeId} (h : s.Adds roots t) (hgrew : s.Grew t)
    (hissued : t.diagram.issued n) (hnew : ¬ s.diagram.issued n) :
    ∃ b, t.diagram.branch? n = some b ∧ b.low ≠ b.high ∧ ∃ r ∈ roots, t.diagram.Below r n := by
  have hdead : ¬ s.diagram.alive n := mt Diagram.issued_of_alive hnew
  have ha : t.diagram.alive n := (hgrew.grows.issued n hissued).resolve_left hnew
  obtain ⟨b, hb⟩ := Diagram.exists_branch_of_not_alive ha hdead
  rcases h n b hb with hold | hadded
  · exact absurd (Diagram.alive_of_branch? hold) hdead
  · exact ⟨b, hb, hadded⟩

theorem Built.made (h : s.Built held n t) (heq : t.diagram = s.diagram) : s.Made held n t :=
  ⟨h, fun _ _ hb => Or.inl (heq ▸ hb)⟩

/-- A change of the computed table, before a node is made. -/
theorem Twin.made (h : s.Twin t) (h' : t.Made held n u) : s.Made held n u :=
  ⟨h.grew.built h'.toBuilt, fun m b hb => h.diagram ▸ h'.adds m b hb⟩

/-- A node that is made before another, and lies below it. -/
theorem Made.trans (h : s.Made held m t) (h' : t.Made held n u) (hbelow : u.diagram.Below n m) :
    s.Made held n u where
  toBuilt := h.grew.built h'.toBuilt
  adds := (h.adds.trans h'.adds h'.grew.grows.subset).mono fun k hk => by
    simp only [List.cons_append, List.nil_append, List.mem_cons, List.not_mem_nil, or_false] at hk
    rcases hk with rfl | rfl
    · exact ⟨n, List.mem_singleton_self n, hbelow⟩
    · exact ⟨k, List.mem_singleton_self k, .refl⟩

theorem Moves.refl (s : Store) : s.Moves s := ⟨.refl _, Nat.le_refl _, rfl⟩

theorem Moves.trans (h : s.Moves t) (h' : t.Moves u) : s.Moves u :=
  ⟨h.evolves.trans h'.evolves, Nat.le_trans h.varCount_le h'.varCount_le,
    h'.config.trans h.config⟩

theorem Tidy.refl (s : Store) : s.Tidy s := ⟨.refl s, .refl s⟩

theorem Tidy.trans (h : s.Tidy t) (h' : t.Tidy u) : s.Tidy u :=
  ⟨h.toMoves.trans h'.toMoves, h.spares.trans h'.spares⟩

theorem Valid.closed (h : s.Valid held) : s.diagram.Closed := h.sound.closed

theorem Valid.distinct (h : s.Valid held) : s.diagram.Distinct :=
  fun _ _ _ hm hn => h.sound.eq_of_branch? hm not_false hn not_false

/-- A node that is there has been made. -/
theorem Valid.made (h : s.Valid held) (ha : s.diagram.alive n) : s.Made held n s :=
  ⟨⟨h, .refl s, ha⟩, .refl s [n]⟩

theorem Grew.moves (h : s.Grew t) (hc : s.diagram.Closed) : s.Moves t where
  evolves := h.grows.evolves hc
  varCount_le := Nat.le_of_eq (by simp only [varCount, h.order])
  config := h.config

/-- A change of the counts alone. -/
theorem moves_recount (s : Store) (n : NodeId) (f : Nat → Nat) : s.Moves (s.recount n f) :=
  ⟨.refl _, Nat.le_refl _, rfl⟩

/-! ## What has nothing above it -/

/-- Every live node lies below one that has a property, if those without it have an edge into
them. -/
theorem Valid.exists_above (h : s.Valid held) {P : NodeId → Prop}
    (hP : ∀ m, s.diagram.alive m → ¬ P m → 0 < s.diagram.edgesInto m) (ha : s.diagram.alive n) :
    ∃ m, P m ∧ s.diagram.alive m ∧ s.diagram.Below m n := by
  -- parents lie on higher levels
  induction hk : s.diagram.levelIn s.order n using Nat.strongRecOn generalizing n with
  | ind k ih =>
    by_cases hn : P n
    · exact ⟨n, hn, ha, .refl⟩
    · obtain ⟨p, hchild⟩ := Diagram.exists_parent (hP n ha hn)
      obtain ⟨m, hm, ham, hbelow⟩ := ih _ (hk ▸ h.layered.lt_of_child hchild) hchild.alive rfl
      exact ⟨m, hm, ham, .step hbelow hchild⟩

/-- A node that nobody holds and that is not loose has an edge into it. -/
theorem Valid.edgesInto_pos (h : s.Valid held) (ha : s.diagram.alive n) (ht : !n.isTerminal)
    (hheld : held n = 0) (hn : ¬ s.Loose n) : 0 < s.diagram.edgesInto n := by
  refine Nat.pos_of_ne_zero fun hedges => hn ⟨?_, ?_⟩
  · exact (Diagram.alive_iff.mp ha).resolve_left (by simpa using ht)
  · rw [h.sound.counted, hedges, hheld]

/-- Every inner node lies below one that is held, or that nothing refers to. -/
theorem Valid.exists_standing (h : s.Valid held) (hb : s.diagram.branch? n = some b) :
    ∃ m, (0 < held m ∨ s.Loose m) ∧ s.diagram.Below m n := by
  have hparent : ∀ m, s.diagram.alive m → ¬ (m.isTerminal ∨ 0 < held m ∨ s.Loose m) →
      0 < s.diagram.edgesInto m := by
    intro m ha hm
    rw [not_or, not_or] at hm
    exact h.edgesInto_pos ha (by simpa using hm.1) (Nat.eq_zero_of_not_pos hm.2.1) hm.2.2
  obtain ⟨m, hm, -, hbelow⟩ := h.exists_above hparent (Diagram.alive_of_branch? hb)
  refine ⟨m, hm.resolve_left fun hterminal => ?_, hbelow⟩
  cases m with
  | terminal value =>
    rw [Diagram.below_terminal hbelow] at hb
    simp at hb
  | inner i => cases hterminal

/-- A node of `t` lies below one that has a property, if the nodes of `s` have it and those of `t`
to which nothing refers, and the holds are the same. -/
theorem Valid.exists_root (ht : t.Valid held) (hs : s.Valid held) {P : NodeId → Prop}
    (hkept : ∀ m, s.diagram.alive m → P m) (hloose : ∀ m, t.Loose m → P m)
    (ha : t.diagram.alive n) : ∃ m, P m ∧ t.diagram.alive m ∧ t.diagram.Below m n := by
  refine ht.exists_above (fun m ham hm => ?_) ha
  refine ht.edgesInto_pos ham ?_ ?_ fun hm' => hm (hloose m hm')
  · cases m with
    | terminal value => exact absurd (hkept _ rfl) hm
    | inner i => rfl
  · exact Nat.eq_zero_of_not_pos fun hheld => hm (hkept m (hs.sound.alive_of_held hheld))

/-- A tidy change brings no idle tests: every node lies below one that was there before. -/
theorem Tidy.noIdle (h : s.Tidy t) (hs : s.Valid held) (ht : t.Valid held)
    (hn : s.diagram.NoIdle) : t.diagram.NoIdle := by
  rintro n ⟨b, hb, heq⟩
  obtain ⟨m, hm, hm', hbelow⟩ := ht.exists_root hs (fun _ ha => ha)
    (fun m hm => (h.spares m hm).alive) (Diagram.alive_of_branch? hb)
  exact h.evolves.reduced m hm hm' (hn.reduced m) n hbelow ⟨b, hb, heq⟩

/-! ## Reading a valid store -/

/-- The cofactors of a live node by a variable at its level or above. -/
theorem Valid.splits (h : s.Valid held) (hv : s.order.knows v) (ha : s.diagram.alive n)
    (hle : s.order.levelOf v ≤ s.diagram.levelIn s.order n) :
    s.diagram.Splits s.order v n (s.diagram.cofactorsOf v n) :=
  Diagram.splits_cofactorsOf h.closed h.layered h.lawful hv ha hle

theorem Valid.exists_value (h : s.Valid held) (ha : s.diagram.alive n) (a : Assignment) :
    ∃ x, s.diagram.Value a n x :=
  Diagram.exists_value h.closed h.layered (Diagram.ranks_height _ _) a ha

/-- The values that are given for the variables, by their indices. -/
def assignmentOf (values : Array Bool) : Assignment := fun v => values.getD v.index false

/-- Setting a value is setting it in the assignment. -/
theorem assignmentOf_setIfInBounds {values : Array Bool} {value : Bool}
    (h : v.index < values.size) :
    assignmentOf (values.setIfInBounds v.index value) = (assignmentOf values).set v value := by
  funext w
  by_cases hw : w = v
  · subst hw
    simp [assignmentOf, Assignment.set, h]
  · have hindex : v.index ≠ w.index := by
      intro heq
      cases v
      cases w
      exact hw (congrArg Var.mk heq.symm)
    simp [assignmentOf, Assignment.set, hw, hindex]

/-- With values for all variables, the traversal finds the value of a live node. -/
theorem Valid.evaluate_eq_ok_iff (h : s.Valid held) (ha : s.diagram.alive n) {values : Array Bool}
    (hvalues : s.varCount ≤ values.size) {x : Bool} :
    s.evaluate n values = .ok x ↔ s.diagram.Value (assignmentOf values) n x := by
  rw [Store.evaluate, if_neg (Nat.not_lt.mpr hvalues)]
  exact Diagram.evaluate_eq_ok_iff h.closed h.layered ha

theorem levelOf_eq (ha : s.diagram.alive n) :
    s.levelOf n = .ok (s.diagram.levelIn s.order n) := by
  cases n with
  | terminal value => rfl
  | inner i =>
    obtain ⟨b, hb⟩ := Diagram.exists_branch ha
    simp only [Store.levelOf, Diagram.branch_eq_ok_iff.mpr hb, Diagram.levelIn_of_branch? hb]
    rfl

theorem alive_of_levelOf {l : Level} (h : s.levelOf n = .ok l) : s.diagram.alive n := by
  cases n with
  | terminal value => rfl
  | inner i =>
    cases hb : s.diagram.branch? (.inner i) with
    | none => simp [Store.levelOf, Diagram.branch, hb, bind, Except.bind] at h
    | some b => exact Diagram.alive_of_branch? hb

theorem varAt_eq {l : Level} (hl : s.order.varAt? l = some v) : s.varAt l = .ok v := by
  simp only [Store.varAt, hl]

/-! ## New nodes -/

/-- Of the nodes of a larger diagram, only new ones are without references where the old were
not. -/
theorem Consed.loose {out : NodeId → Prop} (h : Consed s b n t) (hs : s.Sound out held)
    (ht : t.Sound out held) (hm : t.Loose m) : s.Loose m ∨ m = n := by
  obtain ⟨⟨b', hb'⟩, hzero⟩ := hm
  refine (h.old m b' hb').imp (fun hb => ⟨⟨b', hb⟩, ?_⟩) And.left
  have hle := h.grows.subset.edgesInto_le m
  have hcounted := hs.counted m
  have hcounted' := ht.counted m
  omega

/-- A new node over nodes on lower levels leaves the diagram layered. -/
theorem Consed.layered (h : Consed s b n t) (hc : s.diagram.Closed) {o : VarOrder}
    (hl : s.diagram.Layered o) (hlow : s.diagram.alive b.low) (hhigh : s.diagram.alive b.high)
    (hllow : o.levelOf b.var < s.diagram.levelIn o b.low)
    (hlhigh : o.levelOf b.var < s.diagram.levelIn o b.high) : t.diagram.Layered o := by
  intro m b' hb'
  rcases h.old m b' hb' with hb' | ⟨-, rfl⟩
  · obtain ⟨hc1, hc2⟩ := hc m b' hb'
    rw [h.grows.subset.levelIn_eq hc1, h.grows.subset.levelIn_eq hc2]
    exact hl m b' hb'
  · rw [h.grows.subset.levelIn_eq hlow, h.grows.subset.levelIn_eq hhigh]
    exact ⟨hllow, hlhigh⟩

theorem Consed.gains (h : Consed s b n t) (hne : b.low ≠ b.high) {P : NodeId → Prop}
    (hP : ∀ m, m = n → P m) : s.diagram.Gains t.diagram P := by
  intro m b' hb'
  exact (h.old m b' hb').imp_right fun ⟨hm, hb⟩ => ⟨hb ▸ hne, hP m hm⟩

theorem Consed.adds (h : Consed s b n t) (hne : b.low ≠ b.high) : s.Adds [n] t :=
  h.gains hne fun m hm => ⟨m, List.mem_singleton.mpr hm, .refl⟩

theorem Valid.cons (h : s.Valid held) (hv : s.order.knows v) (hlow : s.diagram.alive low)
    (hhigh : s.diagram.alive high) (hllow : s.order.levelOf v < s.diagram.levelIn s.order low)
    (hlhigh : s.order.levelOf v < s.diagram.levelIn s.order high) :
    Gives (s.cons v low high) fun p =>
      p.2.Valid held ∧ Consed s ⟨⟨low, high⟩, v⟩ p.1 p.2 := by
  refine gives_mono (h.sound.cons hv hlow hhigh) fun ⟨n, t⟩ ⟨ht, hcons, _⟩ => ?_
  refine ⟨⟨ht, ?_, ?_, ?_⟩, hcons⟩
  · exact hcons.order ▸ h.lawful
  · have hl := hcons.layered h.closed h.layered hlow hhigh hllow hlhigh
    exact hcons.order ▸ hl
  · exact hcons.computed ▸ h.faithful.evolves (hcons.grows.evolves h.closed)

/-- The node of a shape, or the one child. -/
theorem Valid.consReduced (h : s.Valid held) (hv : s.order.knows v) (hlow : s.diagram.alive low)
    (hhigh : s.diagram.alive high) (hllow : s.order.levelOf v < s.diagram.levelIn s.order low)
    (hlhigh : s.order.levelOf v < s.diagram.levelIn s.order high) :
    Gives (s.consReduced v low high) fun p =>
      s.Made held p.1 p.2 ∧ p.2.diagram.Unfolds v p.1 ⟨low, high⟩ := by
  unfold Store.consReduced
  split
  · rename_i heq
    exact gives_ok ⟨Built.made ⟨h, .refl s, hlow⟩ rfl, Or.inl ⟨heq, rfl⟩⟩
  · rename_i hne
    refine gives_mono (h.cons hv hlow hhigh hllow hlhigh) fun p ⟨hvalid, hcons⟩ => ?_
    exact ⟨⟨hcons.built hvalid, hcons.adds hne⟩, Or.inr ⟨hne, hcons.branch?⟩⟩

theorem Valid.create (h : s.Valid held) (hv : s.order.knows v) (hlow : s.diagram.alive low)
    (hhigh : s.diagram.alive high) (hllow : s.order.levelOf v < s.diagram.levelIn s.order low)
    (hlhigh : s.order.levelOf v < s.diagram.levelIn s.order high) :
    Gives (s.create v low high) fun p =>
      p.2.Valid held ∧ Consed s ⟨⟨low, high⟩, v⟩ p.1 p.2 := by
  have hrun : s.create v low high = s.cons v low high := by
    simp only [Store.create, hv, levelOf_eq hlow, levelOf_eq hhigh, bind, Except.bind, if_pos hllow,
      if_pos hlhigh]
    rfl
  exact hrun ▸ h.cons hv hlow hhigh hllow hlhigh

/-! ## Counts -/

/-- A change of the counts alone, with what is held. -/
theorem Valid.recount {f : Nat → Nat} (h : s.Valid held)
    (hs : (s.recount n f).Sound NoneOut held') : (s.recount n f).Valid held' :=
  ⟨hs, h.lawful, h.layered, h.faithful⟩

theorem Valid.addRef (h : s.Valid held) (ha : s.diagram.alive n) :
    (s.recount n (· + 1)).Valid (held.take n) := h.recount (h.sound.addRef ha)

theorem Valid.dropRef (h : s.Valid held) (ha : s.diagram.alive n)
    (hn : 0 < held n ∨ s.refCount n = 0) : (s.recount n (· - 1)).Valid (held.drop n) :=
  h.recount (h.sound.dropRef ha hn)

theorem Valid.reference (h : s.Valid held) (ha : s.diagram.alive n) :
    Gives (s.reference n) fun p =>
      p.1 = n ∧ p.2 = s.recount n (· + 1) ∧ p.2.Valid (held.take n) := by
  unfold Store.reference
  apply gives_bind_of_eq (addRef_eq s n ha)
  exact gives_pure ⟨rfl, rfl, h.addRef ha⟩

/-! ## Collections -/

/-- What is left of a valid store is valid, if its accounts are right. -/
theorem Valid.of_shrinks (h : s.Valid held) (ht : t.Sound NoneOut held')
    (hd : s.diagram.Shrinks t.diagram) (horder : t.order = s.order)
    (hsub : t.computed.Within s.computed) : t.Valid held' where
  sound := ht
  lawful := horder ▸ h.lawful
  layered := by
    intro m b hb
    obtain ⟨hlow, hhigh⟩ := ht.closed m b hb
    rw [horder, ← hd.subset.levelIn_eq hlow, ← hd.subset.levelIn_eq hhigh]
    exact h.layered m b (hd.subset m b hb)
  faithful := (h.faithful.evolves (hd.evolves ht.closed)).of_subset hsub

theorem Valid.shed (h : s.Valid held) (ht : t.Sound NoneOut held') (hs : s.Shed inside t) :
    t.Valid held' :=
  h.of_shrinks ht hs.shrinks hs.order fun _ _ hk => hs.computed ▸ hk

theorem Shed.moves (hs : s.Shed inside t) {out : NodeId → Prop} (ht : t.Sound out held') :
    s.Moves t where
  evolves := hs.shrinks.evolves ht.closed
  varCount_le := Nat.le_of_eq (by simp only [varCount, hs.order])
  config := hs.config

theorem Valid.release_gives (h : s.Valid held) (ha : s.diagram.alive n)
    (hn : 0 < held n ∨ s.refCount n = 0) :
    Gives (s.release n) fun p =>
      p.2.Valid (held.drop n) ∧ s.Shed (fun _ => True) p.2 ∧ s.Spares p.2 :=
  gives_mono (h.sound.release_gives s.closedPart_all (fun _ _ h => h) trivial ha hn)
    fun _ hp => ⟨h.shed hp.1 hp.2.1, hp.2⟩

theorem Valid.delete_gives (h : s.Valid held) (n : NodeId) :
    Gives (s.delete n) fun p =>
      p.2.Valid held ∧ s.Moves p.2 ∧ s.diagram.Shrinks p.2.diagram :=
  gives_mono (h.sound.delete_gives n) fun _ hp =>
    ⟨h.shed hp.1 hp.2, hp.2.moves hp.1, hp.2.shrinks⟩

theorem Valid.collectGarbage_gives (h : s.Valid held) :
    Gives s.collectGarbage fun p => p.2.Valid held ∧ s.Swept p.1 p.2 :=
  gives_mono h.sound.collectGarbage_gives fun _ ⟨hsound, hswept⟩ =>
    ⟨h.of_shrinks hsound hswept.shrinks hswept.order fun _ _ hk =>
      (ComputedTable.purge_eq_some_iff.mp (hswept.computed ▸ hk)).1, hswept⟩

theorem Swept.moves {k : Nat} (h : s.Swept k t) (ht : t.Valid held) : s.Moves t where
  evolves := h.shrinks.evolves ht.closed
  varCount_le := Nat.le_of_eq (by simp only [varCount, h.order])
  config := h.config

/-! ## Variables -/

theorem valid_new (varCount : Nat) (config : Config) :
    (new varCount config).Valid fun _ => 0 where
  sound := {
    size_counts := rfl
    counted := fun n => by
      simp only [refCount, new, Diagram.edgesInto_empty]
      rcases n with (_ | _) | i <;> simp [NodeId.toNat]
    uncounted := fun n hn => by
      rcases n with (_ | _) | i
      · cases hn
      · cases hn
      · simp [refCount, new, NodeId.toNat]
    live_eq := rfl
    knows := fun n b hb => by simp [new] at hb
    table := by
      have := UniqueTable.lawful_empty varCount config.initialBuckets
      simpa [Store.varCount, new] using this
    entered := fun v k n => by
      simp [new, UniqueTable.entered?_empty]
    out_alive := fun _ hn => hn.elim }
  lawful := VarOrder.lawful_byIndex varCount
  layered := by
    intro n b hb
    simp [new] at hb
  faithful := ComputedTable.faithful_empty _

/-- A new variable lies below all others. -/
theorem Valid.addVariable (h : s.Valid held) : s.addVariable.2.Valid held := by
  have hknown : ∀ n b, s.diagram.branch? n = some b →
      s.order.push.levelOf b.var = s.order.levelOf b.var :=
    fun n b hb => h.lawful.levelOf_push (h.sound.knows n b hb)
  have hlevel : ∀ n, s.diagram.levelIn s.order n ≤ s.diagram.levelIn s.order.push n := by
    intro n
    unfold Diagram.levelIn
    split
    · exact Nat.le_of_eq (hknown n _ ‹_›).symm
    · simp
  obtain ⟨hlawful, hentered⟩ := h.sound.table.ensure
  refine ⟨⟨h.sound.size_counts, h.sound.counted, h.sound.uncounted, h.sound.live_eq, ?_, ?_, ?_,
    h.sound.out_alive⟩, h.lawful.push, ?_, h.faithful⟩
  · exact fun n b hb => VarOrder.knows_push (h.sound.knows n b hb)
  · have hcount : s.addVariable.2.varCount = s.varCount + 1 := VarOrder.size_push _
    exact hcount ▸ hlawful
  · intro v k n
    exact (hentered v k).symm ▸ h.sound.entered v k n
  · intro n b hb
    obtain ⟨hlow, hhigh⟩ := h.layered n b hb
    have := hknown n b hb
    exact ⟨this ▸ Nat.lt_of_lt_of_le hlow (hlevel _), this ▸ Nat.lt_of_lt_of_le hhigh (hlevel _)⟩

theorem moves_addVariable (s : Store) : s.Moves s.addVariable.2 :=
  ⟨.refl _, by simp [varCount, Store.addVariable], rfl⟩

end Store

end DecisionGraph
