import DecisionGraph.Sifting
import DecisionGraph.Proofs.Canonicity
import DecisionGraph.Proofs.Swap

/-!
# The travels of a variable

All that the travels of a variable do to a store are exchanges, each made at a level that has a next
one. They move the variable and leave the others in their order among themselves. So at each point
of its travels the order is known from the level of the variable alone (`VarOrder.Moved.eq`).

That is why the variable can come back to the best level, and find the root as small as it was when
it was measured there: the store is another one by then, but the order and the function of the root
are the same, and without idle tests these determine the size.

* `VarOrder.Moved` — an order in which one variable has another level.
* `Steady`, `Ends` — runs that keep the invariant, whether they are rejected or not.
* `Struck` — such a run is rejected because one of its exchanges is.
* `Measured`, `Travel` — what has been measured on the way, and where the root was smallest.
* `scanDown_gives`, `scanUp_gives`, `settle_gives` — the parts of the travels.
* `Toured`, `siftVariable_tours`, `siftVariables_gives` — the root has the best size in the end.
-/

namespace DecisionGraph

namespace VarOrder

/-- The level of `x` if `v` is left out. -/
def levelWithout (o : VarOrder) (v x : Var) : Nat :=
  if (o.levelOf v : Nat) < o.levelOf x then o.levelOf x - 1 else o.levelOf x

/-- `p` is `o` with `v` moved to level `l`. -/
structure Moved (o : VarOrder) (v : Var) (l : Nat) (p : VarOrder) : Prop where
  lawful : p.Lawful
  size : p.size = o.size
  level : p.levelOf v = l
  others : ∀ x, x ≠ v → p.levelWithout v x = o.levelWithout v x

variable {o p q : VarOrder} {v x y : Var} {k l : Nat}

theorem Lawful.moved (h : o.Lawful) (v : Var) : o.Moved v (o.levelOf v) o :=
  ⟨h, rfl, rfl, fun _ _ => rfl⟩

theorem Moved.knows_iff (h : o.Moved v l p) (x : Var) : p.knows x ↔ o.knows x := by
  rw [VarOrder.knows_iff, VarOrder.knows_iff, h.size]

theorem Moved.lt_size (h : o.Moved v l p) (hv : o.knows v) : l < o.size := by
  have hlt := h.lawful.levelOf_lt ((h.knows_iff v).mpr hv)
  rwa [h.level, h.size] at hlt

theorem Moved.ne_level (h : o.Moved v l p) (hv : o.knows v) (hx : x ≠ v) :
    (p.levelOf x : Nat) ≠ l := fun heq =>
  hx (h.lawful.levelOf_injective ((h.knows_iff v).mpr hv) (h.level.trans heq.symm)).symm

/-- An exchange with a neighbour moves `v` by one level. -/
theorem Moved.exchange (h : o.Moved v k p) (hv : o.knows v) (ha : p.Adjacent l x y)
    (hk : k = l ∨ k = l + 1) : o.Moved v (Level.exchange l k) (p.exchange l x y) where
  lawful := ha.lawful_exchange
  size := (size_exchange _ _ _ _).trans h.size
  level := by rw [ha.levelOf_exchange, h.level]
  others z hz := by
    have hne := h.ne_level hv hz
    rw [← h.others z hz]
    simp only [levelWithout, ha.levelOf_exchange, h.level, Level.exchange]
    grind

/-- There is one order with `v` moved to a given level. -/
theorem Moved.eq (h : o.Moved v l p) (h' : o.Moved v l q) (hv : o.knows v) : p = q := by
  refine h.lawful.ext_levelOf h'.lawful (h.size.trans h'.size.symm) fun x => ?_
  by_cases hx : x = v
  · rw [hx, h.level, h'.level]
  · have hsame := (h.others x hx).trans (h'.others x hx).symm
    have hp := h.ne_level hv hx
    have hq := h'.ne_level hv hx
    simp only [levelWithout, h.level, h'.level] at hsame
    grind

end VarOrder

namespace Store

/-- From `s` to `t` the invariant is kept, and what is held and the number of variables too. -/
structure Steady (held : Holding) (s t : Store) : Prop where
  valid : t.Valid held
  tidy : s.Tidy t
  varCount : t.varCount = s.varCount

/-- A run that started from `s` has been steady. Its result satisfies `P`, or it was rejected with
one of the rejections `E`. -/
structure Ends {α : Type} (held : Holding) (s : Store) (E : Rejection → Prop)
    (P : α → Store → Prop) (p : Except Rejection α × Store) : Prop where
  steady : Steady held s p.2
  result : ∀ a, p.1 = .ok a → P a p.2
  rejected : ∀ e, p.1 = .error e → E e

/-- The rejections of neighbours: a shape is taken. -/
def Clash (e : Rejection) : Prop := ∃ v low high, e = .shapeTaken v low high

/-- A steady run from `s` has come to a store in which an exchange of neighbours is rejected. -/
def Struck (held : Holding) (s : Store) (e : Rejection) : Prop :=
  ∃ t v w, Steady held s t ∧ t.order.Adjacent (t.order.levelOf v) v w ∧
    Store.swap v w t = .ok (.error e, t)

variable {α β : Type} {s t : Store} {held : Holding} {root n : NodeId} {k l size : Nat} {c : Scan}
  {v w : Var} {E : Rejection → Prop}

theorem Valid.steady (h : s.Valid held) : Steady held s s := ⟨h, .refl s, rfl⟩

theorem Steady.trans {u : Store} (h : Steady held s t) (h' : Steady held t u) : Steady held s u :=
  ⟨h'.valid, h.tidy.trans h'.tidy, h'.varCount.trans h.varCount⟩

theorem ends_pure {P : α → Store → Prop} {a : α} (h : Steady held s t) (hP : P a t) :
    Gives ((pure a : Action α) t) (Ends held s E P) :=
  Action.gives_pure ⟨h, fun b hb => by cases hb; exact hP, fun _ he => nomatch he⟩

/-- A run followed by another, both seen from the store that the first started from. -/
theorem ends_bind {x : Action α} {f : α → Action β} {P : α → Store → Prop} {Q : β → Store → Prop}
    {u : Store} (hx : Gives (x u) (Ends held s E P))
    (hf : ∀ a t, Steady held s t → P a t → Gives (f a t) (Ends held s E Q)) :
    Gives ((x >>= f) u) (Ends held s E Q) :=
  Action.gives_bind hx (fun a t ht => hf a t ht.steady (ht.result a rfl)) fun e _ ht =>
    ⟨ht.steady, fun _ ha => (nomatch ha), fun _ he => Except.error.inj he ▸ ht.rejected e rfl⟩

/-- A run that is steady itself goes on from one that has been. -/
theorem Ends.after {P : α → Store → Prop} {p : Except Rejection α × Store} (h : Steady held s t)
    (hp : Ends held t E P p) : Ends held s E P p := ⟨h.trans hp.steady, hp.result, hp.rejected⟩

theorem Ends.anyhow {P : α → Store → Prop} {p : Except Rejection α × Store}
    (hp : Ends held s E P p) : Ends held s (fun _ => True) P p :=
  ⟨hp.steady, hp.result, fun _ _ => trivial⟩

theorem Valid.size_gives (h : s.Valid held) (hn : s.diagram.alive n) :
    ∃ size, s.size n = .ok size := by
  obtain ⟨size, hsize, -⟩ := Diagram.size_gives h.closed h.layered hn
  exact ⟨size, hsize⟩

/-! ## One exchange -/

/-- An exchange is steady, whether it is rejected or not. -/
theorem Valid.swap_ends (h : s.Valid held) (v w : Var) :
    Gives (Store.swap v w s) (Ends held s (s.Hinders v w) fun _ t =>
      s.order.Adjacent (s.order.levelOf v) v w ∧
        t.order = s.order.exchange (s.order.levelOf v) v w) := by
  refine gives_mono (h.swap_or_hinders v w) fun p hp => ?_
  rcases hp with ⟨hok, hvalid, htidy, ho, horder⟩ | ⟨e, rfl, he⟩
  · refine ⟨⟨hvalid, htidy, ?_⟩, fun _ _ => ⟨ho, horder⟩, fun e he => ?_⟩
    · rw [varCount, horder, VarOrder.size_exchange, varCount]
    · cases hok.symm.trans he
  · refine ⟨h.steady, fun _ ha => ?_, fun _ he' => Except.error.inj he' ▸ he⟩
    cases ha

theorem Hinders.clash {e : Rejection} (he : s.Hinders v w e)
    (ho : s.order.Adjacent (s.order.levelOf v) v w) : Clash e := by
  have hv := ho.lawful.knows_of_varAt? ho.upper
  have hw := ho.lawful.knows_of_varAt? ho.lower
  cases he with
  | unknown hx h => rcases hx with rfl | rfl <;> exact absurd ‹_› h
  | last _ h => exact absurd h (Nat.ne_of_lt ho.size_gt)
  | apart _ _ h => exact absurd ho.levelOf_lower h
  | taken => exact ⟨_, _, _, rfl⟩

/-- Neighbours are rejected because a shape is taken. -/
theorem Struck.clash {e : Rejection} (h : Struck held s e) : Clash e := by
  obtain ⟨t, v, w, hsteady, ho, hrun⟩ := h
  exact (((hsteady.valid.swap_ends v w).of_eq hrun).rejected e rfl).clash ho

theorem Struck.after {e : Rejection} (h : Struck held t e) (hs : Steady held s t) :
    Struck held s e := by
  obtain ⟨u, v, w, hsteady, hu⟩ := h
  exact ⟨u, v, w, hs.trans hsteady, hu⟩

theorem swapLevel_gives (h : s.Valid held) (hl : l + 1 < s.varCount) :
    Gives (swapLevel l s) (Ends held s (Struck held s) fun _ t =>
      ∃ v w, s.order.Adjacent l v w ∧ t.order = s.order.exchange l v w) := by
  obtain ⟨v, hv⟩ := VarOrder.varAt?_isSome (Nat.lt_of_succ_lt hl)
  obtain ⟨w, hw⟩ := VarOrder.varAt?_isSome hl
  have hlevel : s.order.levelOf v = l := h.lawful.levelOf_of_varAt? hv
  unfold swapLevel
  apply Action.gives_ask_of_eq (varAt_eq hv)
  apply Action.gives_ask_of_eq (varAt_eq hw)
  obtain ⟨⟨result, t⟩, hrun, hends⟩ := h.swap_ends v w
  refine ⟨_, hrun, hends.steady, fun a ha => ⟨v, w, hlevel ▸ hends.result a ha⟩, ?_⟩
  rintro e rfl
  -- a rejected exchange has changed nothing
  obtain rfl : t = s := by
    rcases (h.swap v w).of_eq hrun with ⟨hok, -⟩ | ⟨e', hp⟩
    · cases hok
    · exact (Prod.mk.inj hp).2
  exact ⟨t, v, w, h.steady, hlevel.symm ▸ ⟨h.lawful, hv, hw⟩, hrun⟩

/-- A steady run has come from `s` to `t`, where `v` has been moved to level `l`. -/
structure Reaches (held : Holding) (s : Store) (v : Var) (l : Nat) (t : Store) : Prop
    extends Steady held s t where
  moved : s.order.Moved v l t.order

theorem Valid.reaches (h : s.Valid held) (v : Var) :
    Reaches held s v (s.order.levelOf v) s := ⟨h.steady, h.lawful.moved v⟩

theorem Reaches.lt_varCount (h : Reaches held s v l t) (hv : s.order.knows v) : l < s.varCount :=
  h.moved.lt_size hv

/-- One exchange of `v` with a neighbour. -/
theorem Reaches.swapLevel (h : Reaches held s v k t) (hv : s.order.knows v)
    (hk : k = l ∨ k = l + 1) (hl : l + 1 < s.varCount) :
    Gives (swapLevel l t)
      (Ends held s (Struck held s) fun _ u => Reaches held s v (Level.exchange l k) u) := by
  refine gives_mono (swapLevel_gives h.valid (by rwa [h.varCount])) fun p hp => ?_
  have hsteady := h.toSteady.trans hp.steady
  refine ⟨hsteady, fun a ha => ⟨hsteady, ?_⟩, fun e he => (hp.rejected e he).after h.toSteady⟩
  obtain ⟨x, y, hadjacent, horder⟩ := hp.result a ha
  rw [horder]
  exact h.moved.exchange hv hadjacent hk

theorem Reaches.swapLevel_down (h : Reaches held s v l t) (hv : s.order.knows v)
    (hl : l + 1 < s.varCount) :
    Gives (Store.swapLevel l t)
      (Ends held s (Struck held s) fun _ u => Reaches held s v (l + 1) u) := by
  have := h.swapLevel hv (Or.inl rfl) hl
  rwa [Level.exchange, if_pos rfl] at this

theorem Reaches.swapLevel_up (h : Reaches held s v (l + 1) t) (hv : s.order.knows v) :
    Gives (Store.swapLevel l t) (Ends held s (Struck held s) fun _ u => Reaches held s v l u) := by
  have := h.swapLevel hv (Or.inr rfl) (h.lt_varCount hv)
  rwa [Level.exchange, if_neg (Nat.succ_ne_self l), if_pos rfl] at this

/-! ## The way of a variable -/

/-- Exchanges at the levels of a list, one after the other. -/
def swapLevels : List Level → Action Unit
  | [] => return ()
  | l :: ls => do
    swapLevel l
    swapLevels ls

theorem moveDown_eq (k l : Nat) : moveDown k l = swapLevels (List.range' l k) := by
  induction k generalizing l with
  | zero => rfl
  | succ k ih =>
    rw [moveDown, ih]
    rfl

/-- Exchanges at the levels of a list lead from `s` to `t`, and `sizes` are the sizes of the root
after each of them, the last one first. -/
inductive Measured (s : Store) (root : NodeId) : List Level → List Nat → Store → Prop where
  | start : Measured s root [] [] s
  | exchange {levels : List Level} {sizes : List Nat} {l size : Nat} {t u : Store}
      (before : Measured s root levels sizes t) (run : swapLevel l t = .ok (.ok (), u))
      (size_eq : u.size root = .ok size) : Measured s root (levels ++ [l]) (size :: sizes) u

theorem Measured.length {levels : List Level} {sizes : List Nat}
    (h : Measured s root levels sizes t) : sizes.length = levels.length := by
  induction h with
  | start => rfl
  | exchange _ _ _ ih => rw [List.length_append, List.length_cons, ih, List.length_singleton]

/-- The last size lies beyond the bound, measured by the best one before it. -/
def Overgrown (bound : GrowthBound) (size : Nat) (sizes : List Nat) : Prop :=
  ∃ last before, sizes = last :: before ∧ bound.exceeded last (before.foldr min size)

theorem foldr_min_le (size : Nat) (sizes : List Nat) : sizes.foldr min size ≤ size := by
  induction sizes with
  | nil => exact Nat.le_refl _
  | cons k sizes ih => exact Nat.le_trans (Nat.min_le_right _ _) ih

/-- In the middle of the travels of `v`, which started from `s` with the root of the given size. By
exchanges at `levels`, the variable has been to all levels from `lo` to `hi`. -/
structure Travel (held : Holding) (s : Store) (root : NodeId) (size : Nat) (v : Var) (lo hi : Nat)
    (levels : List Level) (c : Scan) (t : Store) : Prop where
  here : Reaches held s v c.level t
  measured : Measured s root levels c.sizes t
  swaps : c.swaps = levels.length
  bestSize : c.bestSize = c.sizes.foldr min size
  best : ∃ u, Reaches held s v c.best u ∧ u.size root = .ok c.bestSize
  lo_le : lo ≤ c.best
  le_hi : c.best ≤ hi
  seen : ∀ m, lo ≤ m → m ≤ hi →
    ∃ u i, Reaches held s v m u ∧ u.size root = .ok i ∧ c.bestSize ≤ i

theorem Valid.travel (h : s.Valid held) (hsize : s.size root = .ok size) :
    Travel held s root size v (s.order.levelOf v) (s.order.levelOf v) []
      (.start (s.order.levelOf v) size) s where
  here := h.reaches v
  measured := .start
  swaps := rfl
  bestSize := rfl
  best := ⟨s, h.reaches v, hsize⟩
  lo_le := Nat.le_refl _
  le_hi := Nat.le_refl _
  seen m hlo hhi := by
    obtain rfl : m = s.order.levelOf v := Nat.le_antisymm hhi hlo
    exact ⟨s, size, h.reaches v, hsize, Nat.le_refl _⟩

/-- One exchange further, to level `m`, which may be new. -/
theorem Travel.arrive {lo hi lo' hi' m : Nat} {levels : List Level} {u : Store}
    (h : Travel held s root size v lo hi levels c t) (hrun : swapLevel l t = .ok (.ok (), u))
    (hu : Reaches held s v m u) (hk : u.size root = .ok k) (hlo : lo' ≤ lo) (hhi : hi ≤ hi')
    (hm : lo' ≤ m ∧ m ≤ hi')
    (hnew : ∀ j, lo' ≤ j → j ≤ hi' → j = m ∨ lo ≤ j ∧ j ≤ hi) :
    Travel held s root size v lo' hi' (levels ++ [l]) (c.arrive m k) u where
  here := hu
  measured := h.measured.exchange hrun hk
  swaps := by rw [List.length_append, ← h.swaps]; rfl
  bestSize := by
    simp only [Scan.arrive, List.foldr_cons, ← h.bestSize]
    split <;> omega
  best := by
    simp only [Scan.arrive]
    split
    · exact ⟨u, hu, hk⟩
    · exact h.best
  lo_le := by
    have := h.lo_le
    simp only [Scan.arrive]
    split <;> omega
  le_hi := by
    have := h.le_hi
    simp only [Scan.arrive, Level] at this ⊢
    split <;> omega
  seen j hj hj' := by
    have hbest : (c.arrive m k).bestSize ≤ c.bestSize ∧ (c.arrive m k).bestSize ≤ k := by
      simp only [Scan.arrive]
      constructor <;> split <;> omega
    rcases hnew j hj hj' with rfl | ⟨hj, hj'⟩
    · exact ⟨u, k, hu, hk, hbest.2⟩
    · obtain ⟨w, i, hw, hi, hle⟩ := h.seen j hj hj'
      exact ⟨w, i, hw, hi, Nat.le_trans hbest.1 hle⟩

/-- A run of which the result is known. -/
theorem ends_run {x : Action α} {P : α → Store → Prop} (hx : Gives (x t) (Ends held s E P)) :
    Gives (x t) (Ends held s E fun a u => P a u ∧ x t = .ok (.ok a, u)) := by
  obtain ⟨⟨result, u⟩, hrun, hends⟩ := hx
  refine ⟨_, hrun, hends.steady, fun a ha => ⟨hends.result a ha, ?_⟩, hends.rejected⟩
  rw [hrun, ← ha]

theorem Steady.maxGrowth (h : Steady held s t) : t.config.maxGrowth = s.config.maxGrowth :=
  congrArg Config.maxGrowth h.tidy.config

section Travels

variable (hroot : 0 < held root) (hv : s.order.knows v)

include hroot hv

/-- Travelling down, the variable comes to new levels. -/
theorem scanDown_gives {start : Nat} (hstart : start ≤ c.level)
    (h : Travel held s root size v start c.level (List.range' start (c.level - start)) c t)
    (hk : c.level + k + 1 = s.varCount) :
    Gives (scanDown root k c t) (Ends held s (Struck held s) fun d u => start ≤ d.level ∧
      Travel held s root size v start d.level (List.range' start (d.level - start)) d u ∧
      (d.level + 1 < s.varCount → Overgrown s.config.maxGrowth size d.sizes)) := by
  induction k generalizing c t with
  | zero => exact ends_pure h.here.toSteady ⟨hstart, h, fun hlt => absurd hk (Nat.ne_of_lt hlt)⟩
  | succ k ih =>
    dsimp only [Level] at hk
    unfold scanDown
    refine ends_bind (ends_run (h.here.swapLevel_down hv (by omega))) fun _ u _ ⟨hu, hrun⟩ => ?_
    obtain ⟨i, hi⟩ := hu.valid.size_gives (hu.valid.sound.alive_of_held hroot)
    apply Action.gives_ask_of_eq hi
    have harrive : Travel held s root size v start (c.level + 1)
        (List.range' start (c.level + 1 - start)) (c.arrive (c.level + 1) i) u := by
      have hlevels : List.range' start (c.level + 1 - start) =
          List.range' start (c.level - start) ++ [c.level] := by
        rw [Nat.sub_add_comm hstart, List.range'_concat]
        congr 2
        omega
      rw [hlevels]
      exact h.arrive hrun hu hi (Nat.le_refl _) (Nat.le_succ _) (by omega) (by omega)
    rw [Action.store_bind]
    split
    · rename_i hcut
      refine ends_pure hu.toSteady
        ⟨Nat.le_succ_of_le hstart, harrive, fun _ => ⟨i, c.sizes, rfl, ?_⟩⟩
      rw [← h.bestSize, ← hu.toSteady.maxGrowth]
      exact hcut.2
    · refine ih (Nat.le_succ_of_le hstart) harrive ?_
      dsimp only [Level, Scan.arrive, Level.next]
      omega

/-- Travelling up, the variable comes from the level below the one it is exchanged with. New levels
are those above `start`. -/
theorem scanUp_gives {start bottom : Nat} {downs : List Level} (hbottom : k ≤ bottom)
    (h : Travel held s root size v (min start k) bottom
      (downs ++ (List.range' k (bottom - k)).reverse) c t) (hk : c.level = k) :
    Gives (scanUp root start k c t) (Ends held s (Struck held s) fun d u =>
      d.level ≤ start ∧ d.level ≤ bottom ∧ c.sizes <:+ d.sizes ∧
      Travel held s root size v d.level bottom
        (downs ++ (List.range' d.level (bottom - d.level)).reverse) d u ∧
      (0 < d.level → Overgrown s.config.maxGrowth size d.sizes)) := by
  induction k generalizing c t with
  | zero =>
    rw [Nat.min_zero] at h
    exact ends_pure h.here.toSteady ⟨hk ▸ Nat.zero_le _, hk ▸ Nat.zero_le _, List.suffix_refl _,
      hk ▸ h, fun hlt => absurd hk (Nat.ne_of_gt hlt)⟩
  | succ k ih =>
    have hhere := h.here
    rw [hk] at hhere
    unfold scanUp
    refine ends_bind (ends_run (hhere.swapLevel_up hv)) fun _ u _ ⟨hu, hrun⟩ => ?_
    obtain ⟨i, hi⟩ := hu.valid.size_gives (hu.valid.sound.alive_of_held hroot)
    apply Action.gives_ask_of_eq hi
    have harrive : Travel held s root size v (min start k) bottom
        (downs ++ (List.range' k (bottom - k)).reverse) (c.arrive k i) u := by
      have hlevels : (List.range' k (bottom - k)).reverse =
          (List.range' (k + 1) (bottom - (k + 1))).reverse ++ [k] := by
        have hsucc : bottom - k = bottom - (k + 1) + 1 := by omega
        rw [hsucc, List.range'_succ, List.reverse_cons]
      rw [hlevels, ← List.append_assoc]
      exact h.arrive hrun hu hi (by omega) (Nat.le_refl _) (by omega) (by omega)
    rw [Action.store_bind]
    split
    · rename_i hcut
      have hlt : k ≤ start := Nat.le_of_lt hcut.1
      rw [Nat.min_eq_right hlt] at harrive
      refine ends_pure hu.toSteady ⟨hlt, Nat.le_of_succ_le hbottom, List.suffix_cons i c.sizes,
        harrive, fun _ => ⟨i, c.sizes, rfl, ?_⟩⟩
      rw [← h.bestSize, ← hu.toSteady.maxGrowth]
      exact hcut.2.2
    · refine gives_mono (ih (Nat.le_of_succ_le hbottom) harrive rfl) fun p hp => ⟨hp.steady,
        fun d hd => ?_, hp.rejected⟩
      obtain ⟨hstart, hbottom', hsizes, hrest⟩ := hp.result d hd
      exact ⟨hstart, hbottom', (List.suffix_cons i c.sizes).trans hsizes, hrest⟩

omit hroot

theorem moveDown_gives (h : Reaches held s v l t) (hk : l + k < s.varCount) :
    Gives (moveDown k l t) (Ends held s (Struck held s) fun _ => Reaches held s v (l + k)) := by
  induction k generalizing l t with
  | zero => exact ends_pure h.toSteady h
  | succ k ih =>
    unfold moveDown
    refine ends_bind (h.swapLevel_down hv (by omega)) fun _ u _ hu => ?_
    have hrest := ih hu (by omega)
    rwa [Nat.add_assoc, Nat.add_comm 1 k] at hrest

/-- The variable goes down to the best level, since it has been on no level above the one where it
is. -/
theorem settle_gives {hi : Nat} {levels : List Level}
    (h : Travel held s root size v c.level hi levels c t) :
    Gives (settle c t) (Ends held s (Struck held s) fun d u =>
      Reaches held s v c.best u ∧
      swapLevels (List.range' c.level (c.best - c.level)) t = .ok (.ok (), u) ∧
      d = { c with level := c.best, swaps := c.swaps + (c.best - c.level) }) := by
  obtain ⟨w, hw, -⟩ := h.best
  obtain ⟨k, hk⟩ := Nat.exists_eq_add_of_le h.lo_le
  have hdown : c.best - c.level = k := hk ▸ Nat.add_sub_cancel_left _ k
  have hup : c.level - c.best = 0 := Nat.sub_eq_zero_of_le h.lo_le
  unfold settle
  rw [hup, hdown]
  refine ends_bind (ends_run (moveDown_gives hv h.here (hk ▸ hw.lt_varCount hv)))
    fun _ u _ ⟨hu, hrun⟩ => ?_
  rw [← hk] at hu
  rw [moveDown_eq] at hrun
  exact ends_bind (ends_pure (P := fun _ u' => u' = u) hu.toSteady rfl)
    fun _ u' hs hu' => ends_pure hs ⟨hu' ▸ hu, hu' ▸ hrun, rfl⟩

end Travels

/-! ## The best size -/

/-- With the variable on the same level, the root has the same size. -/
theorem Reaches.size_eq {u : Store} (h : Reaches held s v l t) (h' : Reaches held s v l u)
    (hs : s.Valid held) (hroot : 0 < held root) (hv : s.order.knows v)
    (hr : s.diagram.Reduced root) : t.size root = u.size root := by
  have ha := hs.sound.alive_of_held hroot
  have ht := h.valid.sound.alive_of_held hroot
  have hu := h'.valid.sound.alive_of_held hroot
  refine h.valid.size_eq h'.valid (h'.moved.eq h.moved hv) ht hu (h.tidy.evolves.reduced _ ha ht hr)
    (h'.tidy.evolves.reduced _ ha hu hr) fun a x => ?_
  rw [← h.tidy.evolves.value _ ha ht, h'.tidy.evolves.value _ ha hu]

/-- The travels of `v` from `s` to `t`: down to the level `bottom`, up to `top`, where they come to
the store `u`, and back to the best level between them. The root is measured after each exchange of
the first two legs, and left at the best size. A leg ends early only where the root has grown beyond
the bound. -/
structure Toured (held : Holding) (s : Store) (root : NodeId) (size : Nat) (v : Var) (d : Scan)
    (t : Store) (bottom top : Nat) (u : Store) : Prop where
  start_le : s.order.levelOf v ≤ bottom
  bottom_lt : bottom < s.varCount
  top_le_start : top ≤ s.order.levelOf v
  top_le : top ≤ d.level
  le_bottom : d.level ≤ bottom
  measured : Measured s root (List.range' (s.order.levelOf v) (bottom - s.order.levelOf v) ++
    (List.range' top (bottom - top)).reverse) d.sizes u
  back : swapLevels (List.range' top (d.level - top)) u = .ok (.ok (), t)
  swaps : d.swaps = (bottom - s.order.levelOf v) + (bottom - top) + (d.level - top)
  there : Reaches held s v d.level t
  size_eq : t.size root = .ok d.bestSize
  bestSize : d.bestSize = d.sizes.foldr min size
  seen : ∀ m, top ≤ m → m ≤ bottom →
    ∃ w i, Reaches held s v m w ∧ w.size root = .ok i ∧ d.bestSize ≤ i
  cut_down : bottom + 1 < s.varCount → ∃ downs, downs <:+ d.sizes ∧
    downs.length = bottom - s.order.levelOf v ∧ Overgrown s.config.maxGrowth size downs
  cut_up : 0 < top → Overgrown s.config.maxGrowth size d.sizes

/-- The travels of one managed variable. -/
theorem siftVariable_tours (h : s.Valid held) (hroot : 0 < held root) (hv : s.order.knows v)
    (hr : s.diagram.Reduced root) (hsize : s.size root = .ok size) :
    Gives (siftVariable root v s) (Ends held s (Struck held s) fun d t =>
      ∃ bottom top u, Toured held s root size v d t bottom top u) := by
  have hlevel : (s.order.levelOf v : Nat) < s.varCount := h.lawful.levelOf_lt hv
  have hstart : Travel held s root size v (s.order.levelOf v) (s.order.levelOf v)
      (List.range' (s.order.levelOf v) (s.order.levelOf v - s.order.levelOf v))
      (.start (s.order.levelOf v) size) s := by
    rw [Nat.sub_self]
    exact h.travel hsize
  unfold siftVariable
  rw [Action.store_bind]
  apply Action.gives_ask_of_eq hsize
  rw [Action.store_bind]
  refine ends_bind (scanDown_gives hroot hv (Nat.le_refl _) hstart ?_)
    fun b t _ ⟨hle, hb, hcut⟩ => ?_
  · dsimp only [Level, Scan.start, Level.next] at hlevel ⊢
    omega
  dsimp only [Scan.start] at hle hb
  have hturn : Travel held s root size v (min (s.order.levelOf v) b.level) b.level
      (List.range' (s.order.levelOf v) (b.level - s.order.levelOf v) ++
        (List.range' b.level (b.level - b.level)).reverse) b t := by
    rw [Nat.min_eq_left hle, Nat.sub_self, List.range'_zero, List.reverse_nil, List.append_nil]
    exact hb
  refine ends_bind (scanUp_gives hroot hv (Nat.le_refl _) hturn rfl)
    fun c u _ ⟨htop, hbottom, hsuffix, hc, hcut'⟩ => ?_
  refine gives_mono (settle_gives hv hc) fun p hp => ⟨hp.steady, fun d hd => ?_, hp.rejected⟩
  obtain ⟨hthere, hback, rfl⟩ := hp.result d hd
  obtain ⟨w, hw, hwsize⟩ := hc.best
  refine ⟨b.level, c.level, u, hle, hb.here.lt_varCount hv, htop, hc.lo_le, hc.le_hi, hc.measured,
    hback, ?_, hthere, (hthere.size_eq hw h hroot hv hr).trans hwsize, hc.bestSize, hc.seen,
    fun hlt => ⟨b.sizes, hsuffix, ?_, hcut hlt⟩, hcut'⟩
  · rw [hc.swaps, List.length_append, List.length_reverse, List.length_range', List.length_range']
  · rw [hb.measured.length, List.length_range']

/-- The travels of one managed variable leave the root at the best size that was met. -/
theorem siftVariable_gives (h : s.Valid held) (hroot : 0 < held root) (hv : s.order.knows v)
    (hr : s.diagram.Reduced root) (hsize : s.size root = .ok size) :
    Gives (siftVariable root v s) (Ends held s (Struck held s) fun c t =>
      t.size root = .ok c.bestSize ∧ c.bestSize ≤ size) := by
  refine gives_mono (siftVariable_tours h hroot hv hr hsize) fun p hp =>
    ⟨hp.steady, fun c hc => ?_, hp.rejected⟩
  obtain ⟨bottom, top, u, htoured⟩ := hp.result c hc
  exact ⟨htoured.size_eq, htoured.bestSize ▸ foldr_min_le _ _⟩

/-- The travels of several variables. The best size is the size of the root all the time. -/
theorem siftVariables_gives {vs : List Var} (stats : SiftStats) (h : s.Valid held)
    (hroot : 0 < held root) (hvs : ∀ v ∈ vs, s.order.knows v) (hr : s.diagram.Reduced root)
    (hsize : s.size root = .ok stats.bestSize) :
    Gives (siftVariables root vs stats s) (Ends held s (Struck held s) fun stats' t =>
      t.size root = .ok stats'.bestSize ∧ stats'.bestSize ≤ stats.bestSize ∧
        stats'.initialSize = stats.initialSize ∧ stats'.sifted = stats.sifted + vs.length) := by
  induction vs generalizing s stats with
  | nil => exact ends_pure h.steady ⟨hsize, Nat.le_refl _, rfl, rfl⟩
  | cons v vs ih =>
    unfold siftVariables
    refine ends_bind (siftVariable_gives h hroot (hvs v List.mem_cons_self) hr hsize)
      fun c t ht ⟨hbest, hle⟩ => ?_
    have hmin : min stats.bestSize c.bestSize = c.bestSize := Nat.min_eq_right hle
    rw [hmin]
    refine gives_mono (ih _ ht.valid (fun w hw => ?_) (ht.tidy.evolves.reduced _
      (h.sound.alive_of_held hroot) (ht.valid.sound.alive_of_held hroot) hr) hbest)
      fun p hp => ⟨ht.trans hp.steady, fun stats' hstats => ?_,
        fun e he => (hp.rejected e he).after ht⟩
    · have hknows := VarOrder.knows_iff.mp (hvs w (List.mem_cons_of_mem _ hw))
      have hcount : t.order.size = s.order.size := ht.varCount
      exact VarOrder.knows_iff.mpr (hcount ▸ hknows)
    · obtain ⟨hsize', hle', hinitial, hsifted⟩ := hp.result stats' hstats
      refine ⟨hsize', Nat.le_trans hle' hle, hinitial, hsifted.trans ?_⟩
      rw [List.length_cons, Nat.add_assoc, Nat.add_comm 1]

end Store

end DecisionGraph
