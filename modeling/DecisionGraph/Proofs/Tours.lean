import DecisionGraph.Proofs.Isomorphism

/-!
# The best level

A variable that has travelled stays on the level where the root was smallest, of all levels it came
to. The size of the root does not depend on the way to a level: the order is known from the level of
the variable, the function of the root is what it was, and there are no idle tests below it. So
where no bound on growth has cut the travels short, the root becomes no smaller by any further
exchanges of the variable, whatever they have collected and made on their way.

* `VarOrder.Moved.levelOf_lt_iff` — the other variables keep their order.
* `Toured.level_succ_lt` — the exchanges of the travels are within the order.
* `Reaches.swapAll` — exchanges of one variable move nothing else.
* `siftVariable_best` — the travels of a variable, and where they end.
-/

namespace DecisionGraph

/-- Moving one variable keeps the order of the others. -/
theorem VarOrder.Moved.levelOf_lt_iff {o p : VarOrder} {v x y : Var} {l : Nat} (h : o.Moved v l p)
    (ho : o.Lawful) (hv : o.knows v) (hx : x ≠ v) (hy : y ≠ v) :
    (p.levelOf x : Nat) < p.levelOf y ↔ (o.levelOf x : Nat) < o.levelOf y := by
  have hstay := ho.moved v
  have hxo := hstay.ne_level hv hx
  have hyo := hstay.ne_level hv hy
  have hxp := h.ne_level hv hx
  have hyp := h.ne_level hv hy
  have hxsame := h.others x hx
  have hysame := h.others y hy
  simp only [levelWithout, h.level] at hxsame hysame
  dsimp only [Level] at *
  grind

namespace Store

variable {s t u : Store} {held : Holding} {root : NodeId} {v x y : Var} {l size bottom top : Nat}
  {d : Scan}

/-! ## The exchanges of the travels -/

/-- The levels at which the travels exchange: down, up, and back to the best level. -/
def tourLevels (start bottom top best : Nat) : List Level :=
  List.range' start (bottom - start) ++ (List.range' top (bottom - top)).reverse ++
    List.range' top (best - top)

theorem swapLevels_append {ks ls : List Level} (hks : swapLevels ks s = .ok (.ok (), t)) :
    swapLevels (ks ++ ls) s = swapLevels ls t := by
  induction ks generalizing s with
  | nil =>
    cases hks
    rfl
  | cons k ks ih =>
    rw [swapLevels] at hks
    obtain ⟨_, u, hk, hks⟩ := Action.of_bind hks
    rw [List.cons_append, swapLevels, Action.bind_of_ok hk]
    exact ih hks

theorem Measured.swapLevels_eq {levels : List Level} {sizes : List Nat}
    (h : Measured s root levels sizes t) : swapLevels levels s = .ok (.ok (), t) := by
  induction h with
  | start => rfl
  | exchange _ hrun _ ih =>
    rw [swapLevels_append ih, swapLevels, Action.bind_of_ok hrun]
    rfl

/-- The travels are these exchanges. -/
theorem Toured.swapLevels_eq (h : Toured held s root size v d t bottom top u) :
    swapLevels (tourLevels (s.order.levelOf v) bottom top d.level) s = .ok (.ok (), t) := by
  rw [tourLevels, swapLevels_append h.measured.swapLevels_eq]
  exact h.back

theorem Toured.swaps_eq (h : Toured held s root size v d t bottom top u) :
    d.swaps = (tourLevels (s.order.levelOf v) bottom top d.level).length := by
  simp only [tourLevels, List.length_append, List.length_reverse, List.length_range']
  exact h.swaps

/-- Each exchange is at a level that has a next one. -/
theorem Toured.level_succ_lt (h : Toured held s root size v d t bottom top u)
    (hl : l ∈ tourLevels (s.order.levelOf v) bottom top d.level) : l + 1 < s.varCount := by
  have hbottom := h.bottom_lt
  have hbest := h.le_bottom
  simp only [tourLevels, List.mem_append, List.mem_reverse, List.mem_range'_1] at hl
  dsimp only [Level] at *
  omega

/-! ## Further exchanges of one variable -/

/-- An exchange of `v` with any variable. -/
theorem Reaches.swap (h : Reaches held s v l t) (hv : s.order.knows v) (hxy : x = v ∨ y = v) :
    Gives (Store.swap x y t)
      (Ends held s (fun _ => True) fun _ u => ∃ m, Reaches held s v m u) := by
  refine gives_mono (h.valid.swap_ends x y) fun p hp => ?_
  have hsteady := h.toSteady.trans hp.steady
  refine ⟨hsteady, fun a ha => ?_, fun _ _ => trivial⟩
  obtain ⟨hadjacent, horder⟩ := hp.result a ha
  have hlevel : l = t.order.levelOf x ∨ l = (t.order.levelOf x : Nat) + 1 := by
    rcases hxy with rfl | rfl
    · exact Or.inl h.moved.level.symm
    · exact Or.inr (h.moved.level.symm.trans hadjacent.levelOf_lower)
  refine ⟨Level.exchange (t.order.levelOf x) l, hsteady, ?_⟩
  rw [horder]
  exact h.moved.exchange hv hadjacent hlevel

/-- Exchanges of `v` alone, one after the other. -/
theorem Reaches.swapAll (h : Reaches held s v l t) (hv : s.order.knows v)
    {swaps : List (Var × Var)} (hswaps : ∀ p ∈ swaps, p.1 = v ∨ p.2 = v) :
    Gives (Store.swapAll swaps t)
      (Ends held s (fun _ => True) fun _ u => ∃ m, Reaches held s v m u) := by
  induction swaps generalizing l t with
  | nil => exact ends_pure h.toSteady ⟨l, h⟩
  | cons p rest ih =>
    refine ends_bind (h.swap hv (hswaps p List.mem_cons_self)) fun _ u _ ⟨m, hm⟩ => ?_
    exact ih hm fun q hq => hswaps q (List.mem_cons_of_mem _ hq)

/-- Where the travels have been to every level, the root is not smaller on any of them. -/
theorem Toured.size_le (h : Toured held s root size v d t bottom top u) (hs : s.Valid held)
    (hroot : 0 < held root) (hv : s.order.knows v) (hr : s.diagram.Reduced root)
    (hbottom : bottom + 1 = s.varCount) (htop : top = 0) {w : Store} (hw : Reaches held s v l w) :
    ∃ i, w.size root = .ok i ∧ d.bestSize ≤ i := by
  have hl : l ≤ bottom := Nat.le_of_lt_succ (Nat.lt_of_lt_of_eq (hw.lt_varCount hv) hbottom.symm)
  obtain ⟨w', i, hw', hi, hle⟩ := h.seen l (htop ▸ Nat.zero_le l) hl
  exact ⟨i, (hw.size_eq hw' hs hroot hv hr).trans hi, hle⟩

/-- The account of one variable. -/
theorem siftVariables_singleton {stats : SiftStats}
    (hrun : siftVariable root v s = .ok (.ok d, t)) :
    siftVariables root [v] stats s = .ok (.ok
      { stats with
        swaps := stats.swaps + d.swaps
        bestSize := min stats.bestSize d.bestSize
        sifted := stats.sifted + 1 }, t) := by
  rw [siftVariables, Action.bind_of_ok hrun]
  rfl

end Store

namespace Client

variable {c : Client} {root : NodeId} {v : Var}

/-- The travels of a variable end, rejected or not. If they are not rejected, the other variables
have kept their order, every exchange was within it and has been counted, and the size of the root
is the smallest of those at the start and after an exchange down or up. Where the travels came to
the bottom and to the top, no further exchanges of the variable make the root smaller. -/
theorem siftVariable_best (hc : Reachable c) (hroot : 0 < c.held root)
    (hr : c.store.diagram.Reduced root) (hv : c.store.order.knows v) :
    ∃ result t, Store.siftVariable root v c.store = .ok (result, t) ∧ ∀ d, result = .ok d →
      (∀ x y, x ≠ v → y ≠ v →
        ((t.order.levelOf x : Nat) < t.order.levelOf y ↔
          (c.store.order.levelOf x : Nat) < c.store.order.levelOf y)) ∧
      ∃ size bottom top u levels, c.store.size root = .ok size ∧
        Store.Toured c.held c.store root size v d t bottom top u ∧
        levels = Store.tourLevels (c.store.order.levelOf v) bottom top d.level ∧
        (∀ l ∈ levels, l + 1 < c.store.varCount) ∧
        Store.swapLevels levels c.store = .ok (.ok (), t) ∧
        t.size root = .ok (d.sizes.foldr min size) ∧
        (∀ stats, Store.siftVariables root [v] stats c.store = .ok (.ok
          { stats with
            swaps := stats.swaps + levels.length
            bestSize := min stats.bestSize (d.sizes.foldr min size)
            sifted := stats.sifted + 1 }, t)) ∧
        (bottom + 1 = c.store.varCount → top = 0 → ∀ swaps w, (∀ p ∈ swaps, p.1 = v ∨ p.2 = v) →
          Store.swapAll swaps t = .ok (.ok (), w) →
          ∃ i, w.size root = .ok i ∧ d.sizes.foldr min size ≤ i) := by
  have hvalid := hc.valid
  obtain ⟨size, hsize⟩ := hvalid.size_gives (hvalid.sound.alive_of_held hroot)
  obtain ⟨⟨result, t⟩, hrun, hends⟩ := Store.siftVariable_tours hvalid hroot hv hr hsize
  refine ⟨result, t, hrun, fun d hd => ?_⟩
  subst hd
  obtain ⟨bottom, top, u, h⟩ := hends.result d rfl
  refine ⟨fun x y hx hy => h.there.moved.levelOf_lt_iff hvalid.lawful hv hx hy, size, bottom, top,
    u, _, hsize, h, rfl, fun l hl => h.level_succ_lt hl, h.swapLevels_eq, h.bestSize ▸ h.size_eq,
    fun stats => ?_, fun hbottom htop swaps w hswaps hexchanges => ?_⟩
  · rw [Store.siftVariables_singleton hrun, h.swaps_eq, h.bestSize]
  · obtain ⟨l, hw⟩ := ((h.there.swapAll hv hswaps).of_eq hexchanges).result () rfl
    obtain ⟨i, hi, hle⟩ := h.size_le hvalid hroot hv hr hbottom htop hw
    exact ⟨i, hi, h.bestSize ▸ hle⟩

/-- The choice between two variables by a third one, which is the middle one of the order. It is
largest with that at the bottom and smallest with that at the top. -/
theorem siftVariable_best_choice : ∃ c : Client,
    (start 3 ⟨1, ⟨0x3FF3333333333333⟩⟩).after [.createHeld ⟨0⟩ .zero .one,
      .createHeld ⟨1⟩ .zero .one, .createHeld ⟨2⟩ .zero .one,
      .ite (.inner 1) (.inner 0) (.inner 2), .reference (.inner 5)] = some c ∧
    ∃ t, Store.siftVariable (.inner 5) ⟨1⟩ c.store = .ok (.ok ⟨0, 0, 5, [5, 6, 7], 3⟩, t) ∧
      c.store.size (.inner 5) = .ok 6 ∧ t.size (.inner 5) = .ok 5 ∧
      Store.swapLevels [1, 1, 0] c.store = .ok (.ok (), t) ∧
      ∀ swaps w, (∀ p ∈ swaps, p.1 = ⟨1⟩ ∨ p.2 = ⟨1⟩) →
        Store.swapAll swaps t = .ok (.ok (), w) → ∃ i, w.size (.inner 5) = .ok i ∧ 5 ≤ i := by
  let calls : List Call := [.createHeld ⟨0⟩ .zero .one, .createHeld ⟨1⟩ .zero .one,
    .createHeld ⟨2⟩ .zero .one, .ite (.inner 1) (.inner 0) (.inner 2), .reference (.inner 5)]
  have hends : ((start 3 ⟨1, ⟨0x3FF3333333333333⟩⟩).after calls).map (fun c =>
      (decide (0 < c.held (.inner 5) ∧ c.store.order.knows ⟨1⟩ ∧
        c.store.order.levelOf ⟨1⟩ = (1 : Nat) ∧ c.store.varCount = 3 ∧
        c.store.size (.inner 5) = .ok 6),
        (Store.siftVariable (.inner 5) ⟨1⟩ c.store).map Prod.fst)) =
      some (true, .ok (.ok ⟨0, 0, 5, [5, 6, 7], 3⟩)) := by
    decide +kernel
  obtain ⟨c, hc, hfound⟩ := Option.map_eq_some_iff.mp hends
  simp only [Prod.mk.injEq, decide_eq_true_eq] at hfound
  obtain ⟨⟨hheld, hknows, hlevel, hcount, hsize⟩, hsift⟩ := hfound
  have hidle := noIdle_of_after (.start 3 ⟨1, ⟨0x3FF3333333333333⟩⟩) Diagram.noIdle_empty
    (by decide : ∀ call ∈ calls, call.AvoidsIdle) hc
  obtain ⟨result, t, hrun, hbest⟩ :=
    siftVariable_best (reachable_of_after hc) hheld (hidle.reduced _) hknows
  rw [hrun, Except.map, Except.ok.injEq] at hsift
  dsimp only at hsift
  subst hsift
  obtain ⟨-, size, bottom, top, u, levels, hsize', htoured, hlevels, -, hexchanges, hsmallest, -,
    hoptimal⟩ := hbest _ rfl
  obtain rfl : size = 6 := Except.ok.inj (hsize'.symm.trans hsize)
  -- three exchanges are enough for the way to the bottom and to the top only
  have htop : top = 0 := Nat.le_zero.mp htoured.top_le
  have hbottom : bottom = 2 := by
    have hstart := htoured.start_le
    have hswaps := htoured.swaps
    dsimp only [Level] at *
    omega
  subst htop hbottom
  rw [hlevel] at hlevels
  subst hlevels
  exact ⟨c, hc, t, hrun, hsize, hsmallest, hexchanges, hoptimal hcount.symm rfl⟩

end Client

end DecisionGraph
