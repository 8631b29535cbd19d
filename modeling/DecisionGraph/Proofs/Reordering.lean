import DecisionGraph.Proofs.Runs

/-!
# What clients see of reordering

A client that exchanges variables or sifts them keeps its nodes. An exchange either succeeds or
leaves the store as it was: once the look ahead has passed, no rotation is rejected or broken off,
whatever the rotations before it have made and collected. Sifting returns a node with the function
of the root, which is not larger and has no idle test below it, and what sifting has made on the way
does not stay behind.

All this holds in every reachable state, with idle tests in it or not, and for every bound on
growth.
-/

namespace DecisionGraph

namespace Client

variable {c : Client} {root : NodeId}

/-! ## Exchanges -/

/-- An exchange that is rejected has changed nothing. When the look ahead finds no conflict, the
nodes to rotate leave the unique table, each rotation succeeds in its turn, and so does the call. -/
theorem swap_atomic (hc : Reachable c) (v w : Var) :
    (∃ result t, Store.swap v w c.store = .ok (result, t) ∧ ∀ e, result = .error e → t = c.store) ∧
      ∀ plan, c.store.misplaced? v w = none → c.store.rotations v w = .ok plan →
        c.store.conflict? v w plan [] = .ok none →
        (∃ s, Store.withdraw v plan c.store = .ok s ∧
          ∀ first r rest, plan = first ++ r :: rest →
            ∃ t u, Store.rotateAll v w first s = .ok (.ok (), t) ∧
              Store.rotate v w r t = .ok (.ok (), u)) ∧
        ∃ t, Store.swap v w c.store = .ok (.ok (), t) := by
  have hvalid := hc.valid
  constructor
  · obtain ⟨⟨result, t⟩, hrun, hp⟩ := hvalid.swap v w
    refine ⟨result, t, hrun, ?_⟩
    rintro e rfl
    rcases hp with ⟨hok, -⟩ | ⟨e', hp⟩
    · cases hok
    · cases hp
      rfl
  · intro plan hplace hplan hfree
    have ho := Store.misplaced?_eq_none hplace hvalid.lawful
    obtain ⟨s, hs, hexchanging, -⟩ := ((hvalid.begins hplace).of_eq hplan).of_eq hfree rfl
    obtain ⟨⟨_, t⟩, hrun, rfl, -⟩ := hvalid.swap_of_free hplace hplan hfree
    refine ⟨⟨s, hs, ?_⟩, t, hrun⟩
    rintro first r rest rfl
    obtain ⟨⟨_, t⟩, ht, rfl, hexchanging, -⟩ := hexchanging.rotateAll ho
    obtain ⟨⟨_, u⟩, hu, rfl, -⟩ := hexchanging.rotate ho
    exact ⟨t, u, ht, hu⟩

/-- The idle test `3` would take the shape of its child. Below it in the order, the node `1` can be
rotated. -/
theorem swap_atomic_rejected : ∃ c : Client,
    (start 3 ⟨1, ⟨0⟩⟩).after [.create ⟨2⟩ .zero .one, .create ⟨1⟩ .zero (.inner 0),
      .create ⟨1⟩ .zero .one, .create ⟨0⟩ (.inner 2) (.inner 2)] = some c ∧
    Store.swap ⟨0⟩ ⟨1⟩ c.store =
      .ok (.error (.shapeTaken ⟨1⟩ (.inner 2) (.inner 2)), c.store) ∧
    (∃ s t u, Store.withdraw ⟨1⟩ [⟨.inner 1, ⟨.zero, .inner 0⟩, ⟨.zero, .zero⟩, ⟨.zero, .one⟩⟩]
        c.store = .ok s ∧
      Store.rotateAll ⟨1⟩ ⟨2⟩ [] s = .ok (.ok (), t) ∧
      Store.rotate ⟨1⟩ ⟨2⟩ ⟨.inner 1, ⟨.zero, .inner 0⟩, ⟨.zero, .zero⟩, ⟨.zero, .one⟩⟩ t =
        .ok (.ok (), u)) ∧
    ∃ t, Store.swap ⟨1⟩ ⟨2⟩ c.store = .ok (.ok (), t) := by
  let calls : List Call := [.create ⟨2⟩ .zero .one, .create ⟨1⟩ .zero (.inner 0),
    .create ⟨1⟩ .zero .one, .create ⟨0⟩ (.inner 2) (.inner 2)]
  let r : Rotation := ⟨.inner 1, ⟨.zero, .inner 0⟩, ⟨.zero, .zero⟩, ⟨.zero, .one⟩⟩
  have hends : ((start 3 ⟨1, ⟨0⟩⟩).after calls).map
      (fun c => (Store.swap ⟨0⟩ ⟨1⟩ c.store).map Prod.fst) =
        some (.ok (.error (.shapeTaken ⟨1⟩ (.inner 2) (.inner 2)))) := by
    decide +kernel
  have hlooks : ((start 3 ⟨1, ⟨0⟩⟩).after calls).map
      (fun c => (c.store.misplaced? ⟨1⟩ ⟨2⟩, c.store.rotations ⟨1⟩ ⟨2⟩,
        c.store.conflict? ⟨1⟩ ⟨2⟩ [r] [])) = some (none, .ok [r], .ok none) := by
    decide +kernel
  obtain ⟨c, hc, hswap⟩ := Option.map_eq_some_iff.mp hends
  rw [hc, Option.map_some, Option.some.injEq, Prod.mk.injEq, Prod.mk.injEq] at hlooks
  obtain ⟨hplace, hplan, hconflict⟩ := hlooks
  obtain ⟨result, t, hrun, hkept⟩ := (swap_atomic (reachable_of_after hc) ⟨0⟩ ⟨1⟩).1
  rw [hrun, Except.map, Except.ok.injEq] at hswap
  dsimp only at hswap
  obtain ⟨⟨s, hs, hrotates⟩, hdone⟩ :=
    (swap_atomic (reachable_of_after hc) ⟨1⟩ ⟨2⟩).2 [r] hplace hplan hconflict
  obtain ⟨t', u, ht', hu⟩ := hrotates [] r [] rfl
  exact ⟨c, hc, by rw [hrun, hkept _ hswap, hswap], ⟨s, t', u, hs, ht', hu⟩, hdone⟩

/-! ## Sifting -/

/-- Sifting ends. If it is not rejected, it returns a node with the function of the root and no idle
test below it, and tells the sizes as they are. -/
theorem sift_improves (hc : Reachable c) (hroot : c.store.alive root) :
    ∃ result t, Store.sift root c.store = .ok (result, t) ∧
      ∀ g stats, result = .ok (g, stats) →
        (∀ values : Array Bool, c.store.varCount ≤ values.size →
          ∃ x, c.store.evaluate root values = .ok x ∧ t.evaluate g values = .ok x) ∧
        t.diagram.Reduced g ∧
        c.store.size root = .ok stats.initialSize ∧ t.size g = .ok stats.finalSize ∧
        stats.finalSize ≤ stats.initialSize ∧ stats.bestSize = stats.finalSize ∧
        stats.sifted = c.store.varCount := by
  obtain ⟨⟨result, t⟩, hrun, hsifted, himproved⟩ := hc.valid.sift hroot
  refine ⟨result, t, hrun, fun g stats hresult => ?_⟩
  have h := himproved g stats hresult
  refine ⟨fun values hvalues => ?_, h.reduced, h.initialSize, h.finalSize, h.finalSize_le,
    h.bestSize, h.sifted⟩
  exact hc.valid.evaluate_of_alike hsifted.valid hroot h.alive h.alike hvalues
    (hsifted.varCount ▸ hvalues)

/-- A bound that is not a number, and a root that becomes smaller. -/
theorem sift_improves_unbounded : ∃ c : Client,
    (start 3 ⟨1, ⟨0x7FF8000000000000⟩⟩).after [.create ⟨2⟩ .zero .one,
      .create ⟨1⟩ .zero (.inner 0), .create ⟨1⟩ .zero .one,
      .create ⟨0⟩ (.inner 1) (.inner 2)] = some c ∧
    ∃ g stats t, Store.sift (.inner 3) c.store = .ok (.ok (g, stats), t) ∧
      stats.finalSize < stats.initialSize ∧ t.diagram.Reduced g ∧
      c.store.size (.inner 3) = .ok stats.initialSize ∧ t.size g = .ok stats.finalSize ∧
      stats.bestSize = stats.finalSize ∧ stats.sifted = 3 := by
  let calls : List Call := [.create ⟨2⟩ .zero .one, .create ⟨1⟩ .zero (.inner 0),
    .create ⟨1⟩ .zero .one, .create ⟨0⟩ (.inner 1) (.inner 2)]
  have hends : ((start 3 ⟨1, ⟨0x7FF8000000000000⟩⟩).after calls).map
      (fun c => (c.store.alive (.inner 3), c.store.varCount,
        (Store.sift (.inner 3) c.store).map Prod.fst)) =
      some (true, 3, .ok (.ok (.inner 3, ⟨13, 6, 5, 5, 3⟩))) := by
    decide +kernel
  obtain ⟨c, hc, hfound⟩ := Option.map_eq_some_iff.mp hends
  simp only [Prod.mk.injEq] at hfound
  obtain ⟨halive, -, hsift⟩ := hfound
  obtain ⟨result, t, hrun, himproves⟩ := sift_improves (reachable_of_after hc) halive
  rw [hrun, Except.map, Except.ok.injEq] at hsift
  dsimp only at hsift
  subst hsift
  obtain ⟨-, hreduced, hinitial, hfinal, -, hbest, -⟩ := himproves _ _ rfl
  exact ⟨c, hc, _, _, t, hrun, by decide, hreduced, hinitial, hfinal, hbest, rfl⟩

/-- Sifting ends, rejected or not, with all nodes that were there, and with their functions and
holds. What is new lies below one of them or below the node that is returned, and a node without
references is one of them or that node. -/
theorem sift_keeps (hc : Reachable c) (hroot : c.store.alive root) :
    ∃ result t, Store.sift root c.store = .ok (result, t) ∧
      (∀ n, c.store.alive n → t.alive n ∧
        (∀ values : Array Bool, c.store.varCount ≤ values.size →
          ∃ x, c.store.evaluate n values = .ok x ∧ t.evaluate n values = .ok x) ∧
        c.store.refCount n = c.store.diagram.edgesInto n + c.held n ∧
        t.refCount n = t.diagram.edgesInto n + c.held n) ∧
      (∀ n, t.alive n → ¬ c.store.alive n →
        ∃ m, (c.store.alive m ∨ ∃ stats, result = .ok (m, stats)) ∧ t.diagram.Below m n) ∧
      ∀ n b, t.diagram.branch? n = some b → t.refCount n = 0 →
        c.store.alive n ∨ ∃ stats, result = .ok (n, stats) := by
  obtain ⟨⟨result, t⟩, hrun, hsifted, -⟩ := hc.valid.sift hroot
  have hvalid := hsifted.valid
  refine ⟨result, t, hrun, fun n hn => ?_, fun n hn _ => ?_,
    fun n b hb hzero => hsifted.loose n ⟨⟨b, hb⟩, hzero⟩⟩
  · refine ⟨hsifted.kept n hn, fun values hvalues => ?_, hc.valid.sound.counted n,
      hvalid.sound.counted n⟩
    exact hsifted.toMoves.evaluate hc.valid hvalid hn (hsifted.kept n hn) hvalues
      (hsifted.varCount ▸ hvalues) fun _ _ => rfl
  · obtain ⟨m, hm, -, hbelow⟩ := hvalid.exists_root hc.valid (fun _ => Or.inl) hsifted.loose hn
    exact ⟨m, hm, hbelow⟩

/-- Sifting that is rejected after some exchanges: the idle test `1` would take the shape of its
child. -/
theorem sift_keeps_rejected : ∃ c : Client,
    (start 3 ⟨1, ⟨0⟩⟩).after [.createHeld ⟨2⟩ .zero .one, .create ⟨1⟩ .one .one,
      .createHeld ⟨0⟩ (.inner 1) (.inner 0)] = some c ∧
    ∃ t, Store.sift (.inner 2) c.store =
        .ok (.error (.shapeTaken ⟨0⟩ (.inner 3) (.inner 3)), t) ∧
      (∀ n, c.store.alive n → t.alive n) ∧
      ∀ n, t.alive n → ¬ c.store.alive n → ∃ m, c.store.alive m ∧ t.diagram.Below m n := by
  let calls : List Call := [.createHeld ⟨2⟩ .zero .one, .create ⟨1⟩ .one .one,
    .createHeld ⟨0⟩ (.inner 1) (.inner 0)]
  have hends : ((start 3 ⟨1, ⟨0⟩⟩).after calls).map
      (fun c => (c.store.alive (.inner 2), (Store.sift (.inner 2) c.store).map Prod.fst)) =
      some (true, .ok (.error (.shapeTaken ⟨0⟩ (.inner 3) (.inner 3)))) := by
    decide +kernel
  obtain ⟨c, hc, hfound⟩ := Option.map_eq_some_iff.mp hends
  simp only [Prod.mk.injEq] at hfound
  obtain ⟨halive, hsift⟩ := hfound
  obtain ⟨result, t, hrun, hkept, hnew, -⟩ := sift_keeps (reachable_of_after hc) halive
  rw [hrun, Except.map, Except.ok.injEq] at hsift
  dsimp only at hsift
  subst hsift
  refine ⟨c, hc, t, hrun, fun n hn => (hkept n hn).1, fun n hn hgone => ?_⟩
  obtain ⟨m, hm | ⟨stats, hm⟩, hbelow⟩ := hnew n hn hgone
  · exact ⟨m, hm, hbelow⟩
  · cases hm

end Client

end DecisionGraph
