import DecisionGraph.Proofs.Runs

/-!
# A sweep is exact

A sweep looks at counts alone. It takes the nodes that have none, and those that come to have none
by that. Yet nothing is left that no held node needs: a node that is left has a count, so it is held
or has a parent, and parents lie on higher levels, so that the search for a held node above it ends.
And nothing is taken that a held node needs, for held nodes stay and so do the children of nodes
that stay.

* `Valid.exists_held` — with no node without references, every node lies below a held one.
* `Swept.branch?_iff` — what a sweep leaves.
* `Swept.again` — a second sweep finds nothing.
-/

namespace DecisionGraph

namespace Store

variable {s t : Store} {held : Holding} {b : Branch} {k : Nat} {n : NodeId}

/-- A node is held if it has more references than edges into it. -/
theorem Valid.held_pos_iff (h : s.Valid held) :
    0 < held n ↔ s.diagram.edgesInto n < s.refCount n := by
  rw [h.sound.counted]
  omega

/-- Where no node is without references, every inner node lies below a held one. -/
theorem Valid.exists_held (h : s.Valid held) (hloose : ∀ m, ¬ s.Loose m)
    (hb : s.diagram.branch? n = some b) : ∃ m, 0 < held m ∧ s.diagram.Below m n := by
  obtain ⟨m, hm, hbelow⟩ := h.exists_standing hb
  exact ⟨m, hm.resolve_right (hloose m), hbelow⟩

/-- A sweep leaves the inner nodes that lie below held ones, as they were, and no others. -/
theorem Swept.branch?_iff (h : s.Swept k t) (ht : t.Valid held) :
    t.diagram.branch? n = some b ↔
      s.diagram.branch? n = some b ∧ ∃ m, 0 < held m ∧ s.diagram.Below m n := by
  have hsubset := h.shrinks.subset
  constructor
  · intro hb
    obtain ⟨m, hm, hbelow⟩ := ht.exists_held h.not_loose hb
    exact ⟨hsubset n b hb, m, hm, hbelow.extends hsubset⟩
  · rintro ⟨hb, m, hm, hbelow⟩
    obtain ⟨-, ha⟩ := hbelow.shrink hsubset ht.closed (ht.sound.alive_of_held hm)
    exact (hsubset.branch?_eq ha).trans hb

/-- What is left of the computed table. -/
theorem Swept.computed_iff (h : s.Swept k t) {key : NodeTriple} {r : NodeId} :
    t.computed.results[key]? = some r ↔
      s.computed.results[key]? = some r ∧ ∀ n ∈ r :: key.word, t.diagram.alive n := by
  rw [h.computed, ComputedTable.purge_eq_some_iff]

/-- After a sweep there is nothing to sweep. -/
theorem Swept.again (h : s.Swept k t) (ht : t.Valid held) :
    ∃ unique, t.collectGarbage = .ok (0, { t with unique := unique }) := by
  obtain ⟨unique, hrun, -⟩ := ht.sound.removeDead_eq
  have hidle : (t.diagram.inners.filter fun n => t.refCount n = 0) = [] :=
    List.eq_nil_iff_forall_not_mem.mpr fun n hn => h.not_loose n (mem_idle_iff.mp hn)
  have hpurge : (t.computed.purge t.diagram.alive).2 = t.computed :=
    ComputedTable.purge_eq_self fun _ _ hkey => (h.computed_iff.mp hkey).2
  refine ⟨unique, ?_⟩
  simp only [collectGarbage, hidle, collectAll, hrun, hpurge, bind, Except.bind, pure, Except.pure]

end Store

namespace Client

variable {c : Client}

/-- A collection is exact, in every reachable state: the inner nodes left are those that lie below a
node with more references than edges into it. They are what they were, and each has a reference. The
answer is the number of nodes that are gone. The computed table loses just the entries with a dead
node in them, and a second collection finds nothing to do. -/
theorem collectGarbage_exact (hc : Reachable c) :
    ∃ k t, c.store.collectGarbage = .ok (k, t) ∧
      (∀ n b, t.diagram.branch? n = some b ↔ c.store.diagram.branch? n = some b ∧
        ∃ m, c.store.alive m ∧ c.store.diagram.edgesInto m < c.store.refCount m ∧
          c.store.diagram.Below m n) ∧
      (∀ n, t.alive n → ∀ values : Array Bool, c.store.varCount ≤ values.size →
        ∃ x, c.store.evaluate n values = .ok x ∧ t.evaluate n values = .ok x) ∧
      k + t.liveCount = c.store.liveCount ∧
      (∀ n b, t.diagram.branch? n = some b → 0 < t.refCount n) ∧
      (∀ (key : NodeTriple) (r : NodeId), t.computed.results[key]? = some r ↔
        c.store.computed.results[key]? = some r ∧ ∀ n ∈ r :: key.word, t.alive n) ∧
      ∃ unique, t.collectGarbage = .ok (0, { t with unique := unique }) := by
  have hvalid := hc.valid
  obtain ⟨⟨k, t⟩, hrun, (ht : t.Valid c.held), (hswept : c.store.Swept k t)⟩ :=
    hvalid.collectGarbage_gives
  refine ⟨k, t, hrun, fun n b => ?_, fun n hn values hvalues => ?_, ?_, fun n b hb => ?_,
    fun key r => hswept.computed_iff, hswept.again ht⟩
  · rw [hswept.branch?_iff ht]
    refine and_congr_right fun _ => exists_congr fun m => ?_
    rw [hvalid.held_pos_iff, ← and_assoc]
    refine and_congr_left fun _ => (and_iff_right_of_imp fun hm => ?_).symm
    exact hvalid.sound.alive_of_held (hvalid.held_pos_iff.mpr hm)
  · have hn' := hswept.shrinks.subset.alive hn
    refine hvalid.evaluate_of_alike ht hn' hn
      ((hswept.shrinks.evolves ht.closed).value n hn' hn) hvalues ?_
    simpa only [Store.varCount, hswept.order] using hvalues
  · have hlive := hswept.live
    simp only [Store.liveCount]
    omega
  · exact Nat.pos_of_ne_zero fun hzero => hswept.not_loose n ⟨⟨b, hb⟩, hzero⟩

/-- A disjunction is held, whose child was given back and is shared with a conjunction. The
conjunction goes, and so do a test that was never held and the complement below it. -/
theorem collectGarbage_exact_shared : ∃ c : Client,
    (start 2 ⟨1, ⟨0⟩⟩).after [.createHeld ⟨0⟩ .zero .one, .createHeld ⟨1⟩ .zero .one,
      .and (.inner 0) (.inner 1), .or (.inner 0) (.inner 1), .reference (.inner 3),
      .release (.inner 1), .negate (.inner 1), .create ⟨0⟩ .zero (.inner 4)] = some c ∧
    ∃ t, c.store.collectGarbage = .ok (3, t) ∧
      ∀ n b, t.diagram.branch? n = some b ↔ c.store.diagram.branch? n = some b ∧
        ∃ m, c.store.alive m ∧ c.store.diagram.edgesInto m < c.store.refCount m ∧
          c.store.diagram.Below m n := by
  let calls : List Call := [.createHeld ⟨0⟩ .zero .one, .createHeld ⟨1⟩ .zero .one,
    .and (.inner 0) (.inner 1), .or (.inner 0) (.inner 1), .reference (.inner 3),
    .release (.inner 1), .negate (.inner 1), .create ⟨0⟩ .zero (.inner 4)]
  have hends : ((start 2 ⟨1, ⟨0⟩⟩).after calls).map
      (fun c => c.store.collectGarbage.toOption.map Prod.fst) = some (some 3) := by
    decide +kernel
  obtain ⟨c, hc, hcount⟩ := Option.map_eq_some_iff.mp hends
  obtain ⟨k, t, hrun, hleft, -⟩ := collectGarbage_exact (reachable_of_after hc)
  rw [hrun, Except.toOption, Option.map_some, Option.some.injEq] at hcount
  obtain rfl : k = 3 := hcount
  exact ⟨c, hc, t, hrun, hleft⟩

end Client

end DecisionGraph
