import Mathlib.Algebra.Group.Nat.Defs
import DecisionGraph.Proofs.SubtableMap

/-!
# Between the water marks

A subtable doubles its row before an entry comes and halves it after one has gone, by one step at a
time. So the row is always the first one, doubled some number of times, and never holds more entries
than the high mark allows.

As long as entries go one by one, the row does not fall behind either: it is the first row, or it
holds more entries than the low mark asks for. After a doubling the chains are half as long as the
high mark, after a halving they are twice as long as the low mark, and both lie well apart from
either mark. So a call that moves the entries to another row is not followed by one that moves them
again. When dead entries are swept out, all this may fail, since one sweep takes out many and halves
the row only once.

* `Sized`, `Filled`, `Calm` — what holds of any table, of one that was never swept, and of one whose
  entries have just moved.
* `Sized.perform`, `Filled.perform` — what a call keeps.
* `calm_of_resized`, `Calm.perform` — what follows a call that changes the row.
* `performAll_within_marks` — any calls on a new table.
-/

namespace DecisionGraph

namespace Subtable

/-- The row is the first one, doubled some number of times, and not too short. -/
structure Sized (t : Subtable) : Prop where
  doubled : ∃ j, t.buckets.size = t.minBuckets * 2 ^ j
  count_le : t.count ≤ highWater * t.buckets.size

/-- The row is not too long: it is the first one, or the chains are above the low mark. -/
def Filled (t : Subtable) : Prop :=
  t.buckets.size = t.minBuckets ∨ lowWater * t.buckets.size < t.count

/-- One entry more or less does not change the row. -/
structure Calm (t : Subtable) : Prop where
  above : t.buckets.size = t.minBuckets ∨ lowWater * t.buckets.size + 1 < t.count
  below : t.count < highWater * t.buckets.size

variable {t t' : Subtable} {k : Children} {n : NodeId} {call : TimedCall} {answer : TableAnswer}

/-! ## Rows and entries in number -/

@[simp] theorem size_resize (size : Nat) (h : t.minBuckets ≤ size) :
    (t.resize size h).buckets.size = size := by
  simp [Subtable.resize]

theorem size_grow (t : Subtable) : t.grow.buckets.size =
    if highWater * t.buckets.size ≤ t.count then 2 * t.buckets.size else t.buckets.size := by
  unfold Subtable.grow
  split <;> simp

@[simp] theorem count_grow (t : Subtable) : t.grow.count = t.count := by
  unfold Subtable.grow
  split <;> rfl

@[simp] theorem minBuckets_grow (t : Subtable) : t.grow.minBuckets = t.minBuckets := by
  unfold Subtable.grow
  split <;> rfl

theorem size_shrink (t : Subtable) : t.shrink.buckets.size =
    if t.minBuckets < t.buckets.size ∧ t.count ≤ lowWater * t.buckets.size then
      max (t.buckets.size / 2) t.minBuckets
    else t.buckets.size := by
  unfold Subtable.shrink
  split <;> simp

@[simp] theorem count_shrink (t : Subtable) : t.shrink.count = t.count := by
  unfold Subtable.shrink
  split <;> rfl

@[simp] theorem minBuckets_shrink (t : Subtable) : t.shrink.minBuckets = t.minBuckets := by
  unfold Subtable.shrink
  split <;> rfl

/-- A row that is longer than the first one is the double of another. -/
theorem Sized.exists_half (h : t.Sized) (hlt : t.minBuckets < t.buckets.size) :
    ∃ j, t.buckets.size = 2 * (t.minBuckets * 2 ^ j) := by
  obtain ⟨_ | j, hj⟩ := h.doubled
  · rw [Nat.pow_zero, Nat.mul_one] at hj
    exact absurd hj (Nat.ne_of_gt hlt)
  · exact ⟨j, by rw [hj, Nat.pow_succ, ← Nat.mul_assoc, Nat.mul_comm]⟩

/-- Fewer entries in a row of the same length. -/
theorem Sized.of_count_le {u : Subtable} (h : t.Sized) (hmin : u.minBuckets = t.minBuckets)
    (hsize : u.buckets.size = t.buckets.size) (hle : u.count ≤ t.count) : u.Sized where
  doubled := by
    rw [hsize, hmin]
    exact h.doubled
  count_le := by
    rw [hsize]
    exact Nat.le_trans hle h.count_le

/-- A halving takes back one doubling, and goes no further than the first row. -/
theorem Sized.shrink_cases (h : t.Sized) : t.shrink.buckets.size = t.buckets.size ∧
      (t.buckets.size = t.minBuckets ∨ lowWater * t.buckets.size < t.count) ∨
    t.buckets.size = 2 * t.shrink.buckets.size ∧ t.count ≤ lowWater * t.buckets.size ∧
      ∃ j, t.shrink.buckets.size = t.minBuckets * 2 ^ j := by
  rw [size_shrink]
  split
  · rename_i hlow
    obtain ⟨j, hj⟩ := h.exists_half hlow.1
    have hhalf : t.buckets.size / 2 = t.minBuckets * 2 ^ j := by
      rw [hj, Nat.mul_div_cancel_left _ Nat.two_pos]
    have hmin : t.minBuckets ≤ t.minBuckets * 2 ^ j :=
      Nat.le_mul_of_pos_right _ (Nat.two_pow_pos j)
    rw [hhalf, Nat.max_eq_left hmin]
    exact Or.inr ⟨hj, hlow.2, j, rfl⟩
  · have := t.minBuckets_le
    exact Or.inl ⟨rfl, by omega⟩

/-! ## What a call does to them -/

/-- The numbers after a call: it looks up, it enters after making room, it takes out one entry, or
it takes out those of dead nodes. -/
theorem perform_numbers (h : t.perform call = .ok (answer, t')) :
    t' = t ∨
    t'.minBuckets = t.minBuckets ∧ t'.buckets.size = t.grow.buckets.size ∧
      (t'.count = t.count ∨ t'.count = t.count + 1) ∨
    ∃ u : Subtable, u.minBuckets = t.minBuckets ∧ u.buckets.size = t.buckets.size ∧
      u.count ≤ t.count ∧ (call.1 ≠ .removeDead → u.count + 1 = t.count) ∧ t' = u.shrink := by
  obtain ⟨call, alive⟩ := call
  cases call with
  | find k =>
    cases h
    exact Or.inl rfl
  | insert k n =>
    refine Or.inr (Or.inl ?_)
    cases h
    dsimp only
    split
    · split
      · exact ⟨minBuckets_grow t, rfl, Or.inl (count_grow t)⟩
      · exact ⟨minBuckets_grow t, by simp [modifyChain], Or.inl (count_grow t)⟩
    · exact ⟨minBuckets_grow t, by simp [modifyChain],
        Or.inr (congrArg (· + 1) (count_grow t))⟩
  | erase k =>
    simp only [Subtable.perform, Subtable.erase] at h
    split at h
    · cases h
      exact Or.inl rfl
    · by_cases hcount : 1 ≤ t.count
      · rw [decrease, if_pos hcount] at h
        cases h
        refine Or.inr (Or.inr ⟨_, ?_, ?_, ?_, fun _ => ?_, rfl⟩)
        · rfl
        · simp [modifyChain]
        · exact Nat.sub_le _ _
        · exact Nat.sub_add_cancel hcount
      · rw [decrease, if_neg hcount] at h
        cases h
  | removeDead =>
    simp only [Subtable.perform, Subtable.removeDead] at h
    by_cases hcount : (t.entries.countP fun e => !alive e.node) ≤ t.count
    · rw [decrease, if_pos hcount] at h
      cases h
      refine Or.inr (Or.inr ⟨_, ?_, ?_, ?_, fun hne => absurd rfl hne, rfl⟩)
      · rfl
      · simp [retain]
      · exact Nat.sub_le _ _
    · rw [decrease, if_neg hcount] at h
      cases h

theorem perform_minBuckets (h : t.perform call = .ok (answer, t')) :
    t'.minBuckets = t.minBuckets := by
  rcases perform_numbers h with rfl | ⟨hmin, -⟩ | ⟨u, hmin, -, -, -, rfl⟩
  · rfl
  · exact hmin
  · rw [minBuckets_shrink, hmin]

/-- A call keeps the row between the marks. -/
theorem Sized.perform (h : t.Sized) (hrun : t.perform call = .ok (answer, t')) : t'.Sized := by
  have hcount := h.count_le
  have hpos := t.size_pos
  obtain ⟨j, hj⟩ := h.doubled
  simp only [highWater] at hcount
  rcases perform_numbers hrun with rfl | ⟨hmin, hsize, hentries⟩ | ⟨u, hmin, hsize, hle, -, rfl⟩
  · exact h
  · rw [size_grow, highWater] at hsize
    split at hsize
    · refine ⟨⟨j + 1, ?_⟩, by rw [highWater]; omega⟩
      rw [hsize, hmin, hj, Nat.pow_succ', Nat.mul_left_comm]
    · exact ⟨⟨j, by rw [hsize, hmin, hj]⟩, by rw [highWater]; omega⟩
  · have hu := h.of_count_le hmin hsize hle
    refine ⟨?_, ?_⟩
    · rw [minBuckets_shrink]
      rcases hu.shrink_cases with ⟨hsame, -⟩ | ⟨-, -, hhalf⟩
      · rw [hsame]
        exact hu.doubled
      · exact hhalf
    · rw [count_shrink, highWater]
      rcases hu.shrink_cases with ⟨hsame, -⟩ | ⟨hhalf, hlow, -⟩
      · omega
      · rw [lowWater] at hlow
        omega

/-- A call that is no sweep keeps the row from being too long. -/
theorem Filled.perform (h : t.Filled) (ht : t.Sized) (hcall : call.1 ≠ .removeDead)
    (hrun : t.perform call = .ok (answer, t')) : t'.Filled := by
  have hpos := t.size_pos
  have hcount := ht.count_le
  simp only [Filled, highWater, lowWater] at h hcount ⊢
  rcases perform_numbers hrun with rfl | ⟨hmin, hsize, hentries⟩ | ⟨u, hmin, hsize, hle, hone, rfl⟩
  · exact h
  · rw [size_grow, highWater] at hsize
    split at hsize <;> omega
  · have hone := hone hcall
    have hu := ht.of_count_le hmin hsize hle
    have hupos := u.shrink.size_pos
    rw [count_shrink, minBuckets_shrink]
    rcases hu.shrink_cases with ⟨hsame, hfilled⟩ | ⟨hhalf, -, -⟩
    · rw [hsame]
      exact hfilled
    · have hmin' := u.shrink.minBuckets_le
      rw [minBuckets_shrink] at hmin'
      omega

/-- A call that is no sweep and changes the row leaves it far from both marks. -/
theorem calm_of_resized (h : t.Filled) (ht : t.Sized) (hcall : call.1 ≠ .removeDead)
    (hrun : t.perform call = .ok (answer, t')) (hne : t'.buckets.size ≠ t.buckets.size) :
    t'.Calm := by
  have hpos := t.size_pos
  have hcount := ht.count_le
  simp only [Filled, highWater, lowWater] at h hcount
  rcases perform_numbers hrun with rfl | ⟨hmin, hsize, hentries⟩ | ⟨u, hmin, hsize, hle, hone, rfl⟩
  · exact absurd rfl hne
  · rw [size_grow, highWater] at hsize
    split at hsize
    · constructor
      · rw [lowWater]
        omega
      · rw [highWater]
        omega
    · exact absurd hsize hne
  · have hone := hone hcall
    have hu := ht.of_count_le hmin hsize hle
    have hupos := u.shrink.size_pos
    rcases hu.shrink_cases with ⟨hsame, -⟩ | ⟨hhalf, hlow, -⟩
    · exact absurd (hsame.trans hsize) hne
    · rw [lowWater] at hlow
      have hmin' := u.shrink.minBuckets_le
      rw [minBuckets_shrink] at hmin'
      constructor
      · rw [count_shrink, minBuckets_shrink, lowWater]
        omega
      · rw [count_shrink, highWater]
        omega

/-- Far from both marks, a call that is no sweep keeps the row. -/
theorem Calm.perform (h : t.Calm) (hcall : call.1 ≠ .removeDead)
    (hrun : t.perform call = .ok (answer, t')) : t'.buckets.size = t.buckets.size := by
  obtain ⟨habove, hbelow⟩ := h
  rcases perform_numbers hrun with rfl | ⟨-, hsize, -⟩ | ⟨u, hmin, hsize, -, hone, rfl⟩
  · rfl
  · rw [hsize, size_grow, if_neg (Nat.not_le.mpr hbelow)]
  · have hone := hone hcall
    rw [size_shrink, if_neg (by rw [hsize, hmin]; omega), hsize]

/-! ## Any calls -/

theorem performAll_cons_eq {calls : List TimedCall} {answers : List TableAnswer}
    (h : t.performAll (call :: calls) = .ok (answers, t')) :
    ∃ answer u answers', t.perform call = .ok (answer, u) ∧
      u.performAll calls = .ok (answers', t') := by
  rw [Subtable.performAll] at h
  cases hrun : t.perform call with
  | error e =>
    rw [hrun] at h
    cases h
  | ok p =>
    rw [hrun] at h
    cases hruns : p.2.performAll calls with
    | error e =>
      simp only [bind, Except.bind, hruns] at h
      cases h
    | ok q =>
      simp only [bind, Except.bind, hruns] at h
      cases h
      exact ⟨p.1, p.2, q.1, rfl, hruns⟩

/-- The numbers after any calls, if they were right before. -/
theorem Sized.performAll {calls : List TimedCall} {answers : List TableAnswer} (h : t.Sized)
    (hrun : t.performAll calls = .ok (answers, t')) :
    t'.Sized ∧ t'.minBuckets = t.minBuckets ∧
      (t.Filled → (∀ call ∈ calls, call.1 ≠ .removeDead) → t'.Filled) := by
  induction calls generalizing t answers with
  | nil =>
    cases hrun
    exact ⟨h, rfl, fun hfilled _ => hfilled⟩
  | cons call calls ih =>
    obtain ⟨answer, u, answers', hfirst, hrest⟩ := performAll_cons_eq hrun
    obtain ⟨ht', hmin, hfilled⟩ := ih (h.perform hfirst) hrest
    refine ⟨ht', hmin.trans (perform_minBuckets hfirst), fun ht hcalls => ?_⟩
    exact hfilled (ht.perform h (hcalls call List.mem_cons_self) hfirst)
      fun call' hmem => hcalls call' (List.mem_cons_of_mem _ hmem)

theorem sized_empty (v : Var) (buckets : Nat) : (empty v buckets).Sized where
  doubled := ⟨0, by simp [empty]⟩
  count_le := Nat.zero_le _

theorem filled_empty (v : Var) (buckets : Nat) : (empty v buckets).Filled :=
  Or.inl (by simp [empty])

/-- After any calls on a new table its row is the first one, doubled some number of times, and holds
no more entries than the high mark allows. If none of the calls was a sweep, the row is the first
one or holds more entries than the low mark asks for. Then it is the first one if it is empty, and
of two more calls that are no sweeps, the second does not change the row if the first does. -/
theorem performAll_within_marks (v : Var) (buckets : Nat) (calls : List TimedCall) :
    ∃ answers t, (empty v buckets).performAll calls = .ok (answers, t) ∧
      (∃ j, t.buckets.size = max buckets 1 * 2 ^ j) ∧ max buckets 1 ≤ t.buckets.size ∧
      t.count ≤ highWater * t.buckets.size ∧
      ((∀ call ∈ calls, call.1 ≠ .removeDead) →
        (t.buckets.size = max buckets 1 ∨ lowWater * t.buckets.size < t.count) ∧
        (t.count = 0 → t.buckets.size = max buckets 1) ∧
        ∀ call next : TimedCall, call.1 ≠ .removeDead → next.1 ≠ .removeDead →
          ∃ answer t₁ answer' t₂, t.perform call = .ok (answer, t₁) ∧
            t₁.perform next = .ok (answer', t₂) ∧
            (t₁.buckets.size ≠ t.buckets.size → t₂.buckets.size = t₁.buckets.size)) := by
  obtain ⟨t, hrun, ht⟩ := (represents_empty v buckets).performAll calls
  obtain ⟨hsized, hmin, hfilled⟩ := (sized_empty v buckets).performAll hrun
  have hmin : t.minBuckets = max buckets 1 := hmin
  refine ⟨_, t, hrun, hmin ▸ hsized.doubled, hmin ▸ t.minBuckets_le, hsized.count_le,
    fun hcalls => ?_⟩
  have hfilled := hfilled (filled_empty v buckets) hcalls
  refine ⟨hmin ▸ hfilled, fun hempty => ?_, fun call next hcall hnext => ?_⟩
  · rw [← hmin]
    exact hfilled.resolve_right (by rw [hempty]; exact Nat.not_lt_zero _)
  · obtain ⟨t₁, hrun₁, ht₁, -⟩ := ht.perform call
    obtain ⟨t₂, hrun₂, -⟩ := ht₁.perform next
    exact ⟨_, t₁, _, t₂, hrun₁, hrun₂, fun hne =>
      (calm_of_resized hfilled hsized hcall hrun₁ hne).perform hnext hrun₂⟩

end Subtable

end DecisionGraph
