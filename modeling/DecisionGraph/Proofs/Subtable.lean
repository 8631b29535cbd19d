import DecisionGraph.UniqueTable.Subtable
import DecisionGraph.Proofs.Outcome

/-!
# Lawful subtables

A lawful subtable keeps every entry in the bucket of its key, has one entry for each key, and
counts its entries. Then what it finds does not depend on the row of buckets: `entered? k` is `n`
exactly if `⟨k, n⟩` is among the entries (`Lawful.entered?_eq_some_iff`), and every operation is
described by what it does to the entries, up to their order.

* `Lawful.resize`, `Lawful.grow`, `Lawful.shrink` — moving to other buckets keeps the entries.
* `Lawful.insert_free`, `Lawful.insert_over`, `Lawful.insert_refused` — a node is entered, or not.
* `Lawful.erase_entered`, `Lawful.removeDead_perm` — entries are taken out.
-/

namespace DecisionGraph

/-! ## Chains -/

namespace Chain

theorem mem_of_lookup {k : Children} {n : NodeId} {c : Chain} (h : lookup k c = some n) :
    (⟨k, n⟩ : Entry) ∈ c :=
  (remove_perm h).subset List.mem_cons_self

theorem mem_of_mem_remove {k : Children} {e : Entry} {c : Chain} (h : e ∈ remove k c) : e ∈ c := by
  cases hk : lookup k c with
  | some n => exact (remove_perm hk).subset (List.mem_cons_of_mem _ h)
  | none =>
    induction c with
    | nil => exact h
    | cons d c ih =>
      rw [lookup_cons] at hk
      split at hk
      · cases hk
      · rename_i hne
        rw [remove, if_neg hne] at h
        rcases List.mem_cons.mp h with rfl | h
        · exact List.mem_cons_self
        · exact List.mem_cons_of_mem _ (ih h hk)

theorem lookup_of_mem {k : Children} {n : NodeId} {c : Chain} (hkeys : (c.map Entry.key).Nodup)
    (h : (⟨k, n⟩ : Entry) ∈ c) : lookup k c = some n := by
  induction c with
  | nil => simp at h
  | cons e c ih =>
    rw [lookup_cons]
    rw [List.map_cons, List.nodup_cons] at hkeys
    rcases List.mem_cons.mp h with rfl | h
    · rw [if_pos rfl]
    · have hne : e.key ≠ k := by
        rintro rfl
        exact hkeys.1 (List.mem_map.mpr ⟨_, h, rfl⟩)
      rw [if_neg hne]
      exact ih hkeys.2 h

theorem mem_of_mem_overwrite {k : Children} {n : NodeId} {e : Entry} {c : Chain}
    (h : e ∈ overwrite k n c) (hk : e.key ≠ k) : e ∈ c := by
  induction c with
  | nil => exact h
  | cons d c ih =>
    rw [overwrite] at h
    split at h
    · rcases List.mem_cons.mp h with rfl | h
      · exact absurd rfl hk
      · exact List.mem_cons_of_mem _ h
    · rcases List.mem_cons.mp h with rfl | h
      · exact List.mem_cons_self
      · exact List.mem_cons_of_mem _ (ih h)

/-- A node that takes the place of another. -/
theorem overwrite_perm {k : Children} {m : NodeId} {c : Chain} (h : lookup k c = some m)
    (n : NodeId) : (overwrite k n c).Perm (⟨k, n⟩ :: remove k c) := by
  induction c with
  | nil => simp at h
  | cons e c ih =>
    rw [lookup_cons] at h
    by_cases he : e.key = k
    · rw [overwrite, if_pos he, remove, if_pos he]
      refine .cons _ (.trans (.of_eq ?_) List.perm_append_comm)
      rcases List.eq_nil_or_concat c with rfl | ⟨c, last, rfl⟩ <;> simp
    · rw [if_neg he] at h
      rw [overwrite, if_neg he, remove, if_neg he]
      exact ((ih h).cons e).trans (.swap _ _ _)

end Chain

/-- What changing one chain of a row does to all entries, up to their order. -/
theorem exists_flatten_modify_perm {row : List Chain} {i : Nat} {c : Chain}
    (h : row[i]? = some c) :
    ∃ rest, row.flatten.Perm (c ++ rest) ∧
      ∀ f : Chain → Chain, (row.modify i f).flatten.Perm (f c ++ rest) := by
  induction row generalizing i with
  | nil => simp at h
  | cons d row ih =>
    cases i with
    | zero =>
      rw [List.getElem?_cons_zero, Option.some.injEq] at h
      subst h
      refine ⟨row.flatten, .refl _, fun f => ?_⟩
      rw [List.modify_zero_cons, List.flatten_cons]
    | succ i =>
      rw [List.getElem?_cons_succ] at h
      obtain ⟨rest, hall, hf⟩ := ih h
      refine ⟨d ++ rest, ?_, fun f => ?_⟩
      · rw [List.flatten_cons]
        exact (hall.append_left d).trans (List.perm_append_comm_assoc _ _ _)
      · rw [List.modify_succ_cons, List.flatten_cons]
        exact ((hf f).append_left d).trans (List.perm_append_comm_assoc _ _ _)

namespace Subtable

/-- Every entry is in the bucket of its key. -/
def Placed (v : Var) (buckets : Array Chain) : Prop :=
  ∀ i c, buckets[i]? = some c → ∀ e ∈ c, slot v e.key buckets.size = i

theorem Placed.modify {v : Var} {buckets : Array Chain} (h : Placed v buckets) (k : Children)
    {f : Chain → Chain} (hf : ∀ c, ∀ e ∈ f c, e ∈ c ∨ e.key = k) :
    Placed v (buckets.modify (slot v k buckets.size) f) := by
  intro i c hc e he
  rw [Array.size_modify]
  rw [Array.getElem?_modify] at hc
  split at hc
  · rename_i hi
    obtain ⟨d, hd, rfl⟩ := Option.map_eq_some_iff.mp hc
    rcases hf d e he with he | rfl
    · exact h i d hd e he
    · exact hi
  · exact h i c hc e he

theorem Placed.filter {v : Var} {buckets : Array Chain} (h : Placed v buckets)
    (p : Entry → Bool) : Placed v (buckets.map (List.filter p)) := by
  intro i c hc e he
  rw [Array.size_map]
  rw [Array.getElem?_map] at hc
  obtain ⟨d, hd, rfl⟩ := Option.map_eq_some_iff.mp hc
  exact h i d hd e (List.mem_filter.mp he).1

/-- The table with its entries where look-ups expect them. -/
structure Lawful (t : Subtable) : Prop where
  placed : Placed t.var t.buckets
  keys_nodup : (t.entries.map Entry.key).Nodup
  count_eq : t.count = t.entries.length

theorem lawful_empty (v : Var) (buckets : Nat) : (empty v buckets).Lawful where
  placed := by
    intro i c hc e he
    simp only [empty, Array.getElem?_replicate] at hc
    split at hc
    · cases hc
      cases he
    · cases hc
  keys_nodup := by simp [entries, empty]
  count_eq := by simp [entries, empty]

@[simp] theorem entries_empty (v : Var) (buckets : Nat) : (empty v buckets).entries = [] := by
  simp [entries, empty]

variable {t : Subtable} {k : Children} {n : NodeId}

theorem getElem?_slot (t : Subtable) (k : Children) :
    t.buckets[slot t.var k t.buckets.size]? = some (t.chainOf k) :=
  Array.getElem?_eq_getElem _

theorem getElem?_row (t : Subtable) (k : Children) :
    t.buckets.toList[slot t.var k t.buckets.size]? = some (t.chainOf k) := by
  rw [Array.getElem?_toList]
  exact t.getElem?_slot k

theorem Lawful.mem_chainOf (h : t.Lawful) {e : Entry} (he : e ∈ t.entries) :
    e ∈ t.chainOf e.key := by
  obtain ⟨c, hc, hec⟩ := List.mem_flatten.mp he
  obtain ⟨i, hi⟩ := List.mem_iff_getElem?.mp hc
  rw [Array.getElem?_toList] at hi
  have hslot := h.placed i c hi e hec
  have hchain := t.getElem?_slot e.key
  rw [hslot, hi, Option.some.injEq] at hchain
  rwa [← hchain]

theorem chainOf_subset (t : Subtable) (k : Children) : t.chainOf k ⊆ t.entries := by
  intro e he
  refine List.mem_flatten.mpr ⟨t.chainOf k, ?_, he⟩
  exact List.mem_iff_getElem?.mpr ⟨_, t.getElem?_row k⟩

/-- The keys of all entries, with those of one chain in front. -/
theorem Lawful.chain_keys_nodup (h : t.Lawful) (k : Children) :
    ((t.chainOf k).map Entry.key).Nodup := by
  obtain ⟨rest, hall, -⟩ := exists_flatten_modify_perm (t.getElem?_row k)
  have hkeys : ((t.chainOf k ++ rest).map Entry.key).Nodup :=
    (hall.map Entry.key).nodup_iff.mp h.keys_nodup
  rw [List.map_append] at hkeys
  exact (List.nodup_append.mp hkeys).1

/-- What the table finds is what it holds. -/
theorem Lawful.entered?_eq_some_iff (h : t.Lawful) :
    t.entered? k = some n ↔ (⟨k, n⟩ : Entry) ∈ t.entries := by
  constructor
  · intro hk
    exact t.chainOf_subset k (Chain.mem_of_lookup hk)
  · intro he
    have hchain := h.mem_chainOf he
    exact Chain.lookup_of_mem (h.chain_keys_nodup k) hchain

/-! ## Other buckets -/

theorem fill_placed {v : Var} (es : List Entry) (row : Array Chain) (hsize : 0 < row.size)
    (hp : Placed v row) :
    Placed v (fill v es row) ∧ (fill v es row).toList.flatten.Perm (row.toList.flatten ++ es) := by
  induction es generalizing row with
  | nil => exact ⟨hp, by simp [fill]⟩
  | cons e es ih =>
    have hlt := slot_lt v e.key hsize
    have hchain : row.toList[slot v e.key row.size]? = some row[slot v e.key row.size] := by
      simp [hlt]
    obtain ⟨rest, hall, hf⟩ := exists_flatten_modify_perm hchain
    have hplaced : Placed v (row.modify (slot v e.key row.size) (· ++ [e])) :=
      hp.modify e.key fun c e' he' => by
        rcases List.mem_append.mp he' with he' | he'
        · exact Or.inl he'
        · exact Or.inr (by rw [List.mem_singleton.mp he'])
    have hmodified := hf (· ++ [e])
    rw [← Array.toList_modify] at hmodified
    obtain ⟨hp', hperm⟩ := ih (row.modify _ (· ++ [e])) (by simpa using hsize) hplaced
    refine ⟨hp', hperm.trans ?_⟩
    apply (hmodified.append_right es).trans
    refine .trans ?_ (hall.symm.append_right (e :: es))
    simp only [List.append_assoc, List.singleton_append]
    apply List.Perm.append_left _
    exact List.perm_middle.symm

theorem Lawful.resize (h : t.Lawful) {size : Nat} (hmin : t.minBuckets ≤ size) :
    (t.resize size hmin).Lawful ∧ (t.resize size hmin).entries.Perm t.entries := by
  have hpos : 0 < size := Nat.lt_of_lt_of_le t.minBuckets_pos hmin
  obtain ⟨hp, hperm⟩ := fill_placed (v := t.var) t.entries (Array.replicate size [])
    (by simpa using hpos) (by
      intro i c hc e he
      rw [Array.getElem?_replicate] at hc
      split at hc
      · cases hc
        cases he
      · cases hc)
  have hperm : (t.resize size hmin).entries.Perm t.entries := by
    simpa [entries, Subtable.resize] using hperm
  refine ⟨⟨hp, ?_, ?_⟩, hperm⟩
  · exact (hperm.map Entry.key).nodup_iff.mpr h.keys_nodup
  · rw [hperm.length_eq]
    exact h.count_eq

theorem Lawful.grow (h : t.Lawful) : t.grow.Lawful ∧ t.grow.entries.Perm t.entries := by
  unfold Subtable.grow
  split
  · exact h.resize _
  · exact ⟨h, .refl _⟩

theorem Lawful.shrink (h : t.Lawful) : t.shrink.Lawful ∧ t.shrink.entries.Perm t.entries := by
  unfold Subtable.shrink
  split
  · exact h.resize _
  · exact ⟨h, .refl _⟩

@[simp] theorem grow_var : t.grow.var = t.var := by
  unfold Subtable.grow
  split <;> rfl

@[simp] theorem shrink_var : t.shrink.var = t.var := by
  unfold Subtable.shrink
  split <;> rfl

/-! ## Changes -/

/-- A changed chain, seen from the entries of the whole table. -/
theorem modifyChain_perm (t : Subtable) (k : Children) :
    ∃ rest, t.entries.Perm (t.chainOf k ++ rest) ∧
      ∀ f : Chain → Chain, (t.modifyChain k f).entries.Perm (f (t.chainOf k) ++ rest) := by
  obtain ⟨rest, hall, hf⟩ := exists_flatten_modify_perm (t.getElem?_row k)
  refine ⟨rest, hall, fun f => ?_⟩
  simpa [entries, modifyChain] using hf f

theorem Lawful.entered?_of_perm {t' : Subtable} (h : t.Lawful) (h' : t'.Lawful)
    (hperm : t'.entries.Perm t.entries) (k : Children) : t'.entered? k = t.entered? k := by
  apply Option.ext
  intro n
  rw [h.entered?_eq_some_iff, h'.entered?_eq_some_iff, hperm.mem_iff]

/-- One entry more, at the end of its chain. -/
theorem Lawful.appended (h : t.Lawful) (hk : t.entered? k = none) (n : NodeId) :
    ({ t.modifyChain k (· ++ [⟨k, n⟩]) with count := t.count + 1 } : Subtable).Lawful ∧
      (t.modifyChain k (· ++ [⟨k, n⟩])).entries.Perm (⟨k, n⟩ :: t.entries) := by
  obtain ⟨rest, hall, hf⟩ := t.modifyChain_perm k
  have hperm : (t.modifyChain k (· ++ [⟨k, n⟩])).entries.Perm (⟨k, n⟩ :: t.entries) := by
    apply (hf _).trans
    apply List.Perm.trans ?_ (hall.symm.cons _)
    rw [List.append_assoc, List.singleton_append]
    exact List.perm_middle
  have hkeys : ((⟨k, n⟩ :: t.entries).map Entry.key).Nodup := by
    rw [List.map_cons, List.nodup_cons]
    refine ⟨fun hmem => ?_, h.keys_nodup⟩
    obtain ⟨⟨key, m⟩, he, rfl⟩ := List.mem_map.mp hmem
    rw [h.entered?_eq_some_iff.mpr he] at hk
    cases hk
  have hplaced : Placed t.var (t.modifyChain k (· ++ [⟨k, n⟩])).buckets := by
    refine h.placed.modify k fun c e he => ?_
    rcases List.mem_append.mp he with he | he
    · exact Or.inl he
    · exact Or.inr (by rw [List.mem_singleton.mp he])
  refine ⟨⟨hplaced, (hperm.map Entry.key).nodup_iff.mpr hkeys, ?_⟩, hperm⟩
  rw [h.count_eq]
  exact hperm.length_eq.symm

/-- A free key takes its node. -/
theorem Lawful.insert_free (h : t.Lawful) (hk : t.entered? k = none) (n : NodeId)
    (alive : NodeId → Bool) :
    ∃ t', t.insert k n alive = (.ok (), t') ∧ t'.Lawful ∧ t'.var = t.var ∧
      t'.entries.Perm (⟨k, n⟩ :: t.entries) := by
  obtain ⟨hg, hgperm⟩ := h.grow
  have hk' : t.grow.entered? k = none := by rw [h.entered?_of_perm hg hgperm, hk]
  obtain ⟨hlawful, hperm⟩ := hg.appended hk' n
  refine ⟨_, ?_, hlawful, ?_, hperm.trans (hgperm.cons _)⟩
  · simp [Subtable.insert, hk']
  · simp [modifyChain]

/-- A live node does not give way to another. -/
theorem Lawful.insert_refused {m : NodeId} {alive : NodeId → Bool} (h : t.Lawful)
    (hk : t.entered? k = some m) (hm : m ≠ n ∧ alive m) :
    ∃ t', t.insert k n alive = (.error (.shapeTaken t.var k.low k.high), t') ∧ t'.Lawful ∧
      t'.var = t.var ∧ t'.entries.Perm t.entries := by
  obtain ⟨hg, hgperm⟩ := h.grow
  have hk' : t.grow.entered? k = some m := by rw [h.entered?_of_perm hg hgperm, hk]
  exact ⟨t.grow, by simp [Subtable.insert, hk', hm], hg, grow_var, hgperm⟩

/-- One entry with another node. -/
theorem Lawful.overwritten {m : NodeId} (h : t.Lawful) (hk : t.entered? k = some m) (n : NodeId) :
    (t.modifyChain k (Chain.overwrite k n)).Lawful ∧
      ∃ rest, t.entries.Perm (⟨k, m⟩ :: rest) ∧
        (t.modifyChain k (Chain.overwrite k n)).entries.Perm (⟨k, n⟩ :: rest) := by
  obtain ⟨rest, hall, hf⟩ := t.modifyChain_perm k
  have hold : t.entries.Perm (⟨k, m⟩ :: (Chain.remove k (t.chainOf k) ++ rest)) :=
    hall.trans ((Chain.remove_perm hk).symm.append_right rest)
  have hnew : (t.modifyChain k (Chain.overwrite k n)).entries.Perm
      (⟨k, n⟩ :: (Chain.remove k (t.chainOf k) ++ rest)) :=
    (hf _).trans ((Chain.overwrite_perm hk n).append_right rest)
  have hkeys := (hold.map Entry.key).nodup_iff.mp h.keys_nodup
  refine ⟨⟨?_, (hnew.map Entry.key).nodup_iff.mpr hkeys, ?_⟩, _, hold, hnew⟩
  · refine h.placed.modify k fun c e he => ?_
    by_cases hek : e.key = k
    · exact Or.inr hek
    · exact Or.inl (Chain.mem_of_mem_overwrite he hek)
  · exact h.count_eq.trans (hold.length_eq.trans hnew.length_eq.symm)

/-- A node gives way to itself, and to any other when it is dead. -/
theorem Lawful.insert_over {m : NodeId} {alive : NodeId → Bool} (h : t.Lawful)
    (hk : t.entered? k = some m) (hm : ¬ (m ≠ n ∧ alive m)) :
    ∃ t', t.insert k n alive = (.ok (), t') ∧ t'.Lawful ∧ t'.var = t.var ∧
      ∃ rest, t.entries.Perm (⟨k, m⟩ :: rest) ∧ t'.entries.Perm (⟨k, n⟩ :: rest) := by
  obtain ⟨hg, hgperm⟩ := h.grow
  have hk' : t.grow.entered? k = some m := by rw [h.entered?_of_perm hg hgperm, hk]
  obtain ⟨hlawful, rest, hold, hnew⟩ := hg.overwritten hk' n
  refine ⟨_, ?_, hlawful, ?_, rest, hgperm.symm.trans hold, hnew⟩
  · rw [Subtable.insert]
    simp only [hk', if_neg hm]
  · simp [modifyChain]

/-- The entry of a key, taken out. -/
theorem Lawful.erase_entered (h : t.Lawful) (hk : t.entered? k = some n) :
    ∃ t', t.erase k = .ok (some n, t') ∧ t'.Lawful ∧ t'.var = t.var ∧
      (⟨k, n⟩ :: t'.entries).Perm t.entries := by
  obtain ⟨rest, hall, hf⟩ := t.modifyChain_perm k
  have hperm : (⟨k, n⟩ :: (t.modifyChain k (Chain.remove k)).entries).Perm t.entries := by
    refine .trans ((hf _).cons _) ?_
    refine .trans ?_ hall.symm
    exact (Chain.remove_perm hk).append_right rest
  have hcount : t.count = (t.modifyChain k (Chain.remove k)).entries.length + 1 := by
    rw [h.count_eq, ← hperm.length_eq, List.length_cons]
  have hlawful : ({ t.modifyChain k (Chain.remove k) with
      count := t.count - 1 } : Subtable).Lawful := by
    refine ⟨?_, ?_, ?_⟩
    · exact h.placed.modify k fun c e he => Or.inl (Chain.mem_of_mem_remove he)
    · have hkeys := (hperm.map Entry.key).nodup_iff.mpr h.keys_nodup
      rw [List.map_cons, List.nodup_cons] at hkeys
      exact hkeys.2
    · show t.count - 1 = List.length (t.modifyChain k _).entries
      omega
  obtain ⟨hs, hsperm⟩ := hlawful.shrink
  refine ⟨_, ?_, hs, by simp [modifyChain], (hsperm.cons _).trans hperm⟩
  have hdecrease : decrease t.count 1 = .ok (t.count - 1) := by
    rw [decrease, if_pos (by omega)]
  simp [Subtable.erase, hk, hdecrease, bind, Except.bind, pure, Except.pure]

/-- The entries of live nodes, and no others, are left. -/
theorem Lawful.removeDead_perm (h : t.Lawful) (alive : NodeId → Bool) :
    ∃ t', t.removeDead alive = .ok (t.entries.countP fun e => !alive e.node, t') ∧ t'.Lawful ∧
      t'.var = t.var ∧ t'.entries.Perm (t.entries.filter fun e => alive e.node) := by
  have hentries : (t.retain alive).entries = t.entries.filter fun e => alive e.node := by
    rw [entries, retain, Array.toList_map, entries, List.filter_flatten]
  have hlength : t.entries.length = (t.entries.filter fun e => alive e.node).length +
      t.entries.countP fun e => !alive e.node := by
    rw [List.length_eq_countP_add_countP (p := fun e : Entry => alive e.node),
      List.countP_eq_length_filter]
    simp
  have hlawful : ({ t.retain alive with
      count := t.count - t.entries.countP fun e => !alive e.node } : Subtable).Lawful := by
    refine ⟨h.placed.filter _, ?_, ?_⟩
    · show ((t.retain alive).entries.map Entry.key).Nodup
      rw [hentries]
      exact (List.filter_sublist.map Entry.key).nodup h.keys_nodup
    · show t.count - _ = (t.retain alive).entries.length
      rw [hentries, h.count_eq]
      omega
  obtain ⟨hs, hsperm⟩ := hlawful.shrink
  refine ⟨_, ?_, hs, by simp [retain], hsperm.trans (.of_eq hentries)⟩
  have hdecrease : decrease t.count (t.entries.countP fun e => !alive e.node) =
      .ok (t.count - t.entries.countP fun e => !alive e.node) := by
    rw [decrease, if_pos (by rw [h.count_eq]; exact List.countP_le_length)]
  simp [Subtable.removeDead, hdecrease, bind, Except.bind, pure, Except.pure]

end Subtable

end DecisionGraph
