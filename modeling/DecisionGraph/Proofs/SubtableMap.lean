import Std.Data.ExtTreeMap
import DecisionGraph.Proofs.Subtable

/-!
# Subtables as finite maps

A subtable is a finite map from children to nodes. Every call on it is answered as the map says, and
its buckets do not show, however often the row has been doubled and halved on the way. Which nodes
are alive is told anew with each call, and may change from any call to any other: the table itself
forgets nothing that has not been taken out or overwritten.

* `TableCall`, `Subtable.perform`, `ShapeMap.perform` — the calls, on a table and on a map.
* `Represents`, `Represents.perform` — a call on a table that represents a map.
* `Represents.shows` — what such a table shows of the map.
* `performAll_shows` — any calls on a new table.
-/

namespace DecisionGraph

namespace Children

/-- The two children as a word of nodes. -/
def word (k : Children) : List NodeId := [k.low, k.high]

theorem word_injective {k k' : Children} (h : k.word = k'.word) : k = k' := by
  cases k
  cases k'
  simpa [word] using h

instance : Ord Children := ⟨compareOn word⟩

instance : Std.TransOrd Children := inferInstanceAs (Std.TransCmp (compareOn word))

instance : Std.LawfulEqOrd Children where
  eq_of_compare h := word_injective (Std.LawfulEqOrd.eq_of_compare h)

end Children

/-- A finite map from children to nodes. -/
abbrev ShapeMap := Std.ExtTreeMap Children NodeId

/-- A call on a subtable. -/
inductive TableCall where
  | find (k : Children)
  | insert (k : Children) (n : NodeId)
  | erase (k : Children)
  | removeDead
deriving DecidableEq, Repr

/-- What a call on a subtable tells. -/
inductive TableAnswer where
  | node (found : Option NodeId)
  | entered (result : Except Rejection Unit)
  /-- How many entries were taken out. -/
  | removed (count : Nat)

/-- A call, and which nodes are alive at the time. -/
abbrev TimedCall := TableCall × (NodeId → Bool)

/-! ## Calls on a map -/

namespace ShapeMap

/-- What a call does to the map of the nodes that test `v`. A live node gives way to no other. -/
def perform (v : Var) (m : ShapeMap) : TimedCall → TableAnswer × ShapeMap
  | (.find k, alive) => (.node (m[k]?.filter alive), m)
  | (.insert k n, alive) =>
    if ∃ n', m[k]? = some n' ∧ n' ≠ n ∧ alive n' then
      (.entered (.error (.shapeTaken v k.low k.high)), m)
    else (.entered (.ok ()), m.insert k n)
  | (.erase k, _) => (.node m[k]?, m.erase k)
  | (.removeDead, alive) =>
    (.removed (m.filter fun _ n => !alive n).size, m.filter fun _ n => alive n)

/-- What calls do to the map, one after the other, and all that they tell. -/
def performAll (v : Var) : List TimedCall → ShapeMap → List TableAnswer × ShapeMap
  | [], m => ([], m)
  | call :: calls, m =>
    let (answer, m) := perform v m call
    let (answers, m) := performAll v calls m
    (answer :: answers, m)

/-- The entries of a map. -/
def entries (m : ShapeMap) : List Entry := m.toList.map fun p => ⟨p.1, p.2⟩

/-- The nodes of a map, one for each key. -/
def nodes (m : ShapeMap) : List NodeId := m.toList.map Prod.snd

variable {m : ShapeMap} {k : Children} {n : NodeId}

theorem perform_insert_refused {n' : NodeId} {alive : NodeId → Bool} (v : Var)
    (hk : m[k]? = some n') (hn : n' ≠ n ∧ alive n') :
    perform v m (.insert k n, alive) = (.entered (.error (.shapeTaken v k.low k.high)), m) :=
  if_pos ⟨n', hk, hn⟩

theorem perform_insert {alive : NodeId → Bool} (v : Var)
    (hn : ∀ n', m[k]? = some n' → ¬ (n' ≠ n ∧ alive n')) :
    perform v m (.insert k n, alive) = (.entered (.ok ()), m.insert k n) :=
  if_neg fun ⟨n', hk, h⟩ => hn n' hk h

theorem getElem?_insert (m : ShapeMap) (k k' : Children) (n : NodeId) :
    (m.insert k n)[k']? = if k' = k then some n else m[k']? := by
  simp only [Std.ExtTreeMap.getElem?_insert, Std.LawfulEqOrd.compare_eq_iff_eq,
    eq_comm (a := k)]

theorem getElem?_erase (m : ShapeMap) (k k' : Children) :
    (m.erase k)[k']? = if k' = k then none else m[k']? := by
  simp only [Std.ExtTreeMap.getElem?_erase, Std.LawfulEqOrd.compare_eq_iff_eq,
    eq_comm (a := k)]

theorem mem_entries_iff : (⟨k, n⟩ : Entry) ∈ m.entries ↔ m[k]? = some n := by
  rw [← Std.ExtTreeMap.mem_toList_iff_getElem?_eq_some, entries, List.mem_map]
  constructor
  · rintro ⟨⟨k', n'⟩, hmem, heq⟩
    cases heq
    exact hmem
  · exact fun hmem => ⟨_, hmem, rfl⟩

theorem entries_keys_nodup (m : ShapeMap) : (m.entries.map Entry.key).Nodup := by
  rw [entries, List.map_map]
  exact Std.ExtTreeMap.map_fst_toList_eq_keys (t := m) ▸ Std.ExtTreeMap.nodup_keys

theorem length_entries (m : ShapeMap) : m.entries.length = m.size := by
  rw [entries, List.length_map, Std.ExtTreeMap.length_toList]

theorem size_filter (m : ShapeMap) (p : NodeId → Bool) :
    (m.filter fun _ n => p n).size = m.entries.countP fun e => p e.node := by
  rw [← Std.ExtTreeMap.length_toList, Std.ExtTreeMap.toList_filter, entries, List.countP_map,
    List.countP_eq_length_filter]
  rfl

end ShapeMap

/-! ## Calls on a table -/

namespace Subtable

/-- What a call does to a table. -/
def perform (t : Subtable) : TimedCall → Except Fault (TableAnswer × Subtable)
  | (.find k, alive) => .ok (.node (t.find? k alive), t)
  | (.insert k n, alive) =>
    let (result, t) := t.insert k n alive
    .ok (.entered result, t)
  | (.erase k, _) => do
    let (found, t) ← t.erase k
    return (.node found, t)
  | (.removeDead, alive) => do
    let (count, t) ← t.removeDead alive
    return (.removed count, t)

/-- What calls do to a table, one after the other, and all that they tell. -/
def performAll : List TimedCall → Subtable → Except Fault (List TableAnswer × Subtable)
  | [], t => .ok ([], t)
  | call :: calls, t => do
    let (answer, t) ← t.perform call
    let (answers, t) ← performAll calls t
    return (answer :: answers, t)

/-- What can be seen of the table is as in the map: the number of its keys, and for each of them its
node, once. -/
structure Shows (t : Subtable) (m : ShapeMap) : Prop where
  count : t.count = m.size
  isEmpty : t.isEmpty = m.isEmpty
  nodes : t.nodes.Perm m.nodes

/-- The table is lawful, and finds what is in the map. -/
structure Represents (t : Subtable) (m : ShapeMap) : Prop where
  lawful : t.Lawful
  mem_entries : ∀ k n, (⟨k, n⟩ : Entry) ∈ t.entries ↔ m[k]? = some n

variable {t t' : Subtable} {m : ShapeMap} {k : Children} {n : NodeId}

theorem represents_empty (v : Var) (buckets : Nat) : (empty v buckets).Represents ∅ where
  lawful := lawful_empty v buckets
  mem_entries k n := by simp

theorem Represents.entered? (h : t.Represents m) (k : Children) : t.entered? k = m[k]? := by
  apply Option.ext
  intro n
  rw [h.lawful.entered?_eq_some_iff, h.mem_entries]

theorem Represents.entries_perm (h : t.Represents m) : t.entries.Perm m.entries := by
  have hnodup : ∀ es : List Entry, (es.map Entry.key).Nodup → es.Nodup := fun es =>
    List.Pairwise.of_map Entry.key fun _ _ hne heq => hne (congrArg Entry.key heq)
  refine (List.perm_ext_iff_of_nodup (hnodup _ h.lawful.keys_nodup)
    (hnodup _ m.entries_keys_nodup)).mpr ?_
  rintro ⟨k, n⟩
  rw [h.mem_entries, ShapeMap.mem_entries_iff]

theorem Represents.shows (h : t.Represents m) : t.Shows m := by
  have hcount : t.count = m.size := by
    rw [h.lawful.count_eq, h.entries_perm.length_eq, m.length_entries]
  refine ⟨hcount, ?_, ?_⟩
  · rw [Subtable.isEmpty, hcount, Std.ExtTreeMap.isEmpty_eq_size_beq_zero]
  · have hnodes := h.entries_perm.map Entry.node
    rwa [ShapeMap.entries, List.map_map] at hnodes

/-- The same entries in other buckets. -/
theorem Represents.of_perm (h : t.Represents m) (ht : t'.Lawful)
    (hperm : t'.entries.Perm t.entries) : t'.Represents m :=
  ⟨ht, fun k n => hperm.mem_iff.trans (h.mem_entries k n)⟩

/-- Where keys differ, the key of an entry is free among the others. -/
theorem not_mem_of_keys_nodup {rest : List Entry} {n' : NodeId}
    (h : ((⟨k, n⟩ :: rest).map Entry.key).Nodup) : (⟨k, n'⟩ : Entry) ∉ rest := by
  rw [List.map_cons, List.nodup_cons] at h
  exact fun hmem => h.1 (List.mem_map.mpr ⟨_, hmem, rfl⟩)

/-- With `k` free among the other entries, the entry of `k` is what an insertion makes it. -/
theorem represents_insert {rest : List Entry} (ht : t'.Lawful)
    (hperm : t'.entries.Perm (⟨k, n⟩ :: rest))
    (hrest : ∀ k' n', k' ≠ k → ((⟨k', n'⟩ : Entry) ∈ rest ↔ m[k']? = some n')) :
    t'.Represents (m.insert k n) := by
  refine ⟨ht, fun k' n' => ?_⟩
  have hkeys := (hperm.map Entry.key).nodup_iff.mp ht.keys_nodup
  rw [hperm.mem_iff, List.mem_cons, ShapeMap.getElem?_insert, Entry.mk.injEq]
  by_cases hk : k' = k
  · subst hk
    simp [not_mem_of_keys_nodup hkeys, eq_comm]
  · rw [if_neg hk, hrest k' n' hk]
    simp [hk]

theorem Represents.insert (h : t.Represents m) (k : Children) (n : NodeId)
    (alive : NodeId → Bool) :
    ∃ t', t.perform (.insert k n, alive) =
        .ok ((ShapeMap.perform t.var m (.insert k n, alive)).1, t') ∧
      t'.Represents (ShapeMap.perform t.var m (.insert k n, alive)).2 ∧ t'.var = t.var := by
  cases hk : t.entered? k with
  | none =>
    obtain ⟨t', hrun, ht, hvar, hperm⟩ := h.lawful.insert_free hk n alive
    rw [ShapeMap.perform_insert t.var fun n' hn' => by simp [← h.entered?, hk] at hn']
    refine ⟨t', by simp [Subtable.perform, hrun], ?_, hvar⟩
    exact represents_insert ht hperm fun k' n' _ => h.mem_entries k' n'
  | some n' =>
    by_cases hn : n' ≠ n ∧ alive n'
    · obtain ⟨t', hrun, ht, hvar, hperm⟩ := h.lawful.insert_refused hk hn
      rw [ShapeMap.perform_insert_refused t.var (h.entered? k ▸ hk) hn]
      exact ⟨t', by simp [Subtable.perform, hrun], h.of_perm ht hperm, hvar⟩
    · obtain ⟨t', hrun, ht, hvar, rest, hold, hnew⟩ := h.lawful.insert_over hk hn
      rw [ShapeMap.perform_insert t.var fun n'' hn'' => by
        rw [← h.entered?, hk, Option.some.injEq] at hn''
        exact hn'' ▸ hn]
      refine ⟨t', by simp [Subtable.perform, hrun], ?_, hvar⟩
      refine represents_insert ht hnew fun k' n'' hk' => ?_
      rw [← h.mem_entries, hold.mem_iff, List.mem_cons, Entry.mk.injEq]
      simp [hk']

theorem Represents.erase (h : t.Represents m) (k : Children) :
    ∃ t', t.erase k = .ok (m[k]?, t') ∧ t'.Represents (m.erase k) ∧ t'.var = t.var := by
  cases hk : t.entered? k with
  | none =>
    refine ⟨t, by simp [Subtable.erase, hk, ← h.entered?], ⟨h.lawful, fun k' n' => ?_⟩, rfl⟩
    rw [h.mem_entries, ShapeMap.getElem?_erase]
    split
    · rename_i heq
      rw [heq, ← h.entered?, hk]
    · rfl
  | some n =>
    obtain ⟨t', hrun, ht, hvar, hperm⟩ := h.lawful.erase_entered hk
    rw [h.entered?] at hk
    refine ⟨t', hk ▸ hrun, ⟨ht, fun k' n' => ?_⟩, hvar⟩
    have hkeys := (hperm.map Entry.key).nodup_iff.mpr h.lawful.keys_nodup
    rw [ShapeMap.getElem?_erase]
    split
    · rename_i heq
      subst heq
      simp [not_mem_of_keys_nodup hkeys]
    · rename_i hne
      rw [← h.mem_entries, ← hperm.mem_iff, List.mem_cons, Entry.mk.injEq]
      simp [hne]

theorem Represents.removeDead (h : t.Represents m) (alive : NodeId → Bool) :
    ∃ t', t.removeDead alive = .ok ((m.filter fun _ n => !alive n).size, t') ∧
      t'.Represents (m.filter fun _ n => alive n) ∧ t'.var = t.var := by
  obtain ⟨t', hrun, ht, hvar, hperm⟩ := h.lawful.removeDead_perm alive
  rw [h.entries_perm.countP_eq, ← m.size_filter fun n => !alive n] at hrun
  refine ⟨t', hrun, ⟨ht, fun k n => ?_⟩, hvar⟩
  rw [hperm.mem_iff, List.mem_filter, h.mem_entries, Std.ExtTreeMap.getElem?_filter',
    Option.filter_eq_some_iff]

/-- A call on a table that represents a map is answered as on the map, and represents what the map
has become. -/
theorem Represents.perform (h : t.Represents m) (call : TimedCall) :
    ∃ t', t.perform call = .ok ((ShapeMap.perform t.var m call).1, t') ∧
      t'.Represents (ShapeMap.perform t.var m call).2 ∧ t'.var = t.var := by
  obtain ⟨call, alive⟩ := call
  cases call with
  | find k => exact ⟨t, by simp [Subtable.perform, ShapeMap.perform, find?, h.entered?], h, rfl⟩
  | insert k n => exact h.insert k n alive
  | erase k =>
    obtain ⟨t', hrun, ht⟩ := h.erase k
    exact ⟨t', by rw [Subtable.perform, hrun]; rfl, ht⟩
  | removeDead =>
    obtain ⟨t', hrun, ht⟩ := h.removeDead alive
    exact ⟨t', by rw [Subtable.perform, hrun]; rfl, ht⟩

theorem Represents.performAll (h : t.Represents m) (calls : List TimedCall) :
    ∃ t', t.performAll calls = .ok ((ShapeMap.performAll t.var calls m).1, t') ∧
      t'.Represents (ShapeMap.performAll t.var calls m).2 := by
  induction calls generalizing t m with
  | nil => exact ⟨t, rfl, h⟩
  | cons call calls ih =>
    obtain ⟨t₁, hrun, h₁, hvar⟩ := h.perform call
    obtain ⟨t₂, hruns, h₂⟩ := ih h₁
    rw [hvar] at hruns h₂
    refine ⟨t₂, ?_, h₂⟩
    rw [Subtable.performAll, hrun]
    show (do
      let (answers, t) ← Subtable.performAll calls t₁
      return (_ :: answers, t)) = _
    rw [hruns]
    rfl

/-- A new table for any variable and any number of buckets answers all calls as a finite map does
that was empty, and shows what the map shows after each of them. -/
theorem performAll_shows (v : Var) (buckets : Nat) (calls : List TimedCall) :
    ∃ t, (empty v buckets).performAll calls = .ok ((ShapeMap.performAll v calls ∅).1, t) ∧
      t.Shows (ShapeMap.performAll v calls ∅).2 := by
  obtain ⟨t, hrun, ht⟩ := (represents_empty v buckets).performAll calls
  exact ⟨t, hrun, ht.shows⟩

end Subtable

end DecisionGraph
