import DecisionGraph.UniqueTable
import DecisionGraph.Proofs.Subtable

/-!
# Lawful unique tables

A lawful unique table has room for all variables, and the subtable of each is lawful. It is then a
partial function `entered?` from a variable and two children to a node, and each operation changes
this function at one place at most.

* `Lawful.find?_eq`, `Lawful.insert_free`, `Lawful.erase_entered` — one shape.
* `subtable_of_insert`, `subtable_of_erase` — the other subtables are not touched.
* `Lawful.size_eq`, `Lawful.removeDead_alive` — the whole bank, in number and after a sweep.
* `Lawful.ensure` — room for one more variable.
-/

namespace DecisionGraph

namespace UniqueTable

/-- The node entered for a shape, alive or not. -/
def entered? (t : UniqueTable) (v : Var) (k : Children) : Option NodeId :=
  t.subtables[v.index]?.bind (Subtable.entered? · k)

/-- A table with lawful subtables for the first `varCount` variables at least. -/
structure Lawful (t : UniqueTable) (varCount : Nat) : Prop where
  bank_pos : 0 < t.bankSize
  bank_le : varCount ≤ t.bankSize
  subtable : ∀ (i : Nat) (sub : Subtable), t.subtables[i]? = some sub → sub.Lawful ∧ sub.var = ⟨i⟩

variable {t : UniqueTable} {varCount : Nat} {v : Var} {k : Children} {n : NodeId}

theorem Lawful.exists_subtable (h : t.Lawful varCount) (hv : v.index < varCount) :
    ∃ sub, t.subtable v = .ok sub ∧ t.subtables[v.index]? = some sub ∧ sub.Lawful ∧ sub.var = v ∧
      ∀ k, t.entered? v k = sub.entered? k := by
  have hlt : v.index < t.subtables.size := Nat.lt_of_lt_of_le hv h.bank_le
  have hget : t.subtables[v.index]? = some t.subtables[v.index] := Array.getElem?_eq_getElem hlt
  obtain ⟨hl, hvar⟩ := h.subtable _ _ hget
  refine ⟨t.subtables[v.index], ?_, hget, hl, by rw [hvar], fun k => ?_⟩
  · simp only [UniqueTable.subtable, hget]
  · simp only [entered?, hget, Option.bind_some]

theorem Lawful.find?_eq (h : t.Lawful varCount) (hv : v.index < varCount) (k : Children)
    (alive : NodeId → Bool) : t.find? v k alive = .ok ((t.entered? v k).filter alive) := by
  obtain ⟨sub, hsub, -, -, -, hentered⟩ := h.exists_subtable hv
  rw [hentered]
  simp [find?, hsub, Subtable.find?, bind, Except.bind, pure, Except.pure]

/-- Another lawful subtable in place of one of the old. -/
theorem Lawful.setSubtable (h : t.Lawful varCount) {sub sub' : Subtable}
    (hget : t.subtables[v.index]? = some sub) (hl : sub'.Lawful) (hvar : sub'.var = sub.var) :
    (t.setSubtable v sub').Lawful varCount ∧
      ∀ w k, (t.setSubtable v sub').entered? w k =
        if w = v then sub'.entered? k else t.entered? w k := by
  have hlt : v.index < t.subtables.size := (Array.getElem?_eq_some_iff.mp hget).1
  refine ⟨⟨?_, ?_, ?_⟩, fun w k => ?_⟩
  · simpa [UniqueTable.setSubtable, bankSize] using h.bank_pos
  · simpa [UniqueTable.setSubtable, bankSize] using h.bank_le
  · intro i s hs
    simp only [UniqueTable.setSubtable, Array.getElem?_setIfInBounds] at hs
    split at hs
    · rename_i hi
      subst hi
      rw [Option.some.injEq] at hs
      subst hs
      exact ⟨hl, hvar.trans (h.subtable _ _ hget).2⟩
    · exact h.subtable i s hs
  · simp only [entered?, UniqueTable.setSubtable, Array.getElem?_setIfInBounds]
    by_cases hw : w = v
    · subst hw
      simp [hlt]
    · have hi : v.index ≠ w.index := fun hi => hw (by cases v; cases w; simpa using hi.symm)
      rw [if_neg hi, if_neg hw]

theorem Lawful.insert_free (h : t.Lawful varCount) (hv : v.index < varCount)
    (hk : t.entered? v k = none) (n : NodeId) (alive : NodeId → Bool) :
    ∃ t', t.insert v k n alive = .ok (.ok (), t') ∧ t'.Lawful varCount ∧
      ∀ w k', t'.entered? w k' = if w = v ∧ k' = k then some n else t.entered? w k' := by
  obtain ⟨sub, hsub, hget, hl, -, hentered⟩ := h.exists_subtable hv
  obtain ⟨sub', hinsert, hl', hvar', hperm⟩ := hl.insert_free (by rw [← hentered, hk]) n alive
  obtain ⟨hset, hset'⟩ := h.setSubtable hget hl' hvar'
  refine ⟨t.setSubtable v sub', ?_, hset, fun w k' => ?_⟩
  · simp [insert, hsub, hinsert, bind, Except.bind, pure, Except.pure]
  · rw [hset']
    by_cases hw : w = v
    · subst hw
      rw [if_pos rfl, hentered]
      by_cases hkk : k' = k
      · subst hkk
        rw [if_pos ⟨rfl, rfl⟩]
        exact hl'.entered?_eq_some_iff.mpr (hperm.mem_iff.mpr List.mem_cons_self)
      · rw [if_neg fun h => hkk h.2]
        apply Option.ext
        intro m
        rw [hl'.entered?_eq_some_iff, hl.entered?_eq_some_iff, hperm.mem_iff, List.mem_cons]
        simp [hkk]
    · rw [if_neg hw, if_neg fun h => hw h.1]

theorem Lawful.erase_entered (h : t.Lawful varCount) (hv : v.index < varCount)
    (hk : t.entered? v k = some n) :
    ∃ t', t.erase v k = .ok (some n, t') ∧ t'.Lawful varCount ∧
      ∀ w k', t'.entered? w k' = if w = v ∧ k' = k then none else t.entered? w k' := by
  obtain ⟨sub, hsub, hget, hl, -, hentered⟩ := h.exists_subtable hv
  rw [hentered] at hk
  obtain ⟨sub', herase, hl', hvar', hperm⟩ := hl.erase_entered hk
  obtain ⟨hset, hset'⟩ := h.setSubtable hget hl' hvar'
  refine ⟨t.setSubtable v sub', ?_, hset, fun w k' => ?_⟩
  · simp [erase, hsub, herase, bind, Except.bind, pure, Except.pure]
  · rw [hset']
    by_cases hw : w = v
    · subst hw
      rw [if_pos rfl, hentered]
      have hkeys := (hperm.map Entry.key).nodup_iff.mpr hl.keys_nodup
      rw [List.map_cons, List.nodup_cons] at hkeys
      by_cases hkk : k' = k
      · subst hkk
        rw [if_pos ⟨rfl, rfl⟩, Option.eq_none_iff_forall_ne_some]
        intro m hm
        exact hkeys.1 (List.mem_map.mpr ⟨_, hl'.entered?_eq_some_iff.mp hm, rfl⟩)
      · rw [if_neg fun h => hkk h.2]
        apply Option.ext
        intro m
        rw [hl'.entered?_eq_some_iff, hl.entered?_eq_some_iff, ← hperm.mem_iff, List.mem_cons]
        simp [hkk]
    · rw [if_neg hw, if_neg fun h => hw h.1]

/-! ## The other subtables -/

section Others

variable {t' : UniqueTable} {x : Var}

theorem subtable_setSubtable (t : UniqueTable) (sub : Subtable) (hx : x ≠ v) :
    (t.setSubtable v sub).subtable x = t.subtable x := by
  have hi : v.index ≠ x.index := fun hi => hx (by cases v; cases x; simpa using hi.symm)
  simp only [UniqueTable.subtable, UniqueTable.setSubtable, Array.getElem?_setIfInBounds, if_neg hi]

/-- Only the subtable of the variable of a shape is written to when the shape is entered. -/
theorem subtable_of_insert {alive : NodeId → Bool} {result : Except Rejection Unit}
    (h : t.insert v k n alive = .ok (result, t')) (hx : x ≠ v) : t'.subtable x = t.subtable x := by
  unfold UniqueTable.insert at h
  cases hsub : t.subtable v with
  | error e => simp [hsub, bind, Except.bind] at h
  | ok sub =>
    simp only [hsub, bind, Except.bind, pure, Except.pure, Except.ok.injEq, Prod.mk.injEq] at h
    rw [← h.2, subtable_setSubtable t _ hx]

/-- Only the subtable of the variable of a shape is written to when the shape is taken out. -/
theorem subtable_of_erase {found : Option NodeId} (h : t.erase v k = .ok (found, t'))
    (hx : x ≠ v) : t'.subtable x = t.subtable x := by
  unfold UniqueTable.erase at h
  cases hsub : t.subtable v with
  | error e => simp [hsub, bind, Except.bind] at h
  | ok sub =>
    cases herase : sub.erase k with
    | error e => simp [hsub, herase, bind, Except.bind] at h
    | ok p =>
      simp only [hsub, herase, bind, Except.bind, pure, Except.pure, Except.ok.injEq,
        Prod.mk.injEq] at h
      rw [← h.2, subtable_setSubtable t _ hx]

end Others

/-! ## The whole bank -/

/-- The size counts every entry of every subtable. -/
theorem Lawful.size_eq (h : t.Lawful varCount) :
    t.size = (t.subtables.toList.flatMap Subtable.nodes).length := by
  have hcount : ∀ sub ∈ t.subtables.toList, sub.count = sub.nodes.length := by
    intro sub hsub
    obtain ⟨i, hi⟩ := List.mem_iff_getElem?.mp hsub
    rw [Array.getElem?_toList] at hi
    rw [(h.subtable i sub hi).1.count_eq, Subtable.nodes, List.length_map]
  unfold UniqueTable.size
  generalize t.subtables.toList = subs at hcount
  induction subs with
  | nil => rfl
  | cons sub subs ih =>
    rw [List.foldr_cons, List.flatMap_cons, List.length_append, hcount sub List.mem_cons_self,
      ih fun sub' hsub' => hcount sub' (List.mem_cons_of_mem _ hsub')]

/-- A sweep of lawful subtables that hold live nodes only changes no entry. -/
theorem removeDeadFrom_alive {alive : NodeId → Bool} {subs : List Subtable}
    (hl : ∀ sub ∈ subs, sub.Lawful) (ha : ∀ sub ∈ subs, ∀ e ∈ sub.entries, alive e.node) :
    ∃ subs', removeDeadFrom alive subs = .ok (0, subs') ∧ subs'.length = subs.length ∧
      ∀ (i : Nat) (sub' : Subtable), subs'[i]? = some sub' →
        ∃ sub, subs[i]? = some sub ∧ sub'.Lawful ∧ sub'.var = sub.var ∧
          ∀ k, sub'.entered? k = sub.entered? k := by
  induction subs with
  | nil => exact ⟨[], rfl, rfl, fun i sub' h => by simp at h⟩
  | cons sub subs ih =>
    obtain ⟨subs', hrest, hlength, hall⟩ := ih (fun s hs => hl s (List.mem_cons_of_mem _ hs))
      (fun s hs => ha s (List.mem_cons_of_mem _ hs))
    have hsub := hl sub List.mem_cons_self
    obtain ⟨sub', hrun, hl', hvar', hperm⟩ := hsub.removeDead_perm alive
    have halive := ha sub List.mem_cons_self
    have hfilter : sub.entries.filter (fun e => alive e.node) = sub.entries :=
      List.filter_eq_self.mpr halive
    have hcount : sub.entries.countP (fun e => !alive e.node) = 0 :=
      List.countP_eq_zero.mpr fun e he => by simp [halive e he]
    rw [hfilter] at hperm
    refine ⟨sub' :: subs', ?_, by simp [hlength], fun i s hs => ?_⟩
    · simp [removeDeadFrom, hrun, hrest, hcount, bind, Except.bind, pure, Except.pure]
    · cases i with
      | zero =>
        rw [List.getElem?_cons_zero, Option.some.injEq] at hs
        subst hs
        exact ⟨sub, rfl, hl', hvar', hsub.entered?_of_perm hl' hperm⟩
      | succ i => exact hall i s (by simpa using hs)

/-- A sweep finds nothing to take out if all nodes entered are alive. -/
theorem Lawful.removeDead_alive (h : t.Lawful varCount) {alive : NodeId → Bool}
    (ha : ∀ v k n, t.entered? v k = some n → alive n) :
    ∃ t', t.removeDead alive = .ok (0, t') ∧ t'.Lawful varCount ∧
      ∀ w k, t'.entered? w k = t.entered? w k := by
  have hget : ∀ sub ∈ t.subtables.toList, ∃ i : Nat, t.subtables[i]? = some sub := by
    intro sub hsub
    obtain ⟨i, hi⟩ := List.mem_iff_getElem?.mp hsub
    exact ⟨i, by rwa [Array.getElem?_toList] at hi⟩
  have hl : ∀ sub ∈ t.subtables.toList, sub.Lawful := by
    intro sub hsub
    obtain ⟨i, hi⟩ := hget sub hsub
    exact (h.subtable i sub hi).1
  have hentries : ∀ sub ∈ t.subtables.toList, ∀ e ∈ sub.entries, alive e.node := by
    intro sub hsub e he
    obtain ⟨i, hi⟩ := hget sub hsub
    apply ha ⟨i⟩ e.key e.node
    simp only [entered?, hi, Option.bind_some]
    exact (h.subtable i sub hi).1.entered?_eq_some_iff.mpr he
  obtain ⟨subs', hrun, hlength, hall⟩ := removeDeadFrom_alive hl hentries
  replace hlength : subs'.length = t.subtables.size := by simpa using hlength
  simp only [Array.getElem?_toList] at hall
  have hpos := h.bank_pos
  have hle := h.bank_le
  simp only [bankSize] at hpos hle
  refine ⟨{ t with subtables := subs'.toArray }, ?_, ⟨?_, ?_, ?_⟩, fun w k => ?_⟩
  · simp [removeDead, hrun, bind, Except.bind, pure, Except.pure]
  · simp only [bankSize, List.size_toArray]
    omega
  · simp only [bankSize, List.size_toArray]
    omega
  · intro i sub' hi
    rw [List.getElem?_toArray] at hi
    obtain ⟨sub, hsub, hl, hvar, -⟩ := hall i sub' hi
    exact ⟨hl, hvar.trans (h.subtable i sub hsub).2⟩
  · simp only [entered?, List.getElem?_toArray]
    cases hi : subs'[w.index]? with
    | some sub' =>
      obtain ⟨sub, hsub, -, -, hk⟩ := hall _ sub' hi
      simp [hsub, hk]
    | none =>
      have hge := List.getElem?_eq_none_iff.mp hi
      rw [Array.getElem?_eq_none (by omega)]

theorem lt_doubledPast {i steps size : Nat} (hpos : 0 < size) (h : i < size + steps) :
    i < doubledPast i steps size := by
  induction steps generalizing size with
  | zero => exact h
  | succ steps ih =>
    rw [doubledPast]
    split
    · exact ih (by omega) (by omega)
    · omega

theorem le_doubledPast (i steps size : Nat) : size ≤ doubledPast i steps size := by
  induction steps generalizing size with
  | zero => exact Nat.le_refl _
  | succ steps ih =>
    rw [doubledPast]
    split
    · exact Nat.le_trans (by omega) (ih (2 * size))
    · exact Nat.le_refl _

theorem getElem?_emptySubtables {first count buckets i : Nat} {sub : Subtable}
    (h : (emptySubtables first count buckets)[i]? = some sub) :
    sub = .empty ⟨first + i⟩ buckets := by
  simp only [emptySubtables, Array.getElem?_map, Option.map_eq_some_iff] at h
  obtain ⟨j, hj, rfl⟩ := h
  obtain ⟨hlt, hj⟩ := Array.getElem?_eq_some_iff.mp hj
  rw [Array.getElem_range] at hj
  rw [hj]

@[simp] theorem size_emptySubtables (first count buckets : Nat) :
    (emptySubtables first count buckets).size = count := by
  simp [emptySubtables]

theorem entered?_empty_subtable (v : Var) (buckets : Nat) (k : Children) :
    (Subtable.empty v buckets).entered? k = none := by
  rw [Option.eq_none_iff_forall_ne_some]
  intro n hn
  have := (Subtable.lawful_empty v buckets).entered?_eq_some_iff.mp hn
  simp at this

theorem lawful_empty (varCount buckets : Nat) : (empty varCount buckets).Lawful varCount where
  bank_pos := by
    simp only [empty, bankSize, size_emptySubtables, minBank]
    omega
  bank_le := by
    simp only [empty, bankSize, size_emptySubtables]
    omega
  subtable i sub h := by
    rw [getElem?_emptySubtables h, Nat.zero_add]
    exact ⟨Subtable.lawful_empty _ _, rfl⟩

theorem entered?_empty (varCount buckets : Nat) (v : Var) (k : Children) :
    (empty varCount buckets).entered? v k = none := by
  cases h : (empty varCount buckets).subtables[v.index]? with
  | none => simp [entered?, h]
  | some sub =>
    simp only [entered?, h, Option.bind_some]
    rw [getElem?_emptySubtables h]
    exact entered?_empty_subtable _ _ _

theorem Lawful.ensure (h : t.Lawful varCount) :
    (t.ensure ⟨varCount⟩).Lawful (varCount + 1) ∧
      ∀ w k, (t.ensure ⟨varCount⟩).entered? w k = t.entered? w k := by
  have hlt : varCount < doubledPast varCount (varCount + 1) t.bankSize :=
    lt_doubledPast h.bank_pos (by omega)
  have hle := le_doubledPast varCount (varCount + 1) t.bankSize
  have hpos := h.bank_pos
  simp only [bankSize] at hlt hle hpos
  refine ⟨⟨?_, ?_, fun i sub hi => ?_⟩, fun w k => ?_⟩
  · simp only [UniqueTable.ensure, bankSize, Array.size_append, size_emptySubtables]
    omega
  · simp only [UniqueTable.ensure, bankSize, Array.size_append, size_emptySubtables]
    omega
  · simp only [UniqueTable.ensure, bankSize, Array.getElem?_append] at hi
    split at hi
    · exact h.subtable i sub hi
    · rename_i hge
      rw [getElem?_emptySubtables hi]
      refine ⟨Subtable.lawful_empty _ _, ?_⟩
      show (⟨t.subtables.size + (i - t.subtables.size)⟩ : Var) = ⟨i⟩
      congr 1
      omega
  · simp only [entered?, UniqueTable.ensure, bankSize, Array.getElem?_append]
    split
    · rfl
    · rename_i hge
      have hnone : t.subtables[w.index]? = none := Array.getElem?_eq_none (by omega)
      rw [hnone, Option.bind_none]
      apply Option.bind_eq_none_iff.mpr
      intro sub hi
      rw [getElem?_emptySubtables hi]
      exact entered?_empty_subtable _ _ _

end UniqueTable

end DecisionGraph
