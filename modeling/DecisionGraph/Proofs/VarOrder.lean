import DecisionGraph.VarOrder

/-!
# Lawful variable orders

In a lawful order the two directions are inverse to each other: a variable is on a level exactly if
the level is the variable's. The orders that arise are lawful: the order by indices, an order with
one more variable at the bottom, and an order in which two neighbours have changed places.

* `Lawful.varAt?_eq_some_iff`, `Lawful.perm` — what a lawful order is.
* `lawful_byIndex`, `Lawful.push`, `Lawful.exchange` — the orders that arise.
* `Lawful.levelOf_exchange` — where the variables are after an exchange.
-/

namespace DecisionGraph

namespace VarOrder

/-- Levels and variables correspond to each other. -/
structure Lawful (o : VarOrder) : Prop where
  level_of_var : ∀ (l : Level) (v : Var), o.vars[l]? = some v → o.levels[v.index]? = some l
  var_of_level : ∀ (i : Nat) (l : Level), o.levels[i]? = some l → o.vars[l]? = some ⟨i⟩

variable {o p : VarOrder} {v w : Var} {l : Level}

theorem getElem?_levels (hv : o.knows v) :
    o.levels[v.index]? = some (o.levelOf v) := by
  have hlt : v.index < o.levels.size := by
    rw [o.size_levels]
    exact knows_iff.mp hv
  simp [levelOf, hlt]

theorem levelOf_of_not_knows (hv : ¬ o.knows v) : o.levelOf v = o.size := by
  have hle : o.levels.size ≤ v.index := by
    rw [o.size_levels]
    exact Nat.le_of_not_lt fun hlt => hv (knows_iff.mpr hlt)
  simp [levelOf, hle]

theorem Lawful.varAt?_levelOf (h : o.Lawful) (hv : o.knows v) :
    o.varAt? (o.levelOf v) = some v := h.var_of_level _ _ (getElem?_levels hv)

theorem Lawful.knows_of_varAt? (h : o.Lawful) (hl : o.varAt? l = some v) : o.knows v := by
  have hlt := (Array.getElem?_eq_some_iff.mp (h.level_of_var l v hl)).1
  rw [o.size_levels] at hlt
  exact knows_iff.mpr hlt

theorem Lawful.levelOf_of_varAt? (h : o.Lawful) (hl : o.varAt? l = some v) : o.levelOf v = l := by
  have hlevel := h.level_of_var l v hl
  rw [getElem?_levels (h.knows_of_varAt? hl), Option.some.injEq] at hlevel
  exact hlevel

theorem Lawful.varAt?_eq_some_iff (h : o.Lawful) :
    o.varAt? l = some v ↔ o.knows v ∧ o.levelOf v = l := by
  constructor
  · intro hl
    exact ⟨h.knows_of_varAt? hl, h.levelOf_of_varAt? hl⟩
  · rintro ⟨hv, rfl⟩
    exact h.varAt?_levelOf hv

theorem varAt?_isSome (hl : l < o.size) : ∃ v, o.varAt? l = some v :=
  ⟨o.vars[l], Array.getElem?_eq_getElem hl⟩

theorem lt_size_of_varAt? (hl : o.varAt? l = some v) : l < o.size :=
  (Array.getElem?_eq_some_iff.mp hl).1

theorem Lawful.levelOf_lt (h : o.Lawful) (hv : o.knows v) : o.levelOf v < o.size :=
  lt_size_of_varAt? (h.varAt?_levelOf hv)

theorem Lawful.levelOf_le (h : o.Lawful) (v : Var) : o.levelOf v ≤ o.size := by
  by_cases hv : o.knows v
  · exact Nat.le_of_lt (h.levelOf_lt hv)
  · exact Nat.le_of_eq (levelOf_of_not_knows hv)

theorem Lawful.levelOf_injective (h : o.Lawful) (hv : o.knows v)
    (heq : o.levelOf v = o.levelOf w) : v = w := by
  by_cases hw : o.knows w
  · have hv' := h.varAt?_levelOf hv
    rw [heq, h.varAt?_levelOf hw, Option.some.injEq] at hv'
    exact hv'.symm
  · rw [levelOf_of_not_knows hw] at heq
    exact absurd heq (Nat.ne_of_lt (h.levelOf_lt hv))

/-- A lawful order is known by the levels of its variables. -/
theorem Lawful.ext_levelOf (h : o.Lawful) (h' : p.Lawful) (hsize : o.size = p.size)
    (hlevel : ∀ x, o.levelOf x = p.levelOf x) : o = p := by
  have hknows : ∀ x, o.knows x ↔ p.knows x := by simp [knows_iff, hsize]
  have hvars : o.vars = p.vars := by
    refine Array.ext_getElem? fun l => Option.ext fun x => ?_
    show o.varAt? l = some x ↔ p.varAt? l = some x
    rw [h.varAt?_eq_some_iff, h'.varAt?_eq_some_iff, hknows, hlevel]
  have hlevels : o.levels = p.levels := by
    refine Array.ext_getElem? fun i => ?_
    by_cases hx : o.knows ⟨i⟩
    · exact (getElem?_levels hx).trans
        ((hlevel ⟨i⟩).symm ▸ (getElem?_levels ((hknows _).mp hx)).symm)
    · have hle : o.size ≤ i := Nat.le_of_not_lt fun hlt => hx (knows_iff.mpr hlt)
      rw [Array.getElem?_eq_none (Nat.le_trans (Nat.le_of_eq o.size_levels) hle),
        Array.getElem?_eq_none (Nat.le_trans (Nat.le_of_eq (p.size_levels.trans hsize.symm)) hle)]
  cases o
  cases p
  cases hvars
  cases hlevels
  rfl

/-- A lawful order is known by the variables of its levels. -/
theorem Lawful.ext_varAt? (h : o.Lawful) (h' : p.Lawful) (hvar : ∀ l, o.varAt? l = p.varAt? l) :
    o = p := by
  have hsize : o.size = p.size := congrArg Array.size (Array.ext_getElem? hvar)
  refine h.ext_levelOf h' hsize fun x => ?_
  by_cases hx : o.knows x
  · have hfound : p.varAt? (o.levelOf x) = some x := hvar _ ▸ h.varAt?_levelOf hx
    exact (h'.levelOf_of_varAt? hfound).symm
  · have hx' : ¬ p.knows x := by rwa [knows_iff, ← hsize, ← knows_iff]
    rw [levelOf_of_not_knows hx, levelOf_of_not_knows hx', hsize]

/-- The order lists every variable once. -/
theorem Lawful.perm (h : o.Lawful) :
    o.vars.toList.Perm ((List.range o.size).map Var.mk) := by
  have hnodup : o.vars.toList.Nodup := by
    apply List.pairwise_iff_getElem.mpr
    intro i j hi hj hij heq
    have hli : o.varAt? i = some o.vars.toList[i] := by simp [varAt?]
    have hlj : o.varAt? j = some o.vars.toList[j] := by simp [varAt?]
    have hlevel := h.levelOf_of_varAt? hli
    rw [heq, h.levelOf_of_varAt? hlj] at hlevel
    exact absurd hlevel (Nat.ne_of_gt hij)
  have hnodup' : ((List.range o.size).map Var.mk).Nodup := by
    refine List.Pairwise.map _ (fun a b hab heq => hab ?_) List.nodup_range
    simpa using heq
  apply (List.perm_ext_iff_of_nodup hnodup hnodup').mpr
  intro v
  have hrange : v ∈ (List.range o.size).map Var.mk ↔ o.knows v := by
    simp only [List.mem_map, List.mem_range, knows_iff]
    constructor
    · rintro ⟨i, hi, rfl⟩
      exact hi
    · intro hv
      exact ⟨v.index, hv, rfl⟩
  rw [hrange, List.mem_iff_getElem?]
  simp only [Array.getElem?_toList]
  constructor
  · rintro ⟨l, hl⟩
    exact h.knows_of_varAt? hl
  · intro hv
    exact ⟨_, h.varAt?_levelOf hv⟩

/-! ## The orders that arise -/

theorem lawful_byIndex (count : Nat) : (byIndex count).Lawful where
  level_of_var l v h := by
    simp only [byIndex, Array.getElem?_map, Option.map_eq_some_iff] at h
    obtain ⟨i, hi, rfl⟩ := h
    obtain ⟨hlt, hi⟩ := Array.getElem?_eq_some_iff.mp hi
    rw [Array.getElem_range] at hi
    subst hi
    exact Array.getElem?_eq_getElem hlt |>.trans (by rw [Array.getElem_range])
  var_of_level i l h := by
    obtain ⟨hlt, hi⟩ := Array.getElem?_eq_some_iff.mp h
    simp only [byIndex, Array.getElem_range] at hi
    subst hi
    simp only [byIndex, Array.size_range] at hlt
    simp [byIndex, hlt]

theorem Lawful.push (h : o.Lawful) : o.push.Lawful where
  level_of_var l v hl := by
    have hsize := o.size_levels
    simp only [VarOrder.push, nextVar, size, Array.getElem?_push] at hl ⊢
    split at hl
    · rename_i hlast
      cases hl
      rw [if_pos (by rw [hsize]), hlast]
    · have hlevel := h.level_of_var l v hl
      have hlt := (Array.getElem?_eq_some_iff.mp hlevel).1
      rw [if_neg (Nat.ne_of_lt hlt), hlevel]
  var_of_level i l hi := by
    have hsize := o.size_levels
    simp only [VarOrder.push, nextVar, size, Array.getElem?_push] at hi ⊢
    split at hi
    · rename_i hlast
      cases hi
      rw [if_pos rfl, hlast, hsize]
    · have hvar := h.var_of_level i l hi
      have hlt := (Array.getElem?_eq_some_iff.mp hvar).1
      rw [if_neg (Nat.ne_of_lt hlt), hvar]

theorem knows_push (hv : o.knows v) : o.push.knows v := by
  rw [knows_iff] at hv ⊢
  rw [size_push]
  omega

theorem Lawful.levelOf_push (h : o.Lawful) (hv : o.knows v) : o.push.levelOf v = o.levelOf v := by
  apply h.push.levelOf_of_varAt?
  have hl := h.varAt?_levelOf hv
  have hlt := lt_size_of_varAt? hl
  simp only [varAt?, VarOrder.push, Array.getElem?_push, size] at hl hlt ⊢
  rw [if_neg (Nat.ne_of_lt hlt), hl]

@[simp] theorem knows_exchange (l : Level) (v w x : Var) :
    (o.exchange l v w).knows x = o.knows x := by
  simp [knows]

theorem varAt?_exchange (hv : o.varAt? l = some v) (hw : o.varAt? (l + 1) = some w) (m : Level) :
    (o.exchange l v w).varAt? m =
      if m = l then some w else if m = l + 1 then some v else o.varAt? m := by
  have hl := lt_size_of_varAt? hv
  have hl' := lt_size_of_varAt? hw
  simp only [size] at hl hl'
  simp only [varAt?, exchange, Array.getElem?_setIfInBounds, Array.size_setIfInBounds, Level.next]
  by_cases hm : m = l
  · subst hm
    simp [hl]
  · by_cases hm' : m = l + 1
    · subst hm'
      simp [hl']
    · rw [if_neg (Ne.symm hm'), if_neg (Ne.symm hm), if_neg hm, if_neg hm']

section Exchange

variable (h : o.Lawful) (hv : o.varAt? l = some v) (hw : o.varAt? (l + 1) = some w)

include h hv hw

theorem Lawful.ne_of_adjacent : v ≠ w := by
  rintro rfl
  have hl := h.levelOf_of_varAt? hw
  rw [h.levelOf_of_varAt? hv] at hl
  exact absurd hl (Nat.ne_of_lt (Nat.lt_succ_self _))

theorem Lawful.levels_exchange (x : Var) :
    (o.exchange l v w).levels[x.index]? =
      if x = v then some (l + 1) else if x = w then some l else o.levels[x.index]? := by
  have hvi := (Array.getElem?_eq_some_iff.mp (h.level_of_var _ _ hv)).1
  have hwi := (Array.getElem?_eq_some_iff.mp (h.level_of_var _ _ hw)).1
  have hindex : ∀ y : Var, y.index = x.index ↔ x = y := by
    intro y
    cases x
    cases y
    simp [eq_comm]
  simp only [exchange, Array.getElem?_setIfInBounds, Array.size_setIfInBounds, Level.next, hindex]
  by_cases hxw : x = w
  · subst hxw
    rw [if_pos rfl, if_pos hwi, if_neg (h.ne_of_adjacent hv hw).symm, if_pos rfl]
  · by_cases hxv : x = v
    · subst hxv
      rw [if_neg hxw, if_pos rfl, if_pos hvi, if_pos rfl]
    · rw [if_neg hxw, if_neg hxv, if_neg hxv, if_neg hxw]

theorem Lawful.exchange : (o.exchange l v w).Lawful where
  level_of_var m x hm := by
    change (o.exchange l v w).varAt? m = some x at hm
    rw [varAt?_exchange hv hw] at hm
    rw [h.levels_exchange hv hw]
    by_cases hml : m = l
    · rw [if_pos hml, Option.some.injEq] at hm
      subst hm
      rw [if_neg (h.ne_of_adjacent hv hw).symm, if_pos rfl, hml]
    · by_cases hml' : m = l + 1
      · rw [if_neg hml, if_pos hml', Option.some.injEq] at hm
        rw [if_pos hm.symm, hml']
      · rw [if_neg hml, if_neg hml'] at hm
        have hxv : x ≠ v := by
          rintro rfl
          exact hml ((h.levelOf_of_varAt? hm).symm.trans (h.levelOf_of_varAt? hv))
        have hxw : x ≠ w := by
          rintro rfl
          exact hml' ((h.levelOf_of_varAt? hm).symm.trans (h.levelOf_of_varAt? hw))
        rw [if_neg hxv, if_neg hxw]
        exact h.level_of_var m x hm
  var_of_level i m hi := by
    show (o.exchange l v w).varAt? m = some ⟨i⟩
    have hi := (h.levels_exchange hv hw ⟨i⟩).symm.trans hi
    rw [varAt?_exchange hv hw]
    by_cases hiv : (⟨i⟩ : Var) = v
    · rw [if_pos hiv, Option.some.injEq] at hi
      have hm : m ≠ l := fun hml => absurd (hi.trans hml) (Nat.ne_of_gt (Nat.lt_succ_self _))
      rw [if_neg hm, if_pos hi.symm, hiv]
    · by_cases hiw : (⟨i⟩ : Var) = w
      · rw [if_neg hiv, if_pos hiw, Option.some.injEq] at hi
        rw [if_pos hi.symm, hiw]
      · rw [if_neg hiv, if_neg hiw] at hi
        have hm : o.varAt? m = some ⟨i⟩ := h.var_of_level i m hi
        have hml : m ≠ l := by
          rintro rfl
          exact hiv (Option.some.inj (hm.symm.trans hv))
        have hml' : m ≠ l + 1 := by
          rintro rfl
          exact hiw (Option.some.inj (hm.symm.trans hw))
        rw [if_neg hml, if_neg hml', hm]

/-- After the exchange, the two variables have each other's level. -/
theorem Lawful.levelOf_exchange (x : Var) :
    (o.exchange l v w).levelOf x =
      if x = v then l + 1 else if x = w then l else o.levelOf x := by
  rw [levelOf, Array.getD_eq_getD_getElem?, h.levels_exchange hv hw, size_exchange]
  by_cases hxv : x = v
  · simp [hxv]
  · by_cases hxw : x = w
    · rw [if_neg hxv, if_pos hxw, if_neg hxv, if_pos hxw, Option.getD_some]
    · rw [if_neg hxv, if_neg hxw, if_neg hxv, if_neg hxw, levelOf, Array.getD_eq_getD_getElem?]

end Exchange

end VarOrder

end DecisionGraph
