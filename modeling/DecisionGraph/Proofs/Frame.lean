import DecisionGraph.Call
import DecisionGraph.Proofs.Invariant

/-!
# What leaves the computed table alone

Only synthesis writes to the computed table, and only a sweep takes something out of it. All other
calls leave it as it is, whether they are rejected or not. There is one lemma for each function that
they are made of.

* `Action.KeepsTable` — an action that leaves the computed table alone.
* `swap_keepsTable`, `sift_keepsTable` — reordering.
* `Call.Synthesizes`, `perform_within` — the calls.
-/

namespace DecisionGraph

namespace Action

variable {α β : Type}

/-- The action leaves the computed table as it is, whether it is rejected or not. -/
def KeepsTable (x : Action α) : Prop :=
  ∀ (c : ComputedTable) (s : Store), s.computed = c → IfGives (x s) fun p => p.2.computed = c

theorem keepsTable_pure (a : α) : KeepsTable (pure a) := fun _ _ hs => ifGives_ok hs

theorem keepsTable_reject (e : Rejection) : KeepsTable (reject e : Action α) :=
  fun _ _ hs => ifGives_ok hs

theorem KeepsTable.bind {x : Action α} {f : α → Action β} (hx : x.KeepsTable)
    (hf : ∀ a, (f a).KeepsTable) : (x >>= f).KeepsTable := by
  intro c s hs
  cases hrun : x s with
  | error e =>
    rw [bind_of_fault hrun]
    exact ifGives_error
  | ok p =>
    obtain ⟨result, t⟩ := p
    have ht : t.computed = c := hx c s hs _ hrun
    cases result with
    | error e =>
      rw [bind_of_rejected hrun]
      exact ifGives_ok ht
    | ok a =>
      rw [bind_of_ok hrun]
      exact hf a c t ht

theorem keepsTable_step {f : Store → Except Fault (α × Store)}
    (hf : ∀ (c : ComputedTable) (s : Store), s.computed = c →
      IfGives (f s) fun p => p.2.computed = c) : (step f).KeepsTable :=
  fun c s hs => (hf c s hs).bind fun _ hp => ifGives_ok hp

theorem keepsTable_change {f : Store → Except Fault Store}
    (hf : ∀ (c : ComputedTable) (s : Store), s.computed = c →
      IfGives (f s) fun t => t.computed = c) : (change f).KeepsTable :=
  keepsTable_step fun c s hs => (hf c s hs).bind fun _ ht => ifGives_ok ht

theorem keepsTable_ask (f : Store → Except Fault α) : (ask f).KeepsTable :=
  keepsTable_step fun _ _ hs => .bind_of_forall fun _ => ifGives_ok hs

/-- An action that begins by looking at the store. -/
theorem keepsTable_store_bind {f : Store → Action β} (hf : ∀ s, (f s).KeepsTable) :
    (store >>= f).KeepsTable := fun c s hs => hf s c s hs

end Action

namespace Store

open DecisionGraph.Action

variable {s : Store} {c : ComputedTable} {n : NodeId} {ns : List NodeId} {v w : Var}

/-! ## Nodes and references -/

theorem addRef_computed (h : s.computed = c) (n : NodeId) :
    IfGives (s.addRef n) fun t => t.computed = c := by
  unfold Store.addRef
  split
  · exact ifGives_ok h
  · exact ifGives_error

theorem dropRef_computed (h : s.computed = c) (n : NodeId) :
    IfGives (s.dropRef n) fun p => p.2.computed = c := by
  unfold Store.dropRef
  split
  · exact ifGives_ok h
  · exact ifGives_error

theorem addRefs_computed (h : s.computed = c) : IfGives (addRefs ns s) fun t => t.computed = c := by
  induction ns generalizing s with
  | nil => exact ifGives_ok h
  | cons n ns ih => exact (addRef_computed h n).bind fun t ht => ih ht

theorem dropRefs_computed (h : s.computed = c) :
    IfGives (dropRefs ns s) fun t => t.computed = c := by
  induction ns generalizing s with
  | nil => exact ifGives_ok h
  | cons n ns ih => exact (dropRef_computed h n).bind fun p hp => ih hp

theorem reference_computed (h : s.computed = c) (n : NodeId) :
    IfGives (s.reference n) fun p => p.2.computed = c :=
  (addRef_computed h n).bind fun _ ht => ifGives_ok ht

theorem cons_computed (h : s.computed = c) (v : Var) (low high : NodeId) :
    IfGives (s.cons v low high) fun p => p.2.computed = c := by
  unfold Store.cons
  refine .bind_of_forall fun found => ?_
  cases found with
  | some n => exact ifGives_ok h
  | none =>
    refine IfGives.bind (P := fun t => t.computed = c) (addRef_computed (by exact h) low)
      fun t ht => ?_
    refine (addRef_computed ht high).bind fun u hu => .bind_of_forall fun ⟨result, unique⟩ => ?_
    cases result with
    | error e => exact ifGives_error
    | ok _ => exact ifGives_ok hu

theorem consReduced_computed (h : s.computed = c) (v : Var) (low high : NodeId) :
    IfGives (s.consReduced v low high) fun p => p.2.computed = c := by
  unfold Store.consReduced
  split
  · exact ifGives_ok h
  · exact cons_computed h v low high

theorem create_computed (h : s.computed = c) (v : Var) (low high : NodeId) :
    IfGives (s.create v low high) fun p => p.2.computed = c := by
  unfold Store.create
  dsimp only
  split
  · refine .bind_of_forall fun _ => ?_
    split
    · refine .bind_of_forall fun _ => ?_
      split
      · exact cons_computed h v low high
      · exact ifGives_error
    · exact ifGives_error
  · exact ifGives_error

theorem createHeld_computed (h : s.computed = c) (v : Var) (low high : NodeId) :
    IfGives (s.createHeld v low high) fun p => p.2.computed = c :=
  (create_computed h v low high).bind fun p hp => reference_computed hp p.1

/-! ## Collections -/

theorem detach_computed (h : s.computed = c) (n : NodeId) (b : Branch) :
    IfGives (s.detach n b) fun t => t.computed = c := by
  unfold Store.detach
  refine .bind_of_forall fun ⟨found, unique⟩ => ?_
  dsimp only
  split
  · exact ifGives_error
  · exact .bind_of_forall fun _ => ifGives_ok h

theorem collectWithin_computed {k collected : Nat} (h : s.computed = c) :
    IfGives (collectWithin k ns collected s) fun p => p.2.computed = c := by
  induction k generalizing ns collected s with
  | zero =>
    cases ns with
    | nil => exact ifGives_ok h
    | cons n ns => exact ifGives_error
  | succ k ih =>
    cases ns with
    | nil => exact ifGives_ok h
    | cons n ns =>
      unfold collectWithin
      split
      · split
        · exact ih h
        · exact ifGives_error
      · rename_i b _
        exact (detach_computed h n b).bind fun t ht => (dropRef_computed ht b.low).bind fun p hp =>
          (dropRef_computed hp b.high).bind fun q hq => ih hq

theorem collectFrom_computed (h : s.computed = c) (n : NodeId) :
    IfGives (s.collectFrom n) fun p => p.2.computed = c := collectWithin_computed h

theorem release_computed (h : s.computed = c) (n : NodeId) :
    IfGives (s.release n) fun p => p.2.computed = c := by
  refine (dropRef_computed h n).bind fun ⟨count, t⟩ ht => ?_
  dsimp only
  split
  · exact collectFrom_computed ht n
  · exact ifGives_ok ht

theorem delete_computed (h : s.computed = c) (n : NodeId) :
    IfGives (s.delete n) fun p => p.2.computed = c := by
  unfold Store.delete
  split
  · exact ifGives_ok h
  · exact collectFrom_computed h n

theorem collectAll_computed {collected : Nat} (h : s.computed = c) :
    IfGives (collectAll ns collected s) fun p => p.2.computed = c := by
  induction ns generalizing collected s with
  | nil => exact ifGives_ok h
  | cons n ns ih => exact (collectFrom_computed h n).bind fun p hp => ih hp

/-! ## Cofactors and reduction -/

/-- What the making of nodes keeps, the search for a cofactor keeps. -/
theorem restrictWithin_keeps {P : Store → Prop} {value : Bool} {k : Nat} {known : NodeMap NodeId}
    (hP : ∀ {s} v low high, P s → IfGives (s.consReduced v low high) fun p => P p.2) (h : P s) :
    IfGives (restrictWithin v value k n known s) fun p => P p.2.2 := by
  induction k generalizing n known s with
  | zero => exact ifGives_error
  | succ k ih =>
    cases n with
    | terminal b => exact ifGives_ok h
    | inner i =>
      unfold restrictWithin
      refine .bind_of_forall fun b => ?_
      split
      · exact ifGives_ok h
      split
      · exact ifGives_ok h
      split
      · exact ifGives_ok h
      · exact (ih h).bind fun p hp => (ih hp).bind fun q hq =>
          (hP b.var p.1 q.1 hq).bind fun _ hr => ifGives_ok hr

theorem restrictWithin_computed {value : Bool} {k : Nat} {known : NodeMap NodeId}
    (h : s.computed = c) :
    IfGives (restrictWithin v value k n known s) fun p => p.2.2.computed = c :=
  restrictWithin_keeps (P := fun t => t.computed = c)
    (fun v low high hs => consReduced_computed hs v low high) h

theorem cofactor_keepsTable (n : NodeId) (v : Var) (value : Bool) :
    (cofactor n v value).KeepsTable := by
  refine keepsTable_store_bind fun s => ?_
  split
  · exact keepsTable_step fun c s hs => (restrictWithin_computed hs).bind fun _ hp => ifGives_ok hp
  · exact keepsTable_reject _

theorem restrict_keepsTable (n : NodeId) (positive negative : Option Var) :
    (restrict n positive negative).KeepsTable := by
  cases positive with
  | none =>
    cases negative with
    | none => exact keepsTable_pure n
    | some v => exact cofactor_keepsTable n v false
  | some v =>
    cases negative with
    | none => exact cofactor_keepsTable n v true
    | some w => exact keepsTable_reject _

theorem shareTests_computed {ts : List NodeTriple} {canonical : Canonical} (h : s.computed = c) :
    IfGives (shareTests v ts canonical s) fun p => p.2.computed = c := by
  induction ts generalizing canonical s with
  | nil => exact ifGives_ok h
  | cons t ts ih => exact (cons_computed h v t.first t.second).bind fun p hp => ih hp

theorem reduceLevels_computed {l : Level} {canonical : Canonical} (h : s.computed = c) :
    IfGives (reduceLevels ns l canonical s) fun p => p.2.computed = c := by
  induction l generalizing canonical s with
  | zero => exact ifGives_ok h
  | succ l ih =>
    exact .bind_of_forall fun v => .bind_of_forall fun tests =>
      (shareTests_computed h).bind fun p hp => ih hp

theorem reduce_computed (h : s.computed = c) (root : NodeId) :
    IfGives (s.reduce root) fun p => p.2.computed = c := by
  unfold Store.reduce
  split
  · exact ifGives_ok h
  · exact .bind_of_forall fun below => (reduceLevels_computed h).bind fun p hp =>
      .bind_of_forall fun _ => ifGives_ok hp

/-! ## Exchanges -/

theorem withdraw_computed {rs : List Rotation} (h : s.computed = c) :
    IfGives (withdraw v rs s) fun t => t.computed = c := by
  induction rs generalizing s with
  | nil => exact ifGives_ok h
  | cons r rs ih => exact .bind_of_forall fun ⟨_, unique⟩ => ih h

theorem relabel_computed (h : s.computed = c) (n : NodeId) (b : Branch) :
    IfGives (s.relabel n b) fun t => t.computed = c := by
  unfold Store.relabel
  split
  · exact ifGives_ok h
  · exact ifGives_error

theorem reorder_computed (h : s.computed = c) (l : Level) (v w : Var) :
    IfGives (s.reorder l v w) fun t => t.computed = c := by
  unfold Store.reorder
  split
  · exact ifGives_ok h
  · exact ifGives_error

theorem enter_keepsTable (v : Var) (k : Children) (n : NodeId) : (enter v k n).KeepsTable :=
  fun _ _ hs => .bind_of_forall fun _ => ifGives_ok hs

theorem rotate_keepsTable (v w : Var) (r : Rotation) : (rotate v w r).KeepsTable :=
  .bind (keepsTable_step fun _ _ hs => consReduced_computed hs _ _ _) fun low =>
    .bind (keepsTable_step fun _ _ hs => consReduced_computed hs _ _ _) fun high =>
    .bind (keepsTable_change fun _ _ hs => addRef_computed hs low) fun _ =>
    .bind (keepsTable_change fun _ _ hs => addRef_computed hs high) fun _ =>
    .bind (keepsTable_change fun _ _ hs => relabel_computed hs _ _) fun _ =>
    .bind (enter_keepsTable _ _ _) fun _ =>
    .bind (keepsTable_step fun _ _ hs => release_computed hs _) fun _ =>
    .bind (keepsTable_step fun _ _ hs => release_computed hs _) fun _ => keepsTable_pure _

theorem rotateAll_keepsTable (v w : Var) (rs : List Rotation) : (rotateAll v w rs).KeepsTable := by
  induction rs with
  | nil => exact keepsTable_pure ()
  | cons r rs ih => exact .bind (rotate_keepsTable v w r) fun _ => ih

theorem swap_keepsTable (v w : Var) : (swap v w).KeepsTable := by
  refine keepsTable_store_bind fun s => ?_
  split
  · exact keepsTable_reject _
  refine .bind (keepsTable_ask _) fun plan => .bind (keepsTable_ask _) fun conflict => ?_
  split
  · exact keepsTable_reject _
  · exact .bind (keepsTable_change fun _ _ hs => withdraw_computed hs) fun _ =>
      .bind (rotateAll_keepsTable v w plan) fun _ =>
      keepsTable_change fun _ _ hs => reorder_computed hs _ v w

/-! ## Sifting -/

theorem swapLevel_keepsTable (l : Level) : (swapLevel l).KeepsTable :=
  .bind (keepsTable_ask _) fun v => .bind (keepsTable_ask _) fun w => swap_keepsTable v w

theorem scanDown_keepsTable (root : NodeId) (k : Nat) (scan : Scan) :
    (scanDown root k scan).KeepsTable := by
  induction k generalizing scan with
  | zero => exact keepsTable_pure scan
  | succ k ih =>
    refine .bind (swapLevel_keepsTable _) fun _ => .bind (keepsTable_ask _) fun size =>
      keepsTable_store_bind fun s => ?_
    split
    · exact keepsTable_pure _
    · exact ih _

theorem scanUp_keepsTable (root : NodeId) (start : Level) (k : Nat) (scan : Scan) :
    (scanUp root start k scan).KeepsTable := by
  induction k generalizing scan with
  | zero => exact keepsTable_pure scan
  | succ k ih =>
    refine .bind (swapLevel_keepsTable _) fun _ => .bind (keepsTable_ask _) fun size =>
      keepsTable_store_bind fun s => ?_
    split
    · exact keepsTable_pure _
    · exact ih _

theorem moveDown_keepsTable (k : Nat) (l : Level) : (moveDown k l).KeepsTable := by
  induction k generalizing l with
  | zero => exact keepsTable_pure ()
  | succ k ih => exact .bind (swapLevel_keepsTable l) fun _ => ih _

theorem moveUp_keepsTable (k : Nat) (l : Level) : (moveUp k l).KeepsTable := by
  induction k generalizing l with
  | zero => exact keepsTable_pure ()
  | succ k ih => exact .bind (swapLevel_keepsTable _) fun _ => ih _

theorem siftVariable_keepsTable (root : NodeId) (v : Var) : (siftVariable root v).KeepsTable :=
  keepsTable_store_bind fun _ => .bind (keepsTable_ask _) fun _ => keepsTable_store_bind fun _ =>
    .bind (scanDown_keepsTable root _ _) fun _ => .bind (scanUp_keepsTable root _ _ _) fun _ =>
    .bind (moveDown_keepsTable _ _) fun _ => .bind (moveUp_keepsTable _ _) fun _ =>
    keepsTable_pure _

theorem siftVariables_keepsTable (root : NodeId) (vs : List Var) (stats : SiftStats) :
    (siftVariables root vs stats).KeepsTable := by
  induction vs generalizing stats with
  | nil => exact keepsTable_pure stats
  | cons v vs ih => exact .bind (siftVariable_keepsTable root v) fun _ => ih _

theorem sift_keepsTable (root : NodeId) : (sift root).KeepsTable := by
  intro c s hs
  unfold Store.sift
  refine .bind_of_forall fun initialSize => (addRefs_computed hs).bind fun s₁ h₁ =>
    (reduce_computed h₁ root).bind fun ⟨reduced, s₂⟩ h₂ =>
    (addRef_computed h₂ reduced).bind fun s₃ h₃ => .bind_of_forall fun bestSize => ?_
  refine (siftVariables_keepsTable _ _ _ c s₃ h₃).bind fun ⟨result, s₄⟩ h₄ => ?_
  cases result with
  | error e =>
    dsimp only
    split
    · exact (dropRef_computed h₄ reduced).bind fun _ hp =>
        (dropRefs_computed hp).bind fun _ ht => ifGives_ok ht
    · exact (release_computed h₄ reduced).bind fun _ hp =>
        (dropRefs_computed hp).bind fun _ ht => ifGives_ok ht
  | ok stats =>
    exact (dropRefs_computed h₄).bind fun s₅ h₅ => (dropRef_computed h₅ reduced).bind fun p hp =>
      .bind_of_forall fun _ => ifGives_ok hp

end Store

/-! ## The calls -/

/-- The calls that note results in the computed table. -/
def Call.Synthesizes : Call → Prop
  | ite _ _ _ | and _ _ | or _ _ | xor _ _ | implies _ _ | negate _ => True
  | _ => False

namespace Store

variable {s : Store} {α : Type}

theorem answer_within {f : α → Answer} {x : Except Fault (α × Store)}
    (hx : IfGives x fun p => p.2.computed = s.computed) :
    IfGives (answer f x) fun p => p.2.computed.Within s.computed :=
  hx.bind fun _ hp => ifGives_ok (hp ▸ .refl _)

theorem answerOr_within {f : α → Answer} {x : Action α} (hx : x.KeepsTable) :
    IfGives (answerOr f (x s)) fun p => p.2.computed.Within s.computed :=
  (hx _ s rfl).bind fun _ hp => ifGives_ok (hp ▸ .refl _)

theorem collectGarbage_within (s : Store) :
    IfGives s.collectGarbage fun p => p.2.computed.Within s.computed :=
  (collectAll_computed rfl).bind fun _ hp => .bind_of_forall fun _ => ifGives_ok fun _ _ hk =>
    hp ▸ (ComputedTable.purge_eq_some_iff.mp hk).1

/-- A call that is no synthesis notes nothing in the computed table. -/
theorem perform_within {call : Call} (h : ¬ call.Synthesizes) :
    IfGives (s.perform call) fun p => p.2.computed.Within s.computed := by
  cases call with
  | ite _ _ _ | and _ _ | or _ _ | xor _ _ | implies _ _ | negate _ => exact absurd trivial h
  | create v low high => exact answer_within (create_computed rfl v low high)
  | createHeld v low high => exact answer_within (createHeld_computed rfl v low high)
  | addVariable => exact ifGives_ok (.refl _)
  | restrict f positive negative => exact answerOr_within (restrict_keepsTable f _ _)
  | reduce f => exact answer_within (reduce_computed rfl f)
  | swap v w => exact answerOr_within (swap_keepsTable v w)
  | sift f => exact answerOr_within (sift_keepsTable f)
  | reference f => exact answer_within (reference_computed rfl f)
  | release f => exact answer_within (release_computed rfl f)
  | delete f => exact answer_within (delete_computed rfl f)
  | collectGarbage => exact (collectGarbage_within s).bind fun _ hp => ifGives_ok hp

end Store

end DecisionGraph
