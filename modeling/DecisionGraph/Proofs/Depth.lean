import Mathlib.Algebra.Group.Nat.Defs
import DecisionGraph.Proofs.Runs

/-!
# How deep recursions go

Each recursion over the diagram goes down the levels of the order: the call for a test makes calls
for nodes on larger levels only, in the store as it is by then. New nodes do not matter, since no
node changes its level on the way. So there is never more than one call for each level inside each
other, and one more for the terminals. If-then-else goes by the smallest level among its operands;
where it turns out to be a complement, it hands the operand over, which stays on its level and takes
one more call. The cofactors that it asks for are by the variable of that level, so that a single
call for each reads them off the operands.

To say so of the recursions as they run, we take them apart into the body of one call and the calls
inside. `nestedIf` runs the same body, but refuses a call to a level that is not larger. It comes to
the same result, so no call has been refused.

* `nested`, `nestedIf`, `Descends` — recursions by their bodies, and what has to be shown of a body.
* `Ready.synthesis_eq` — synthesis with a single call for each cofactor.
* `synthesis_descends`, `restriction_descends`, `counting_descends` — the bodies.
* `recursion_depth` — all calls from a reachable state.
-/

namespace DecisionGraph

/-! ## Recursions by their bodies -/

/-- The body of a recursion: what one call does, given what the calls inside do. -/
abbrev Body (σ β : Type) : Type := (σ → Except Fault β) → σ → Except Fault β

section Nesting

variable {σ β : Type} {body : Body σ β} {may : σ → σ → Bool} {good : Nat → σ → Prop} {x : σ}
  {k k' : Nat}

/-- The recursion of a body, with at most `k` calls inside each other. -/
def nested (body : Body σ β) : Nat → σ → Except Fault β
  | 0, _ => .error .tooDeep
  | k + 1, x => body (nested body k) x

/-- The same, where the call `x` may make the call `y` only if `may x y`. Others are refused. -/
def nestedIf (body : Body σ β) (may : σ → σ → Bool) : Nat → σ → Except Fault β
  | 0, _ => .error .tooDeep
  | k + 1, x => body (fun y => if may x y then nestedIf body may k y else .error .tooDeep) x

/-- Where `good k x`, at most `k` calls inside each other are enough for the call `x`: the body asks
only for calls that `x` may make and that are good for one less. -/
structure Descends (body : Body σ β) (may : σ → σ → Bool) (good : Nat → σ → Prop) : Prop where
  pos : ∀ x, ¬ good 0 x
  inside : ∀ k x, good (k + 1) x → ∀ call, (∀ y, may x y → good k y → call y = nested body k y) →
    body call x = body (nested body k) x

/-- A call on a larger level. -/
def goesDown (level : σ → Level) (x y : σ) : Bool := decide (level x < level y)

/-- More calls inside each other do not change the result. -/
theorem Descends.nested_eq (h : Descends body may good) (hx : good k x) (hk : k ≤ k') :
    nested body k' x = nested body k x := by
  induction k generalizing x k' with
  | zero => exact absurd hx (h.pos x)
  | succ k ih =>
    obtain ⟨j, rfl⟩ := Nat.exists_eq_add_of_lt hk
    exact h.inside k x hx _ fun y _ hy => ih hy (by omega)

/-- No call is refused, not even with another body that does the same wherever a call is good. -/
theorem Descends.nestedIf_eq_of_same (h : Descends body may good) {body' : Body σ β}
    (hsame : ∀ k x, good (k + 1) x → ∀ call, body' call x = body call x) (hx : good k x) :
    nestedIf body' may k x = nested body k x := by
  induction k generalizing x with
  | zero => exact absurd hx (h.pos x)
  | succ k ih =>
    rw [nestedIf, hsame k x hx]
    refine h.inside k x hx _ fun y hmay hy => ?_
    rw [if_pos hmay, ih hy]

theorem Descends.nestedIf_eq (h : Descends body may good) (hx : good k x) :
    nestedIf body may k x = nested body k x :=
  h.nestedIf_eq_of_same (fun _ _ _ _ => rfl) hx

/-- Two bounds that are both enough, by two measures. -/
theorem Descends.eq_of_good {good' : Nat → σ → Prop} (h : Descends body may good)
    (h' : Descends body may good') (hx : good k x) (hx' : good' k' x) :
    nested body k x = nested body k' x := by
  rcases Nat.le_total k k' with hk | hk
  · exact (h.nested_eq hx hk).symm
  · exact h'.nested_eq hx' hk

/-- Runs that go on in the same way from every result of the first part. -/
theorem bind_congr_of_ok {α : Type} {y : Except Fault α} {f g : α → Except Fault β}
    (h : ∀ a, y = .ok a → f a = g a) : (y >>= f) = y >>= g := by
  cases y with
  | error e => rfl
  | ok a => exact h a rfl

end Nesting

namespace Store

variable {s s₀ t : Store} {held : Holding} {v : Var} {value : Bool} {f g h n : NodeId}
  {rank : NodeId → Nat} {k : Nat}

/-- The number of levels from that of a node to the terminals. -/
def levelsBelow (s : Store) (n : NodeId) : Nat := s.varCount - s.diagram.levelIn s.order n

theorem levelsBelow_le (s : Store) (n : NodeId) : s.levelsBelow n ≤ s.varCount := Nat.sub_le _ _

theorem Valid.ranks_levelsBelow (h : s.Valid held) :
    s.diagram.Ranks s.order s.levelsBelow := by
  intro n b m hb hlt
  have := h.sound.knows.levelIn_lt h.lawful hb
  simp only [levelsBelow, varCount]
  omega

/-! ## Synthesis -/

/-- A call of one of the two recursions of synthesis. -/
inductive Task where
  | complement (f : NodeId)
  | choice (f g h : NodeId)

namespace Task

def operands : Task → List NodeId
  | complement f => [f]
  | choice f g h => [f, g, h]

/-- The smallest level of the operands. -/
def level (s : Store) : Task → Level
  | complement f => s.diagram.levelIn s.order f
  | choice f g h => min (min (s.diagram.levelIn s.order f) (s.diagram.levelIn s.order g))
      (s.diagram.levelIn s.order h)

/-- If-then-else hands over to the complement. -/
def handsOver : Task → Task → Bool
  | choice f .zero .one, complement f' => decide (f = f')
  | _, _ => false

/-- A call that works on a larger level, or that is handed over. -/
def mayCall (x y : Task × Store) : Bool :=
  decide (x.1.level x.2 < y.1.level y.2) || x.1.handsOver y.1

/-- The call that a hand-over takes more. -/
def spare : Task → Nat
  | complement _ => 0
  | choice _ _ _ => 1

theorem lt_level {l : Nat} {task : Task}
    (hl : ∀ n ∈ task.operands, l < s.diagram.levelIn s.order n) : l < task.level s := by
  cases task with
  | complement f => exact hl f List.mem_cons_self
  | choice f g h =>
    simp only [operands, List.forall_mem_cons] at hl
    simp only [level]
    omega

theorem level_le {task : Task} (hn : n ∈ task.operands) :
    task.level s ≤ s.diagram.levelIn s.order n := by
  cases task with
  | complement f =>
    obtain rfl := List.mem_singleton.mp hn
    exact Nat.le_refl _
  | choice f g h =>
    simp only [operands, List.mem_cons, List.not_mem_nil, or_false] at hn
    rcases hn with rfl | rfl | rfl
    · exact Nat.le_trans (Nat.min_le_left _ _) (Nat.min_le_left _ _)
    · exact Nat.le_trans (Nat.min_le_left _ _) (Nat.min_le_right _ _)
    · exact Nat.min_le_right _ _

end Task

/-- The body of both recursions, by some way to find cofactors. -/
def synthesis (cofactors : Store → Var → NodeId → Except Fault (Children × Store)) :
    Body (Task × Store) (NodeId × Store)
  | call, (.complement f, s) => negateStep (fun f s => call (.complement f, s)) f s
  | call, (.choice f g h, s) => iteStep cofactors (fun f s => call (.complement f, s))
      (fun f g h s => call (.choice f g h, s)) f g h s

theorem nested_complement (k : Nat) (f : NodeId) (s : Store) :
    nested (synthesis cofactors) k (.complement f, s) = negateWithin k f s := by
  induction k generalizing f s with
  | zero => rfl
  | succ k ih =>
    rw [negateWithin_succ]
    exact congrArg (negateStep · f s) (funext₂ ih)

theorem nested_choice (k : Nat) (f g h : NodeId) (s : Store) :
    nested (synthesis cofactors) k (.choice f g h, s) = iteWithin k f g h s := by
  induction k generalizing f g h s with
  | zero => rfl
  | succ k ih =>
    have hcall : (fun f g h s => nested (synthesis cofactors) k (.choice f g h, s)) = iteWithin k :=
      funext fun f => funext fun g => funext₂ fun h s => ih f g h s
    rw [iteWithin_succ, ← hcall, ← funext₂ (nested_complement k)]
    rfl

/-- The call of a task in a store that has grown from `s₀`, on nodes that were there. -/
structure Ready (s₀ : Store) (held : Holding) (rank : NodeId → Nat) (k : Nat) (x : Task × Store) :
    Prop where
  valid : x.2.Valid held
  grew : s₀.Grew x.2
  alive : ∀ n ∈ x.1.operands, s₀.diagram.alive n
  rank_lt : ∀ n ∈ x.1.operands, rank n + x.1.spare < k

/-- Nodes below all operands are on a larger level, in whatever store they are asked for. -/
theorem Ready.mayCall {x y : Task} (hx : s₀.Ready held rank k (x, s)) (ht : s₀.Grew t) {l : Nat}
    (hl : x.level s₀ ≤ l) (hy : ∀ n ∈ y.operands, s₀.diagram.alive n ∧
      l < s₀.diagram.levelIn s₀.order n) : Task.mayCall (x, s) (y, t) := by
  have hlevel : ∀ n ∈ x.operands, s.diagram.levelIn s.order n = s₀.diagram.levelIn s₀.order n :=
    fun n hn => hx.grew.levelIn_eq (hx.alive n hn)
  have hsame : x.level s = x.level s₀ := by
    cases x with
    | complement f => exact hlevel f List.mem_cons_self
    | choice f g h =>
      simp only [Task.operands, List.forall_mem_cons] at hlevel
      simp only [Task.level, hlevel]
  rw [Task.mayCall, Bool.or_eq_true, decide_eq_true_eq]
  refine Or.inl (Task.lt_level fun n hn => ?_)
  rw [hsame, ht.levelIn_eq (hy n hn).1]
  exact Nat.lt_of_le_of_lt hl (hy n hn).2

/-- The complements of the children, if two ways to find them agree where it matters. -/
theorem complement_congr {call call' : NodeId → Store → Except Fault (NodeId × Store)} {b : Branch}
    (hlow : call b.low s = call' b.low s)
    (hhigh : ∀ low t, call' b.low s = .ok (low, t) → call b.high t = call' b.high t) :
    complement call n b s = complement call' n b s := by
  rw [complement, complement, hlow]
  refine bind_congr_of_ok fun ⟨low, t⟩ hrun => ?_
  dsimp only
  rw [hhigh low t hrun]

/-- The same for the cofactors. -/
theorem expand_congr {call call' : NodeId → NodeId → NodeId → Store → Except Fault (NodeId × Store)}
    {key : NodeTriple} {f' g' h' : Children}
    (hhigh : call f'.high g'.high h'.high s = call' f'.high g'.high h'.high s)
    (hlow : ∀ high t, call' f'.high g'.high h'.high s = .ok (high, t) →
      call f'.low g'.low h'.low t = call' f'.low g'.low h'.low t) :
    expand call v key f' g' h' s = expand call' v key f' g' h' s := by
  rw [expand, expand, hhigh]
  refine bind_congr_of_ok fun ⟨high, t⟩ hrun => ?_
  dsimp only
  rw [hlow high t hrun]

/-- A complement asks for the complements of the children. -/
theorem Ready.complement (hx : Ready s₀ held rank (k + 1) (.complement f, s)) (h₀ : s₀.Valid held)
    (hr : s₀.diagram.Ranks s₀.order rank) {call : Task × Store → Except Fault (NodeId × Store)}
    (hcall : ∀ y, Task.mayCall (.complement f, s) y → Ready s₀ held rank k y →
      call y = nested (synthesis cofactors) k y) :
    synthesis cofactors call (.complement f, s) =
      synthesis cofactors (nested (synthesis cofactors) k) (.complement f, s) := by
  have ha := hx.alive f List.mem_cons_self
  have hk : rank f < k + 1 := hx.rank_lt f List.mem_cons_self
  have hchild : ∀ b m u, s₀.diagram.branch? f = some b → s₀.diagram.alive m →
      s₀.diagram.levelIn s₀.order f < s₀.diagram.levelIn s₀.order m → u.Valid held →
      s₀.Grew u → call (.complement m, u) = nested (synthesis cofactors) k (.complement m, u) := by
    intro b m u hb hm hlt hu hgrew
    refine hcall _ (hx.mayCall hgrew (Nat.le_refl _) (List.forall_mem_singleton.mpr ⟨hm, hlt⟩))
      ⟨hu, hgrew, List.forall_mem_singleton.mpr hm, List.forall_mem_singleton.mpr ?_⟩
    exact Nat.lt_of_lt_of_le (hr f b m hb hlt) (Nat.le_of_lt_succ hk)
  rw [synthesis, synthesis]
  cases f with
  | terminal value => rfl
  | inner i =>
    obtain ⟨result, t, hconsult, ht, htwin, -⟩ :=
      hx.valid.consult (k := ⟨.inner i, .zero, .one⟩)
        (by simpa [NodeTriple.word] using hx.grew.alive ha)
    cases result with
    | some r => rw [negateStep_hit hconsult, negateStep_hit hconsult]
    | none =>
      obtain ⟨b, hb⟩ := Diagram.exists_branch ha
      obtain ⟨hlow, hhigh⟩ := h₀.closed _ b hb
      have hgrew := hx.grew.trans htwin.grew
      rw [negateStep_miss hconsult (hgrew.branch? hb), negateStep_miss hconsult (hgrew.branch? hb)]
      refine complement_congr (hchild b b.low t hb hlow (h₀.layered.child hb false) ht hgrew)
        fun low u hrun => ?_
      rw [nested_complement] at hrun
      have hmade := ((negateWithin_gives hr h₀ ht hgrew hlow
        (Nat.lt_of_lt_of_le (hr.children h₀.layered hb).1 (Nat.le_of_lt_succ hk))).of_eq hrun).1
      exact hchild b b.high u hb hhigh (h₀.layered.child hb true) hmade.valid
        (hgrew.trans hmade.grew)

/-- What a call of if-then-else comes to, by whatever calls inside: it has its result, or it hands
over, or it expands the top variable. Cofactors that are read off are all the same to it. -/
theorem Ready.choice_cases (hx : Ready s₀ held rank k (.choice f g h, s)) (h₀ : s₀.Valid held) :
    (∃ p, ∀ cofactors negate call, iteStep cofactors negate call f g h s = .ok p) ∨
    ((g = .zero ∧ h = .one) ∧
      ∀ cofactors negate call, iteStep cofactors negate call f g h s = negate f s) ∨
    ∃ v t, s₀.Leads v f g h ∧ t.Valid held ∧ s₀.Grew t ∧
      ∀ cofactors, ReadsOff cofactors → ∀ negate call,
        iteStep cofactors negate call f g h s = expand call v ⟨f, g, h⟩ (s₀.diagram.cofactorsOf v f)
          (s₀.diagram.cofactorsOf v g) (s₀.diagram.cofactorsOf v h) t := by
  have ha : ∀ n ∈ [f, g, h], s₀.diagram.alive n := hx.alive
  rcases iteStep_cases f g h with ⟨r, -, -, hstep⟩ | ⟨heq, hstep⟩ | hp
  · exact Or.inl ⟨_, fun _ _ _ => hstep _ _ _ s⟩
  · exact Or.inr (Or.inl ⟨heq, fun _ _ _ => hstep _ _ _ s⟩)
  obtain ⟨result, t, hconsult, ht, htwin, -⟩ := hx.valid.consult (k := ⟨f, g, h⟩)
    fun n hn => hx.grew.alive (ha n hn)
  cases result with
  | some r => exact Or.inl ⟨_, hp.iteStep_hit hconsult⟩
  | none =>
    have hgrew := hx.grew.trans htwin.grew
    obtain ⟨v, hleads, hexpand⟩ := h₀.exists_expand hp ha
    exact Or.inr (Or.inr ⟨v, t, hleads, ht, hgrew, fun cofactors hreads negate call =>
      hexpand cofactors hreads negate call s t hgrew hconsult⟩)

/-- If-then-else asks for the complement, or for if-then-else of the cofactors. -/
theorem Ready.choice (hx : Ready s₀ held rank (k + 1) (.choice f g h, s)) (h₀ : s₀.Valid held)
    (hr : s₀.diagram.Ranks s₀.order rank) {call : Task × Store → Except Fault (NodeId × Store)}
    (hcall : ∀ y, Task.mayCall (.choice f g h, s) y → Ready s₀ held rank k y →
      call y = nested (synthesis cofactors) k y) :
    synthesis cofactors call (.choice f g h, s) =
      synthesis cofactors (nested (synthesis cofactors) k) (.choice f g h, s) := by
  have ha : ∀ n ∈ [f, g, h], s₀.diagram.alive n := hx.alive
  have hk : ∀ n ∈ [f, g, h], rank n < k := fun n hn => Nat.lt_of_succ_lt_succ (hx.rank_lt n hn)
  rw [synthesis, synthesis]
  rcases hx.choice_cases h₀ with
    ⟨p, hstep⟩ | ⟨⟨rfl, rfl⟩, hstep⟩ | ⟨v, t, hleads, ht, hgrew, hexpand⟩
  · rw [hstep, hstep]
  · rw [hstep, hstep]
    refine hcall _ ?_ ⟨hx.valid, hx.grew, List.forall_mem_singleton.mpr (ha f List.mem_cons_self),
      List.forall_mem_singleton.mpr (hk f List.mem_cons_self)⟩
    simp [Task.mayCall, Task.handsOver]
  have hlevel : (Task.choice f g h).level s₀ ≤ s₀.order.levelOf v := by
    obtain ⟨n, hn, b, hb, rfl⟩ := hleads.tested
    exact Diagram.levelIn_of_branch? hb ▸ Task.level_le hn
  have hcofactors : ∀ x y z u, (∀ n ∈ [x, y, z], s₀.diagram.alive n ∧
      s₀.order.levelOf v < s₀.diagram.levelIn s₀.order n) → u.Valid held → s₀.Grew u →
      call (.choice x y z, u) = nested (synthesis cofactors) k (.choice x y z, u) :=
    fun x y z u hbelow hu hgrew => hcall _ (hx.mayCall hgrew hlevel hbelow)
      ⟨hu, hgrew, fun n hn => (hbelow n hn).1, fun n hn => hleads.rank_lt hr hk (hbelow n hn).2⟩
  have hhighs := hleads.highs h₀ ha
  have hexpand := hexpand _ readsOff_cofactors
  rw [hexpand, hexpand]
  refine expand_congr (hcofactors _ _ _ t hhighs ht hgrew) fun high u hrun => ?_
  rw [nested_choice] at hrun
  have hmade := ((iteWithin_gives hr h₀ ht hgrew (fun n hn => (hhighs n hn).1)
    fun n hn => hleads.rank_lt hr hk (hhighs n hn).2).of_eq hrun).1
  exact hcofactors _ _ _ u (hleads.lows h₀ ha) hmade.valid (hgrew.trans hmade.grew)

/-- Where cofactors are read off, it does not matter how. -/
theorem Ready.synthesis_eq {finds : Store → Var → NodeId → Except Fault (Children × Store)}
    {x : Task × Store} (hx : Ready s₀ held rank k x) (h₀ : s₀.Valid held) (hreads : ReadsOff finds)
    (call : Task × Store → Except Fault (NodeId × Store)) :
    synthesis finds call x = synthesis cofactors call x := by
  obtain ⟨task, s⟩ := x
  cases task with
  | complement f => rfl
  | choice f g h =>
    rw [synthesis, synthesis]
    rcases hx.choice_cases h₀ with
      ⟨p, hstep⟩ | ⟨-, hstep⟩ | ⟨v, t, -, -, -, hexpand⟩
    · rw [hstep, hstep]
    · rw [hstep, hstep]
    · rw [hexpand _ hreads, hexpand _ readsOff_cofactors]

/-- The body of both recursions goes down the levels. -/
theorem synthesis_descends (h₀ : s₀.Valid held) (hr : s₀.diagram.Ranks s₀.order rank) :
    Descends (synthesis cofactors) Task.mayCall (Ready s₀ held rank) where
  pos := by
    rintro ⟨task, s⟩ hx
    cases task with
    | complement f => exact Nat.not_lt_zero _ (hx.rank_lt f List.mem_cons_self)
    | choice f g h => exact Nat.not_lt_zero _ (hx.rank_lt f List.mem_cons_self)
  inside := by
    rintro k ⟨task, s⟩ hx call hcall
    cases task with
    | complement f => exact hx.complement h₀ hr hcall
    | choice f g h => exact hx.choice h₀ hr hcall

/-! ## Cofactors -/

/-- The body of the recursion for cofactors. -/
def restriction (v : Var) (value : Bool) :
    Body (NodeId × NodeMap NodeId × Store) (NodeId × NodeMap NodeId × Store)
  | _, (.terminal b, known, s) => .ok (.terminal b, known, s)
  | call, (.inner i, known, s) => do
    let n := NodeId.inner i
    let b ← s.diagram.branch n
    if b.var = v then return (if value then b.high else b.low, known, s)
    if s.order.levelOf v < s.order.levelOf b.var then return (n, known, s)
    match known[n]? with
    | some r => return (r, known, s)
    | none =>
      let (low, known, s) ← call (b.low, known, s)
      let (high, known, s) ← call (b.high, known, s)
      let (r, s) ← s.consReduced b.var low high
      return (r, known.insert n r, s)

theorem nested_restriction (k : Nat) (n : NodeId) (known : NodeMap NodeId) (s : Store) :
    nested (restriction v value) k (n, known, s) = restrictWithin v value k n known s := by
  induction k generalizing n known s with
  | zero => rfl
  | succ k ih =>
    have hcall : nested (restriction v value) k = fun x =>
        restrictWithin v value k x.1 x.2.1 x.2.2 := funext fun x => ih x.1 x.2.1 x.2.2
    rw [nested, hcall]
    cases n <;> rfl

/-- The level of the node whose cofactor is asked for. -/
def restrictionLevel (x : NodeId × NodeMap NodeId × Store) : Level :=
  x.2.2.diagram.levelIn x.2.2.order x.1

/-- The call for the cofactor of a node in a store that has grown from `s₀`. -/
structure Restricting (s₀ : Store) (held : Holding) (rank : NodeId → Nat) (v : Var) (value : Bool)
    (k : Nat) (x : NodeId × NodeMap NodeId × Store) : Prop where
  valid : x.2.2.Valid held
  grew : s₀.Grew x.2.2
  remembers : x.2.2.Remembers v value x.2.1
  alive : s₀.diagram.alive x.1
  rank_lt : rank x.1 < k

/-- The call for a child, in whatever store it is made. -/
theorem Restricting.child {known known' : NodeMap NodeId} {b : Branch} {m : NodeId}
    (hx : Restricting s₀ held rank v value (k + 1) (n, known, s)) (h₀ : s₀.Valid held)
    (hr : s₀.diagram.Ranks s₀.order rank) (hb : s₀.diagram.branch? n = some b)
    (hm : s₀.diagram.Child n m) (ht : t.Valid held) (hgrew : s₀.Grew t)
    (hknown : t.Remembers v value known') :
    goesDown restrictionLevel (n, known, s) (m, known', t) ∧
      Restricting s₀ held rank v value k (m, known', t) := by
  have halive : s₀.diagram.alive m := h₀.closed.alive_of_child hm
  have hlt := h₀.layered.lt_of_child hm
  refine ⟨?_, ht, hgrew, hknown, halive,
    Nat.lt_of_lt_of_le (hr n b m hb hlt) (Nat.le_of_lt_succ hx.rank_lt)⟩
  have hsame : s.diagram.levelIn s.order n = s₀.diagram.levelIn s₀.order n :=
    hx.grew.levelIn_eq hx.alive
  simpa only [goesDown, restrictionLevel, decide_eq_true_eq, hsame, hgrew.levelIn_eq halive]
    using hlt

/-- The body of the recursion for cofactors goes down the levels. -/
theorem restriction_descends (h₀ : s₀.Valid held) (hr : s₀.diagram.Ranks s₀.order rank)
    (hv : s₀.order.knows v) (value : Bool) :
    Descends (restriction v value) (goesDown restrictionLevel)
      (Restricting s₀ held rank v value) where
  pos x hx := Nat.not_lt_zero _ hx.rank_lt
  inside := by
    rintro k ⟨n, known, s⟩ hx call hcall
    cases n with
    | terminal b => rfl
    | inner i =>
      rw [restriction, restriction]
      refine bind_congr_of_ok fun b hb => ?_
      obtain ⟨b₀, hb₀⟩ := Diagram.exists_branch hx.alive
      obtain rfl : b₀ = b := Option.some.inj
        ((hx.grew.branch? hb₀).symm.trans (Diagram.branch_eq_ok_iff.mp hb))
      split
      · rfl
      split
      · rfl
      split
      · rfl
      obtain ⟨hmay, hlow⟩ := hx.child h₀ hr hb₀ (.low hb₀) hx.valid hx.grew hx.remembers
      rw [hcall _ hmay hlow]
      refine bind_congr_of_ok fun ⟨low, known', u⟩ hrun => ?_
      rw [nested_restriction] at hrun
      obtain ⟨hmade, -, hknown⟩ := (restrictWithin_gives hr h₀ hv hlow.valid hlow.grew
        hlow.remembers hlow.alive hlow.rank_lt).of_eq hrun
      obtain ⟨hmay, hhigh⟩ := hx.child h₀ hr hb₀ (.high hb₀) hmade.valid
        (hx.grew.trans hmade.grew) hknown
      dsimp only
      rw [hcall _ hmay hhigh]

/-! ## Counting -/

/-- The body of the recursion for the count. -/
def counting (d : Diagram) (total : Nat) : Body (NodeId × NodeMap Nat) (Nat × NodeMap Nat)
  | _, (.zero, known) => .ok (0, known)
  | _, (.one, known) => .ok (total, known)
  | call, (.inner i, known) =>
    match known[NodeId.inner i]? with
    | some count => .ok (count, known)
    | none => do
      let b ← d.branch (.inner i)
      let (low, known) ← call (b.low, known)
      let (high, known) ← call (b.high, known)
      let count := (low + high) / 2
      return (count, known.insert (.inner i) count)

theorem nested_counting (d : Diagram) (total k : Nat) (n : NodeId) (known : NodeMap Nat) :
    nested (counting d total) k (n, known) = d.satCountWithin total k n known := by
  induction k generalizing n known with
  | zero => rfl
  | succ k ih =>
    have hcall : nested (counting d total) k = fun x => d.satCountWithin total k x.1 x.2 :=
      funext fun x => ih x.1 x.2
    rw [nested, hcall]
    rcases n with (_ | _) | i <;> rfl

/-- The body of the recursion for the count goes down the levels. -/
theorem counting_descends (h : s.Valid held) (hr : s.diagram.Ranks s.order rank) (total : Nat) :
    Descends (counting s.diagram total) (goesDown fun x => s.diagram.levelIn s.order x.1)
      (fun k x => s.diagram.alive x.1 ∧ rank x.1 < k) where
  pos x hx := Nat.not_lt_zero _ hx.2
  inside := by
    rintro k ⟨n, known⟩ ⟨hn, hk⟩ call hcall
    have hchild : ∀ b m known, s.diagram.branch? n = some b → s.diagram.Child n m →
        call (m, known) = nested (counting s.diagram total) k (m, known) := by
      intro b m known hb hm
      have hlt := h.layered.lt_of_child hm
      exact hcall _ (decide_eq_true hlt) ⟨h.closed.alive_of_child hm,
        Nat.lt_of_lt_of_le (hr n b m hb hlt) (Nat.le_of_lt_succ hk)⟩
    rcases n with (_ | _) | i
    · rfl
    · rfl
    rw [counting, counting]
    split
    · rfl
    refine bind_congr_of_ok fun b hb => ?_
    have hb := Diagram.branch_eq_ok_iff.mp hb
    rw [hchild b b.low known hb (.low hb)]
    refine bind_congr_of_ok fun ⟨low, known'⟩ _ => ?_
    dsimp only
    rw [hchild b b.high known' hb (.high hb)]

/-! ## The calls -/

/-- For a task on live nodes, the levels bound the calls inside each other, besides the slots. -/
theorem Valid.task_depth (h' : s.Valid held) (task : Task)
    (ha : ∀ n ∈ task.operands, s.diagram.alive n) (hk : s.diagram.slots.size + task.spare < k) :
    nested (synthesis cofactors) (s.varCount + task.spare + 1) (task, s) =
        nested (synthesis cofactors) k (task, s) ∧
      nestedIf (synthesis (cofactorsWithin 1)) Task.mayCall (s.varCount + task.spare + 1)
          (task, s) =
        nested (synthesis cofactors) k (task, s) := by
  have hlevels := synthesis_descends h' h'.ranks_levelsBelow
  have hslots := synthesis_descends h' (Diagram.ranks_height s.diagram s.order)
  have hgood : Ready s held s.levelsBelow (s.varCount + task.spare + 1) (task, s) := by
    refine ⟨h', .refl s, ha, fun n _ => ?_⟩
    have := s.levelsBelow_le n
    dsimp only
    omega
  have hgood' : Ready s held (s.diagram.height s.order) k (task, s) := by
    refine ⟨h', .refl s, ha, fun n _ => ?_⟩
    have := s.diagram.height_le s.order n
    dsimp only
    omega
  have hsame := hlevels.eq_of_good hslots hgood hgood'
  have hguarded := hlevels.nestedIf_eq_of_same
    (fun _ _ hx call => hx.synthesis_eq h' (readsOff_cofactorsWithin 0) call) hgood
  exact ⟨hsame, hguarded.trans hsame⟩

theorem Valid.negate_depth (h' : s.Valid held) (hf : s.diagram.alive f) :
    negateWithin (s.varCount + 1) f s = s.negate f ∧
      nestedIf (synthesis (cofactorsWithin 1)) Task.mayCall (s.varCount + 1) (.complement f, s) =
        s.negate f := by
  have hdepth := h'.task_depth (.complement f) (List.forall_mem_singleton.mpr hf)
    (Nat.lt_succ_self _)
  rwa [nested_complement, nested_complement] at hdepth

theorem Valid.ite_depth (h' : s.Valid held) (ha : ∀ n ∈ [f, g, h], s.diagram.alive n) :
    iteWithin (s.varCount + 2) f g h s = s.ite f g h ∧
      nestedIf (synthesis (cofactorsWithin 1)) Task.mayCall (s.varCount + 2) (.choice f g h, s) =
        s.ite f g h := by
  have hdepth := h'.task_depth (.choice f g h) ha (k := 3 * s.diagram.depth) (by
    simp only [Task.spare, Diagram.depth]
    omega)
  rwa [nested_choice, nested_choice] at hdepth

theorem Valid.restrict_depth (h' : s.Valid held) (hf : s.diagram.alive f) (hv : s.order.knows v)
    (value : Bool) :
    restrictWithin v value (s.varCount + 1) f ∅ s = restrictWithin v value s.diagram.depth f ∅ s ∧
      nestedIf (restriction v value) (goesDown restrictionLevel) (s.varCount + 1) (f, ∅, s) =
        restrictWithin v value s.diagram.depth f ∅ s := by
  have hlevels := restriction_descends h' h'.ranks_levelsBelow hv value
  have hslots := restriction_descends h' (Diagram.ranks_height s.diagram s.order) hv value
  have hknown := s.remembers_empty v value
  have hgood : Restricting s held s.levelsBelow v value (s.varCount + 1) (f, ∅, s) :=
    ⟨h', .refl s, hknown, hf, Nat.lt_succ_of_le (s.levelsBelow_le f)⟩
  have hgood' : Restricting s held (s.diagram.height s.order) v value s.diagram.depth (f, ∅, s) :=
    ⟨h', .refl s, hknown, hf, Nat.lt_succ_of_le (s.diagram.height_le s.order f)⟩
  have hsame := hlevels.eq_of_good hslots hgood hgood'
  rw [← nested_restriction, ← nested_restriction]
  exact ⟨hsame, (hlevels.nestedIf_eq hgood).trans hsame⟩

theorem Valid.satCount_depth (h' : s.Valid held) (hf : s.diagram.alive f) (total : Nat) :
    s.diagram.satCountWithin total (s.varCount + 1) f ∅ =
        s.diagram.satCountWithin total s.diagram.depth f ∅ ∧
      nestedIf (counting s.diagram total) (goesDown fun x => s.diagram.levelIn s.order x.1)
        (s.varCount + 1) (f, ∅) = s.diagram.satCountWithin total s.diagram.depth f ∅ := by
  have hlevels := counting_descends h' h'.ranks_levelsBelow total
  have hslots := counting_descends h' (Diagram.ranks_height s.diagram s.order) total
  have hgood := And.intro hf (Nat.lt_succ_of_le (s.levelsBelow_le f))
  have hgood' := And.intro hf (Nat.lt_succ_of_le (s.diagram.height_le s.order f))
  have hsame := hlevels.eq_of_good hslots (x := (f, ∅)) hgood hgood'
  rw [← nested_counting, ← nested_counting]
  exact ⟨hsame, (hlevels.nestedIf_eq (x := (f, ∅)) hgood).trans hsame⟩

end Store

namespace Client

variable {c : Client}

/-- All recursions from live operands end in every reachable state, under any order. Each makes at
most one call for every variable inside each other and one more, and if-then-else another one for
the complement; the loop of the evaluation makes at most one step for every variable. No call is to
a level that is not larger, but for the hand-over from if-then-else to the complement. -/
theorem recursion_depth (hc : Reachable c) :
    (∀ f g h, c.store.alive f → c.store.alive g → c.store.alive h →
      ∃ r t, c.store.ite f g h = .ok (r, t) ∧
        Store.iteWithin (c.store.varCount + 2) f g h c.store = .ok (r, t) ∧
        nestedIf (Store.synthesis (Store.cofactorsWithin 1)) Store.Task.mayCall
          (c.store.varCount + 2) (.choice f g h, c.store) = .ok (r, t)) ∧
    (∀ f, c.store.alive f →
      (∃ r t, c.store.negate f = .ok (r, t) ∧
        Store.negateWithin (c.store.varCount + 1) f c.store = .ok (r, t) ∧
        nestedIf (Store.synthesis (Store.cofactorsWithin 1)) Store.Task.mayCall
          (c.store.varCount + 1) (.complement f, c.store) = .ok (r, t)) ∧
      (∀ v value, c.store.order.knows v →
        (∃ r known t, Store.cofactor f v value c.store = .ok (.ok r, t) ∧
          Store.restrictWithin v value (c.store.varCount + 1) f ∅ c.store = .ok (r, known, t) ∧
          nestedIf (Store.restriction v value) (goesDown Store.restrictionLevel)
            (c.store.varCount + 1) (f, ∅, c.store) = .ok (r, known, t)) ∧
        (c.store.order.levelOf v ≤ c.store.diagram.levelIn c.store.order f →
          ∃ cofactors, c.store.diagram.cofactors v f = .ok cofactors ∧
            Store.restrictWithin v value 1 f ∅ c.store =
              .ok (if value then cofactors.high else cofactors.low, ∅, c.store))) ∧
      (∃ count known, c.store.satCount f = .ok count ∧
        c.store.diagram.satCountWithin (2 ^ c.store.varCount) (c.store.varCount + 1) f ∅ =
          .ok (count, known) ∧
        nestedIf (Store.counting c.store.diagram (2 ^ c.store.varCount))
          (goesDown fun x => c.store.diagram.levelIn c.store.order x.1)
          (c.store.varCount + 1) (f, ∅) = .ok (count, known)) ∧
      ∀ values : Array Bool, c.store.varCount ≤ values.size →
        ∃ x, c.store.evaluate f values = .ok x ∧
          c.store.diagram.evaluateWithin (fun v => values.getD v.index false)
            c.store.varCount f = .ok x) := by
  have hvalid := hc.valid
  refine ⟨fun f g h hf hg hh => ?_, fun f hf => ⟨?_, fun v value hv => ⟨?_, fun hle => ?_⟩, ?_,
    fun values hvalues => ?_⟩⟩
  · have ha : ∀ n ∈ [f, g, h], c.store.diagram.alive n := by simpa using ⟨hf, hg, hh⟩
    obtain ⟨⟨r, t⟩, hrun, -⟩ := hvalid.ite ha
    obtain ⟨hwithin, hguarded⟩ := hvalid.ite_depth ha
    exact ⟨r, t, hrun, hwithin.trans hrun, hguarded.trans hrun⟩
  · obtain ⟨⟨r, t⟩, hrun, -⟩ := hvalid.negate hf
    obtain ⟨hwithin, hguarded⟩ := hvalid.negate_depth hf
    exact ⟨r, t, hrun, hwithin.trans hrun, hguarded.trans hrun⟩
  · have hle := c.store.diagram.height_le c.store.order f
    obtain ⟨⟨r, known, t⟩, hrun, -⟩ := Store.restrictWithin_gives (Diagram.ranks_height _ _) hvalid
      hv hvalid (.refl _) (c.store.remembers_empty v value) hf (k := c.store.diagram.depth)
      (Nat.lt_succ_of_le hle)
    obtain ⟨hwithin, hguarded⟩ := hvalid.restrict_depth hf hv value
    refine ⟨r, known, t, ?_, hwithin.trans hrun, hguarded.trans hrun⟩
    rw [Store.cofactor, Action.store_bind, if_pos hv]
    simp only [Action.step, hrun, bind, Except.bind, pure, Except.pure]
  · exact ⟨_, Diagram.cofactors_eq hf,
      Store.restrictWithin_cofactorsOf hvalid.lawful hv hf hle value ∅ 0⟩
  · obtain ⟨hwithin, hguarded⟩ := hvalid.satCount_depth hf (2 ^ c.store.varCount)
    obtain ⟨⟨count, known⟩, hrun, -⟩ :=
      Diagram.satCountWithin_depth_gives hvalid.closed hvalid.layered (2 ^ c.store.varCount) hf
    refine ⟨count, known, ?_, hwithin.trans hrun, hguarded.trans hrun⟩
    have hrun : c.store.diagram.satCountWithin (Nat.pow 2 c.store.varCount) c.store.diagram.depth f
        ∅ = .ok (count, known) := hrun
    simp only [Store.satCount, Diagram.satCount, hrun, bind, Except.bind, pure, Except.pure]
  · obtain ⟨x, hrun, hvalue⟩ := Diagram.evaluateWithin_gives (a := Store.assignmentOf values)
      hvalid.closed hvalid.layered hvalid.ranks_levelsBelow hf (c.store.levelsBelow_le f)
    exact ⟨x, (hvalid.evaluate_eq_ok_iff hf hvalues).mpr hvalue, hrun⟩

/-- A conjunction with an idle test below it, after an exchange of its two variables. Its complement
is asked for by if-then-else and takes four calls inside each other, and no fewer. -/
theorem recursion_depth_exchanged : ∃ c : Client,
    (start 2 ⟨1, ⟨0⟩⟩).after [.createHeld ⟨1⟩ .zero .zero, .createHeld ⟨1⟩ .zero .one,
      .createHeld ⟨0⟩ (.inner 0) (.inner 1), .swap ⟨0⟩ ⟨1⟩] = some c ∧
    c.store.varCount = 2 ∧
    (∃ r t, c.store.ite (.inner 2) .zero .one = .ok (r, t) ∧
      Store.iteWithin 4 (.inner 2) .zero .one c.store = .ok (r, t) ∧
      nestedIf (Store.synthesis (Store.cofactorsWithin 1)) Store.Task.mayCall 4
        (.choice (.inner 2) .zero .one, c.store) = .ok (r, t)) ∧
    Store.iteWithin 3 (.inner 2) .zero .one c.store = .error .tooDeep := by
  let calls : List Call := [.createHeld ⟨1⟩ .zero .zero, .createHeld ⟨1⟩ .zero .one,
    .createHeld ⟨0⟩ (.inner 0) (.inner 1), .swap ⟨0⟩ ⟨1⟩]
  have hends : ((start 2 ⟨1, ⟨0⟩⟩).after calls).map (fun c =>
      (c.store.varCount, c.store.alive (.inner 2),
        match Store.iteWithin 3 (.inner 2) .zero .one c.store with
        | .ok _ => none
        | .error e => some e)) = some (2, true, some .tooDeep) := by
    decide +kernel
  obtain ⟨c, hc, hends⟩ := Option.map_eq_some_iff.mp hends
  simp only [Prod.mk.injEq] at hends
  obtain ⟨hcount, hlive, hdeep⟩ := hends
  have hdepth := (recursion_depth (reachable_of_after hc)).1 (.inner 2) .zero .one hlive rfl rfl
  rw [hcount] at hdepth
  refine ⟨c, hc, hcount, hdepth, ?_⟩
  cases hrun : Store.iteWithin 3 (.inner 2) .zero .one c.store with
  | ok p =>
    rw [hrun] at hdeep
    cases hdeep
  | error e =>
    rw [hrun] at hdeep
    cases hdeep
    rfl

end Client

end DecisionGraph
