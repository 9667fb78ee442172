import CtlTableau.Proofs.Fragments

/-!
# What the loops for "until" find

A loop that looks for an existential "until" among given states finds the states from which a finite
path through them meets it, of any length: the rounds of the loop are the lengths of the paths
(`mem_lfp_pathStep_iff`). A loop that looks for a universal "until" finds the states at the root of a
finite tree through them, in which every inner node has the successors that it promises: the rounds
are the depths of the trees (`mem_lfp_treeStep_iff`).

Main statements: `untilFragment_finds_paths` and `everyUntilFragment_finds_trees`.
-/

namespace CtlTableau

/-! ## 1. Finite trees -/

/-- A finite tree with a state at every node. -/
inductive Tree (α : Type) where
  | node (root : α) (children : List (Tree α))

namespace Tree

variable {α : Type} {a : α} {cs : List (Tree α)}

/-- The state at the root. -/
def root : Tree α → α
  | node a _ => a

/-- The trees below the root. -/
def children : Tree α → List (Tree α)
  | node _ cs => cs

/-- A tree, or one below. -/
inductive IsSubtree : Tree α → Tree α → Prop where
  | refl (t : Tree α) : IsSubtree t t
  | inChild {u c t : Tree α} (hc : c ∈ t.children) (h : IsSubtree u c) : IsSubtree u t

/-- Trees are built from the trees below their roots. -/
theorem induction {P : Tree α → Prop} (node : ∀ a cs, (∀ c ∈ cs, P c) → P (node a cs)) (t : Tree α) :
    P t :=
  match t with
  | .node a cs => node a cs fun c _ => induction node c

/-- What holds at all nodes of a tree holds at the root and at all nodes of the trees below. -/
theorem forall_subtree_iff {P : Tree α → Prop} : (∀ u, u.IsSubtree (node a cs) → P u) ↔
    P (node a cs) ∧ ∀ c ∈ cs, ∀ u, u.IsSubtree c → P u := by
  refine ⟨fun h => ⟨h _ (.refl _), fun c hc u hu => h u (.inChild hc hu)⟩, fun h u hu => ?_⟩
  cases hu with
  | refl => exact h.1
  | inChild hc hu => exact h.2 _ hc u hu

end Tree

namespace Tableau

open Run SymbolicState

variable {T : Tableau} {p q : Formula}

section

variable {X : Set (State T.elementary)} {s : State T.elementary}

/-! ## 2. Paths -/

/-- The first `n + 1` states of the sequence are a path that meets "p until q": the last satisfies q
    and all others p, each follows the one before it, and all but the first are members of a set. -/
structure Meets (T : Tableau) (X : Set (State T.elementary)) (p q : Formula) (n : Nat)
    (π : Nat → State T.elementary) : Prop where
  last : T.Satisfies (π n) q
  before : ∀ i < n, T.Satisfies (π i) p
  follows : ∀ i < n, T.Follows (π i) (π (i + 1))
  among : ∀ i, 1 ≤ i → i ≤ n → π i ∈ X

theorem meets_zero {π : Nat → State T.elementary} (h : T.Satisfies (π 0) q) :
    T.Meets X p q 0 π where
  last := h
  before i hi := absurd hi (Nat.not_lt_zero i)
  follows i hi := absurd hi (Nat.not_lt_zero i)
  among _ h1 h0 := absurd (Nat.le_trans h1 h0) (Nat.not_succ_le_zero 0)

/-- A path is a first state and a path from a state that follows it. -/
theorem meets_succ_iff {n : Nat} {π : Nat → State T.elementary} :
    T.Meets X p q (n + 1) π ↔ T.Satisfies (π 0) p ∧ T.Follows (π 0) (π 1) ∧ π 1 ∈ X ∧
      T.Meets X p q n fun i => π (i + 1) := by
  constructor
  · intro h
    refine ⟨h.before 0 (Nat.succ_pos n), h.follows 0 (Nat.succ_pos n),
      h.among 1 (Nat.le_refl 1) (Nat.succ_le_succ (Nat.zero_le n)), h.last, fun i hi => ?_,
      fun i hi => ?_, fun i _ hi => ?_⟩
    · exact h.before (i + 1) (Nat.succ_lt_succ hi)
    · exact h.follows (i + 1) (Nat.succ_lt_succ hi)
    · exact h.among (i + 1) (Nat.succ_le_succ (Nat.zero_le i)) (Nat.succ_le_succ hi)
  · rintro ⟨first, follows, among, rest⟩
    refine ⟨rest.last, fun i hi => ?_, fun i hi => ?_, fun i _ hi => ?_⟩
    · cases i with
      | zero => exact first
      | succ i => exact rest.before i (Nat.lt_of_succ_lt_succ hi)
    · cases i with
      | zero => exact follows
      | succ i => exact rest.follows i (Nat.lt_of_succ_lt_succ hi)
    · obtain rfl | ⟨i, rfl⟩ : i = 1 ∨ ∃ j, i = j + 2 := by
        rcases i with _ | _ | i
        · omega
        · exact Or.inl rfl
        · exact Or.inr ⟨i, rfl⟩
      · exact among
      · exact rest.among (i + 1) (Nat.succ_le_succ (Nat.zero_le i)) (Nat.le_of_succ_le_succ hi)

/-- **The loop for an existential "until" stops at the states where a path starts that meets it.** -/
theorem mem_lfp_pathStep_iff :
    s ∈ (T.pathStep X p q).lfp ↔ ∃ n π, π 0 = s ∧ T.Meets X p q n π := by
  constructor
  · -- the states where a path starts are closed under one step more
    have closed : T.pathStep X p q {s | ∃ n π, π 0 = s ∧ T.Meets X p q n π} ≤
        {s | ∃ n π, π 0 = s ∧ T.Meets X p q n π} := by
      rintro s (now | ⟨still, t, among, follows, n, π, rfl, meets⟩)
      · exact ⟨0, fun _ => s, rfl, meets_zero now⟩
      · exact ⟨n + 1, fun i => i.casesOn s π, rfl, meets_succ_iff.2 ⟨still, follows, among, meets⟩⟩
    exact fun h => (T.pathStep X p q).lfp_le closed h
  · rintro ⟨n, π, rfl, meets⟩
    induction n generalizing π with
    | zero =>
      rw [← OrderHom.map_lfp]
      exact Or.inl meets.last
    | succ n ih =>
      obtain ⟨still, follows, among, rest⟩ := meets_succ_iff.1 meets
      rw [← OrderHom.map_lfp]
      exact Or.inr ⟨still, π 1, among, follows, ih _ rest⟩

/-! ## 3. Trees -/

/-- What the tree for "p until q" has to show at a node: a leaf satisfies q and an inner node p; every
    child follows its parent and is a member of a set; and for every "some next" formula that an
    inner node satisfies, it has a child that satisfies what this promises. -/
structure Fulfils (T : Tableau) (X : Set (State T.elementary)) (p q : Formula)
    (u : Tree (State T.elementary)) : Prop where
  leaf : u.children = [] → T.Satisfies u.root q
  inner : u.children ≠ [] → T.Satisfies u.root p
  follows : ∀ c ∈ u.children, T.Follows u.root c.root
  among : ∀ c ∈ u.children, c.root ∈ X
  promised : u.children ≠ [] → ∀ g, .ex g ∈ T.elementary → T.Satisfies u.root (.ex g) →
    ∃ c ∈ u.children, T.Satisfies c.root g

/-- A tree all of whose nodes show what they have to. -/
def FulfilsAll (T : Tableau) (X : Set (State T.elementary)) (p q : Formula)
    (t : Tree (State T.elementary)) : Prop :=
  ∀ u, u.IsSubtree t → T.Fulfils X p q u

theorem fulfilsAll_leaf (h : T.Satisfies s q) : T.FulfilsAll X p q (.node s []) := by
  refine Tree.forall_subtree_iff.2 ⟨⟨fun _ => h, ?_, ?_, ?_, ?_⟩, ?_⟩
  · exact fun hne => absurd rfl hne
  · exact fun c hc => absurd hc List.not_mem_nil
  · exact fun c hc => absurd hc List.not_mem_nil
  · exact fun hne => absurd rfl hne
  · exact fun c hc => absurd hc List.not_mem_nil

/-- A state with trees for a successor and for every promise is the root of a tree. -/
theorem exists_fulfilsAll (still : T.Satisfies s p)
    (succeeded : ∃ t ∈ X, T.Follows s t ∧ ∃ c : Tree (State T.elementary),
      c.root = t ∧ T.FulfilsAll X p q c)
    (promised : ∀ g, .ex g ∈ T.elementary → T.Satisfies s (.ex g) → ∃ t ∈ X, T.Follows s t ∧
      (∃ c : Tree (State T.elementary), c.root = t ∧ T.FulfilsAll X p q c) ∧ T.Satisfies t g) :
    ∃ c : Tree (State T.elementary), c.root = s ∧ T.FulfilsAll X p q c := by
  obtain ⟨_, among, follows, plain, rfl, fulfils⟩ := succeeded
  -- a tree for every formula, which serves it if it is promised
  have served : ∀ g, ∃ c : Tree (State T.elementary),
      (T.Follows s c.root ∧ c.root ∈ X ∧ T.FulfilsAll X p q c) ∧
        (.ex g ∈ T.elementary → T.Satisfies s (.ex g) → T.Satisfies c.root g) := by
    intro g
    by_cases h : .ex g ∈ T.elementary ∧ T.Satisfies s (.ex g)
    · obtain ⟨_, among, follows, ⟨c, rfl, fulfils⟩, hg⟩ := promised g h.1 h.2
      exact ⟨c, ⟨follows, among, fulfils⟩, fun _ _ => hg⟩
    · exact ⟨plain, ⟨follows, among, fulfils⟩, fun hg hs => absurd ⟨hg, hs⟩ h⟩
  choose serve fits serves using served
  have each : ∀ c ∈ plain :: T.promises.map serve,
      T.Follows s c.root ∧ c.root ∈ X ∧ T.FulfilsAll X p q c := by
    intro c hc
    rcases List.mem_cons.1 hc with rfl | hc
    · exact ⟨follows, among, fulfils⟩
    · obtain ⟨g, -, rfl⟩ := List.mem_map.1 hc
      exact fits g
  refine ⟨.node s (plain :: T.promises.map serve), rfl, Tree.forall_subtree_iff.2
    ⟨⟨nofun, fun _ => still, fun c hc => (each c hc).1, fun c hc => (each c hc).2.1,
      fun _ g hg hs => ?_⟩, fun c hc => (each c hc).2.2⟩⟩
  exact ⟨serve g, List.mem_cons_of_mem _ (List.mem_map_of_mem (mem_promises.2 hg)), serves g hg hs⟩

/-- **The loop for a universal "until" stops at the roots of the trees that meet it.** -/
theorem mem_lfp_treeStep_iff : s ∈ (T.treeStep X p q).lfp ↔
    ∃ t : Tree (State T.elementary), t.root = s ∧ T.FulfilsAll X p q t := by
  constructor
  · -- the roots of trees are closed under one step more
    have closed : T.treeStep X p q {s | ∃ t : Tree (State T.elementary),
        t.root = s ∧ T.FulfilsAll X p q t} ≤
          {s | ∃ t : Tree (State T.elementary), t.root = s ∧ T.FulfilsAll X p q t} := by
      rintro s (now | ⟨still, succeeded, promised⟩)
      · exact ⟨.node s [], rfl, fulfilsAll_leaf now⟩
      · exact exists_fulfilsAll still succeeded promised
    exact fun h => (T.treeStep X p q).lfp_le closed h
  · rintro ⟨t, rfl, fulfils⟩
    induction t using Tree.induction with
    | node s cs ih =>
      obtain ⟨root, below⟩ := Tree.forall_subtree_iff.1 fulfils
      rw [← OrderHom.map_lfp]
      cases cs with
      | nil => exact Or.inl (root.leaf rfl)
      | cons c cs =>
        have found : ∀ c' ∈ c :: cs, c'.root ∈ (T.treeStep X p q).lfp := fun c' hc' =>
          ih c' hc' (below c' hc')
        refine Or.inr ⟨root.inner nofun, ⟨c.root, root.among c List.mem_cons_self,
          root.follows c List.mem_cons_self, found c List.mem_cons_self⟩, fun g hg hs => ?_⟩
        obtain ⟨c', hc', hg⟩ := root.promised nofun g hg hs
        exact ⟨c'.root, root.among c' hc', root.follows c' hc', found c' hc', hg⟩

end

/-! ## 4. What the loops find -/

variable {σ : Type} {engine : Engine σ} {ready : σ → Prop} {sure : Prop} {f states : Formula}
  {s : Session σ}

/-- What a loop leads to whose formula stands for a set, with an engine that tells the truth: the
    formula, if there is one; and there is one if the engine always answers and there are enough
    rounds. -/
theorem finds_of_leads {m : Nat → Run σ Formula} {F : State T.elementary → Prop}
    (he : engine.Reliable (Formula.trueName ∈ states.boundNames) ready sure)
    (h : ∀ {sure' : Prop} {rounds},
      engine.Reliable (Formula.trueName ∈ states.boundNames) ready sure' →
        (sure' → T.roundBound ≤ rounds) → Leads sure' (m rounds) s fun f _ =>
          ∀ ρ t, f.eval (T.current.write ρ t) = true ↔ F t) :
    (∀ rounds fragment s', (m rounds).run.run s = (.ok fragment, s') →
      ∀ ρ t, fragment.eval (T.current.write ρ t) = true ↔ F t) ∧
    (sure → s.cancelled = false → ∀ rounds, T.roundBound ≤ rounds →
      ∃ fragment s', (m rounds).run.run s = (.ok fragment, s')) := by
  refine ⟨fun rounds fragment s' hrun => ?_, fun hsure hc rounds hr => ?_⟩
  · exact ((h (he.mono id False.elim) False.elim).ok fragment s' hrun).2
  · obtain ⟨fragment, s', hrun, -⟩ := (h he fun _ => hr).exists_ok hsure hc
    exact ⟨fragment, s', hrun⟩

/-- **The formula for an existential "until" stands for the states from which a path meets it.** It
    may be looked for among the states of any quantified boolean formula, with any engine that tells
    the truth: if there is a result, it is true at the states where a finite path starts that meets
    the "until" and whose other states make the given formula true. There is a result if the engine
    answers always, nobody calls the run off, and the loop has enough rounds. -/
theorem untilFragment_finds_paths (hT : ofFormula f = .ok T)
    (hpq : .ex (.eu p q) ∈ T.elementary) (hstates : T.StateSet s.tickets.next states)
    (he : engine.Reliable (Formula.trueName ∈ states.boundNames) ready sure)
    (hs : ready s.engine) :
    (∀ rounds fragment s',
      (T.untilFragment engine rounds states T.current p q).run.run s = (.ok fragment, s') →
      ∀ ρ t, fragment.eval (T.current.write ρ t) = true ↔ ∃ n π, π 0 = t ∧
        T.Meets {t | states.eval (T.current.write ρ t) = true} p q n π) ∧
    (sure → s.cancelled = false → ∀ rounds, T.roundBound ≤ rounds → ∃ fragment s',
      (T.untilFragment engine rounds states T.current p q).run.run s =
        (.ok fragment, s')) := by
  obtain ⟨-, hsat⟩ := saturated_of_ofFormula (isTemporal_of_ofFormula hT) hT
  obtain ⟨hp, hq⟩ := hsat.until hpq
  obtain ⟨means, ends⟩ := finds_of_leads he fun he enough =>
    leads_untilFragment_among he hsat hp hq hstates.regards enough hs
  refine ⟨fun rounds fragment s' hrun ρ t => ?_, ends⟩
  rw [means rounds fragment s' hrun, hstates.setOf_eval, mem_lfp_pathStep_iff]

/-- "p comes at last on some path". -/
def sometime : Formula := .ef (.atom "p")

/-- "For every TRUE, TRUE implies x for some x", which says nothing about the current state. -/
def anyState : Formula := .all Formula.trueName (.exist "x" (.imp .truth (.atom "x")))

/-- Among all states, given by a formula that binds the constant, the loop finds the states that are
    followed by one at which "p" is true. -/
theorem untilFragment_finds_paths_sometime : ∃ T, ofFormula sometime = .ok T ∧
    .ex (.eu .truth (.atom "p")) ∈ T.elementary ∧ ∃ fragment s',
      (T.untilFragment Engine.oracle T.roundBound anyState T.current .truth (.atom "p")).run.run
        { engine := () } = (.ok fragment, s') ∧
      ∀ ρ t t', T.Follows t t' → T.Satisfies t' (.atom "p") →
        fragment.eval (T.current.write ρ t) = true := by
  obtain ⟨T, hT, hn, hsat⟩ := exists_ofFormula (f := sometime) rfl
  have decides := hsat.decides
  rw [hn] at decides
  obtain ⟨hpq, htruth, -⟩ := decides.eu
  have reliable : Engine.oracle.Reliable (Formula.trueName ∈ anyState.boundNames) (fun _ => True)
      True := Engine.reliable_oracle
  have closed : anyState.freeNames = [] := by decide
  have hstates : T.StateSet 1 anyState :=
    stateSet_of_no_underscore rfl (by simp [closed]) (by decide) _
  obtain ⟨finds, ends⟩ := untilFragment_finds_paths (s := { engine := () }) hT hpq
    hstates reliable trivial
  obtain ⟨fragment, s', hrun⟩ := ends trivial rfl T.roundBound (Nat.le_refl _)
  refine ⟨T, hT, hpq, fragment, s', hrun, fun ρ t t' follows there => ?_⟩
  refine (finds _ fragment s' hrun ρ t).2 ⟨1, fun i => i.casesOn t fun _ => t', rfl, ?_⟩
  have still : T.Satisfies t .truth := (satisfies_iff htruth t).2 (Or.inl rfl)
  have among : t' ∈ {t | anyState.eval (T.current.write ρ t) = true} := by
    simp [anyState, Formula.eval]
  exact meets_succ_iff.2 ⟨still, follows, among, meets_zero there⟩

/-- **The formula for a universal "until" stands for the states at the root of a tree that meets it**,
    in the same sense: what is looked for is the "until" of the negations of a "release" that a state
    may deny to pass on. -/
theorem everyUntilFragment_finds_trees (hT : ofFormula f = .ok T)
    (hpq : .ex (.er p q) ∈ T.elementary) (hstates : T.StateSet s.tickets.next states)
    (he : engine.Reliable (Formula.trueName ∈ states.boundNames) ready sure)
    (hs : ready s.engine) :
    (∀ rounds fragment s',
      (T.everyUntilFragment engine rounds states T.current p.negate q.negate).run.run s =
        (.ok fragment, s') →
      ∀ ρ t, fragment.eval (T.current.write ρ t) = true ↔
        ∃ tree : Tree (State T.elementary), tree.root = t ∧
          T.FulfilsAll {t | states.eval (T.current.write ρ t) = true} p.negate q.negate tree) ∧
    (sure → s.cancelled = false → ∀ rounds, T.roundBound ≤ rounds → ∃ fragment s',
      (T.everyUntilFragment engine rounds states T.current p.negate q.negate).run.run s =
        (.ok fragment, s')) := by
  obtain ⟨-, hsat⟩ := saturated_of_ofFormula (isTemporal_of_ofFormula hT) hT
  obtain ⟨hp, hq⟩ := hsat.release hpq
  obtain ⟨means, ends⟩ := finds_of_leads he fun he enough =>
    leads_everyUntilFragment_among he hsat hp.negate hq.negate hstates.regards enough hs
  refine ⟨fun rounds fragment s' hrun ρ t => ?_, ends⟩
  rw [means rounds fragment s' hrun, hstates.setOf_eval, mem_lfp_treeStep_iff]

/-- "Whatever x is, it implies p", over the variables of the states that decide "p" first. -/
def whereTrue : Formula := .all "x" (.imp (.atom "x") (.atom "v_0"))

/-- The "until" that a state promises on all paths that does not pass on that "p" stays away is met at
    once where "p" is true. -/
theorem everyUntilFragment_finds_trees_atLast : ∃ fragment s',
    (atLastTableau.everyUntilFragment Engine.expansion.toEngine atLastTableau.roundBound whereTrue
      atLastTableau.current .truth (.atom "p")).run.run { engine := {} } = (.ok fragment, s') ∧
    ∀ ρ t, atLastTableau.Satisfies t (.atom "p") →
      fragment.eval (atLastTableau.current.write ρ t) = true := by
  have hpq : .ex (.er .falsity (.not (.atom "p"))) ∈ atLastTableau.elementary := by decide
  have plain : Formula.trueName ∉ whereTrue.boundNames := by decide
  have free : ∀ x ∈ whereTrue.freeNames,
      x = Formula.trueName ∨ x ∈ atLastTableau.current.names := by decide
  have hstates : atLastTableau.StateSet 1 whereTrue :=
    stateSet_of_no_underscore rfl free (by decide) _
  obtain ⟨finds, ends⟩ := everyUntilFragment_finds_trees (s := { engine := {} }) ofFormula_atLast hpq
    hstates (Engine.truthful_expansion.reliable.mono plain id) trivial
  obtain ⟨fragment, s', hrun⟩ := ends trivial rfl _ (Nat.le_refl _)
  refine ⟨fragment, s', hrun, fun ρ t ht => ?_⟩
  exact (finds _ fragment s' hrun ρ t).2 ⟨.node t [], rfl, fulfilsAll_leaf ht⟩

end Tableau

end CtlTableau
