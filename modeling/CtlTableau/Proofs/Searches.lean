import CtlTableau.Proofs.Search

/-!
# The course of a search

A search gives variables values, one after another, and takes them back. Whatever the clauses are,
each of its calls hands the assignment back as it found it (`expand_back`).

A search `Visits` an assignment under some quantifiers by what its loop and its choice do: a literal
that the outlook forces comes true, whether or not its variable is open, and the outermost open
variable gets either value. From a proper clause form each step leaves the search on course
(`OnCourse.force`, `OnCourse.choose`), so every assignment that is visited is (`Visits.onCourse`).
There a forced literal is open, and every step uses a variable up.

Main statement: `expansion_decides`.
-/

namespace CtlTableau.ClauseForm

/-! ## 1. Handing the assignment back -/

section HandingBack

variable {u : Array Bool} {cs : List (List Int)}

/-- Opening the forced variables again undoes propagation. -/
theorem release_propagate (u : Array Bool) (cs : List (List Int)) (σ : Assignment)
    (trail : List Nat) :
    release (propagate u cs σ trail).2.1 (propagate u cs σ trail).2.2 = release trail σ := by
  fun_induction propagate u cs σ trail with
  | case1 σ trail l hl ho ih =>
    rw [ih, release, List.foldl_cons, Assignment.put_none_put ho]
    rfl
  | case2 => rfl
  | case3 => rfl

/-- Choosing hands the assignment back if the search under fewer quantifiers does. -/
theorem choose_back {bs : List (Quantifier × Nat)}
    (ih : ∀ inner : List (Quantifier × Nat), inner.length < bs.length →
      ∀ σ, (expand u cs inner σ).2 = σ) (σ : Assignment) : (choose u cs bs σ).2 = σ := by
  induction bs with
  | nil => rw [choose.eq_def]
  | cons b bs step =>
    obtain ⟨k, x⟩ := b
    rw [choose.eq_def]
    dsimp only
    cases ho : σ.isOpen x with
    | false => exact step fun inner hlt => ih inner (Nat.lt_succ_of_lt hlt)
    | true =>
      have value : ∀ v, (expand u cs bs (σ.put x (some v))).2.put x none = σ := fun v => by
        rw [ih bs (Nat.lt_succ_self _), Assignment.put_none_put ho]
      simp only [if_true, value]
      split <;> rfl

/-- **Every call hands the assignment back** as it found it. -/
theorem expand_back (u : Array Bool) (cs : List (List Int)) (bs : List (Quantifier × Nat))
    (σ : Assignment) : (expand u cs bs σ).2 = σ := by
  induction hn : bs.length using Nat.strongRecOn generalizing bs σ with
  | _ n ih =>
    have back := release_propagate u cs σ []
    rw [expand.eq_def]
    split
    · next e => rwa [e] at back
    · next e => rwa [e] at back
    · next o trail τ _ _ e =>
      rw [e] at back
      dsimp only
      rw [choose_back fun inner hlt σ => ih inner.length (hn ▸ hlt) inner σ rfl]
      exact back

end HandingBack

/-! ## 2. What a search visits -/

variable {form : ClauseForm} {n : Nat} {bs : List (Quantifier × Nat)} {σ : Assignment}

/-- The search comes to this assignment under these quantifiers, after giving `n` variables values
    that it has not taken back. Where the first value decides, it spares itself the second; both are
    covered here. -/
inductive Visits (form : ClauseForm) : Nat → List (Quantifier × Nat) → Assignment → Prop where
  | start : Visits form 0 form.binders (.allOpen form.numVars)
  | force {n : Nat} {bs : List (Quantifier × Nat)} {σ : Assignment} {l : Int}
      (before : Visits form n bs σ)
      (forced : outlook form.universals σ .won form.lists = .forced l) :
      Visits form (n + 1) bs (σ.put l.natAbs (some (decide (0 < l))))
  | choose {n : Nat} {outer inner : List (Quantifier × Nat)} {b : Quantifier × Nat}
      {σ : Assignment} (v : Bool) (before : Visits form n (outer ++ b :: inner) σ)
      (choice : outlook form.universals σ .won form.lists = .choice)
      (closed : ∀ c ∈ outer, σ.isOpen c.2 = false) (opened : σ.isOpen b.2 = true) :
      Visits form (n + 1) inner (σ.put b.2 (some v))

/-- The search is ready to go on, every variable has its place, and each value has used a variable
    up. -/
structure OnCourse (form : ClauseForm) (n : Nat) (bs : List (Quantifier × Nat)) (σ : Assignment) :
    Prop where
  ready : Ready form.universals form.lists bs σ
  size : σ.size = form.numVars + 1
  used : n + σ.openCount ≤ form.numVars + 1

theorem Ready.isOpen_of_forced (h : Ready form.universals form.lists bs σ) {l : Int}
    (forced : outlook form.universals σ .won form.lists = .forced l) :
    σ.isOpen l.natAbs = true := by
  obtain e | ⟨c, hc, hs⟩ := of_outlook_forced forced
  · cases e
  · exact (h.truthUnder_put_unit hc hs).1

/-- Variables that have values need no quantifiers. -/
theorem Ready.skip_all {u : Array Bool} {cs : List (List Int)} {outer : List (Quantifier × Nat)}
    (h : Ready u cs (outer ++ bs) σ) (closed : ∀ c ∈ outer, σ.isOpen c.2 = false) :
    Ready u cs bs σ := by
  induction outer with
  | nil => exact h
  | cons c outer ih =>
    exact ih (h.skip (closed c List.mem_cons_self)) fun d hd => closed d (List.mem_cons_of_mem c hd)

theorem onCourse_start (h : form.Proper) :
    form.OnCourse 0 form.binders (.allOpen form.numVars) where
  ready := h.ready
  size := Array.size_replicate
  used := by
    rw [Nat.zero_add, Assignment.openCount, Assignment.allOpen, Array.toList_replicate]
    exact Nat.le_trans List.countP_le_length (Nat.le_of_eq List.length_replicate)

namespace OnCourse

/-- A value for an open variable keeps the search on course under any quantifiers that it is ready
    for then. -/
theorem put (h : form.OnCourse n bs σ) {x : Nat} {v : Bool} (ho : σ.isOpen x = true)
    {inner : List (Quantifier × Nat)}
    (ready : Ready form.universals form.lists inner (σ.put x (some v))) :
    form.OnCourse (n + 1) inner (σ.put x (some v)) where
  ready := ready
  size := (Assignment.size_put (some v)).trans h.size
  used := by
    have fewer := Assignment.openCount_put_lt (v := v) ho
    have used := h.used
    omega

theorem force (h : form.OnCourse n bs σ) {l : Int}
    (forced : outlook form.universals σ .won form.lists = .forced l) :
    form.OnCourse (n + 1) bs (σ.put l.natAbs (some (decide (0 < l)))) :=
  have ho := h.ready.isOpen_of_forced forced
  h.put ho (h.ready.put ho)

theorem choose {outer : List (Quantifier × Nat)} {b : Quantifier × Nat}
    (h : form.OnCourse n (outer ++ b :: bs) σ) (closed : ∀ c ∈ outer, σ.isOpen c.2 = false)
    (opened : σ.isOpen b.2 = true) (v : Bool) :
    form.OnCourse (n + 1) bs (σ.put b.2 (some v)) :=
  h.put opened ((h.ready.skip_all closed).choose_value opened v)

end OnCourse

/-- Every assignment that the search visits is on course. -/
theorem Visits.onCourse (visited : form.Visits n bs σ) (h : form.Proper) :
    form.OnCourse n bs σ := by
  induction visited with
  | start => exact onCourse_start h
  | force _ forced ih => exact ih.force forced
  | choose v _ _ closed opened ih => exact ih.choose closed opened v

/-! ## 3. Deciding -/

/-- **Expansion decides clause forms.** The result for a proper clause form is its truth, and every
    call hands the assignment back. Wherever the search comes, a call gives the truth of the
    quantifiers that are left, every variable that it may look up has its place, a literal that is
    forced is open, and no more values have been given than there are variables: so the search ends.
    -/
theorem expansion_decides {form : ClauseForm} (h : form.Proper) :
    form.expansion = form.isTrue ∧
    (∀ bs σ, (expand form.universals form.lists bs σ).2 = σ) ∧
    ∀ n bs σ, form.Visits n bs σ →
      (∀ ρ, expand form.universals form.lists bs σ =
        (truthUnder bs (truthFrom form.lists σ) ρ, σ)) ∧
      (∀ b ∈ form.binders, b.2 < σ.size) ∧
      (∀ c ∈ form.lists, ∀ l ∈ c, l.natAbs < σ.size) ∧
      (∀ l, outlook form.universals σ .won form.lists = .forced l → σ.isOpen l.natAbs = true) ∧
      n + σ.openCount ≤ form.numVars + 1 := by
  refine ⟨expansion_eq_isTrue h, expand_back _ _, fun n bs σ visited => ?_⟩
  have course := visited.onCourse h
  refine ⟨expand_eq course.ready, fun b hb => ?_, course.ready.within,
    fun l => course.ready.isOpen_of_forced, course.used⟩
  rw [course.size]
  exact Nat.lt_succ_of_le (h.counted b hb).2

/-- "For all x there are a y equal to x, and a z": the third variable is forced before the first. -/
def equalAndTrue : ClauseForm where
  binders := [(.universal, 1), (.existential, 2), (.existential, 3)]
  clauses := ⟨[⟨[-2, 1], by decide⟩, ⟨[-1, 2], by decide⟩, ⟨[3], by decide⟩], by decide⟩
  numVars := 3

/-- The search finds this true; it visits the assignment with the third variable true, and with the
    first one true too. -/
theorem expansion_decides_equalAndTrue : equalAndTrue.Proper ∧
    equalAndTrue.expansion = true ∧ equalAndTrue.isTrue = true ∧
    equalAndTrue.Visits 2 [(.existential, 2), (.existential, 3)]
      #[none, some true, none, some true] ∧
    expand equalAndTrue.universals equalAndTrue.lists [(.existential, 2), (.existential, 3)]
      #[none, some true, none, some true] = (true, #[none, some true, none, some true]) := by
  have lists : equalAndTrue.lists = [[-2, 1], [-1, 2], [3]] := by decide
  have universals : equalAndTrue.universals = #[false, true, false, false] := by decide
  have proper : equalAndTrue.Proper := by
    refine ⟨by decide, by decide, ?_, ?_, ?_⟩ <;> rw [lists] <;> decide
  have visits : equalAndTrue.Visits 2 [(.existential, 2), (.existential, 3)]
      #[none, some true, none, some true] := by
    have forced : outlook equalAndTrue.universals (.allOpen 3) .won equalAndTrue.lists =
        .forced 3 := by
      rw [lists, universals]
      decide
    have before : equalAndTrue.Visits 1
        ([] ++ (.universal, 1) :: [(.existential, 2), (.existential, 3)])
        #[none, none, none, some true] := .force .start forced
    refine .choose true before ?_ (fun c hc => absurd hc List.not_mem_nil) (by decide)
    rw [lists, universals]
    decide
  obtain ⟨decided, -, course⟩ := expansion_decides proper
  have truth : equalAndTrue.isTrue = true := by decide
  refine ⟨proper, decided.trans truth, truth, visits, ?_⟩
  rw [(course _ _ _ visits).1 fun _ => false, lists]
  decide

end CtlTableau.ClauseForm
