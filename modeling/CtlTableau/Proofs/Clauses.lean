import CtlTableau.Proofs.Prefixes

/-!
# Truth of clause forms

A literal is as true as its variable, or as untrue if it is negative; a clause is true if one of its
literals is, and the matrix of a clause form if all of its clauses are (`ClauseForm.matrix`). The
clause form is true if its matrix is under its quantifiers, the first one outermost
(`ClauseForm.isTrue`).

`ClauseForm.Proper` says that a clause form is closed and has no redundancies: this is what encoding
makes and what the search for values relies on.
-/

namespace CtlTableau

/-- The truth of a literal. -/
def litTrue (ρ : Nat → Bool) (l : Int) : Bool := ρ l.natAbs == decide (0 < l)

/-- The truth of a clause: some literal is true. -/
def clauseTrue (ρ : Nat → Bool) (c : List Int) : Bool := c.any (litTrue ρ)

/-- The truth of several clauses at once. -/
def clausesTrue (ρ : Nat → Bool) (cs : List (List Int)) : Bool := cs.all (clauseTrue ρ)

/-! ## 1. Literals and clauses -/

theorem litTrue_natCast {ρ : Nat → Bool} {n : Nat} (h : 0 < n) : litTrue ρ (n : Int) = ρ n := by
  have h' : (0 : Int) < n := by omega
  cases hv : ρ n <;> simp [litTrue, hv, h]

theorem litTrue_neg {l : Int} (h : l ≠ 0) (ρ : Nat → Bool) : litTrue ρ (-l) = !litTrue ρ l := by
  have sign : decide (0 < -l) = !decide (0 < l) := by
    rw [← decide_not, decide_eq_decide]
    omega
  rw [litTrue, litTrue, Int.natAbs_neg, sign]
  cases ρ l.natAbs <;> simp

theorem clauseTrue_iff {ρ : Nat → Bool} {c : List Int} :
    clauseTrue ρ c = true ↔ ∃ l ∈ c, litTrue ρ l = true := List.any_eq_true

theorem clausesTrue_iff {ρ : Nat → Bool} {cs : List (List Int)} :
    clausesTrue ρ cs = true ↔ ∀ c ∈ cs, clauseTrue ρ c = true := List.all_eq_true

theorem clausesTrue_append (ρ : Nat → Bool) (cs ds : List (List Int)) :
    clausesTrue ρ (cs ++ ds) = (clausesTrue ρ cs && clausesTrue ρ ds) := List.all_append

/-- The truth of clauses depends on the variables of their literals. -/
theorem clausesTrue_congr {ρ σ : Nat → Bool} {cs : List (List Int)}
    (h : ∀ c ∈ cs, ∀ l ∈ c, ρ l.natAbs = σ l.natAbs) : clausesTrue ρ cs = clausesTrue σ cs := by
  have clause : ∀ c ∈ cs, clauseTrue ρ c = clauseTrue σ c := by
    intro c hc
    rw [Bool.eq_iff_iff, clauseTrue_iff, clauseTrue_iff]
    refine exists_congr fun l => and_congr_right fun hl => ?_
    rw [litTrue, litTrue, h c hc l hl]
  rw [Bool.eq_iff_iff, clausesTrue_iff, clausesTrue_iff]
  exact forall₂_congr fun c hc => by rw [clause c hc]

/-! ## 2. Clause forms -/

namespace ClauseForm

/-- The clauses of a form as lists. -/
def lists (form : ClauseForm) : List (List Int) := form.clauses.toList.map (·.toList)

/-- The truth of all clauses. -/
def matrix (form : ClauseForm) (ρ : Nat → Bool) : Bool := clausesTrue ρ form.lists

/-- The truth of a closed clause form. -/
def isTrue (form : ClauseForm) : Bool := truthUnder form.binders form.matrix fun _ => false

/-- Sorting literals and clauses and dropping repetitions changes none of the clauses. -/
theorem mem_lists_ofLists {binders : List (Quantifier × Nat)} {cs : List (List Int)} {n : Nat}
    {c : List Int} : c ∈ (ofLists binders cs n).lists ↔
      ∃ d ∈ cs, c = (OrderedSet.ofList d).toList := by
  simp only [lists, ofLists, List.mem_map]
  constructor
  · rintro ⟨s, hs, rfl⟩
    obtain ⟨d, hd, rfl⟩ := List.mem_map.1 (OrderedSet.mem_ofList.1 (OrderedSet.mem_def.2 hs))
    exact ⟨d, hd, rfl⟩
  · rintro ⟨d, hd, rfl⟩
    exact ⟨_, OrderedSet.mem_def.1 (OrderedSet.mem_ofList.2 (List.mem_map.2 ⟨d, hd, rfl⟩)), rfl⟩

theorem matrix_ofLists (binders : List (Quantifier × Nat)) (cs : List (List Int)) (n : Nat)
    (ρ : Nat → Bool) : (ofLists binders cs n).matrix ρ = clausesTrue ρ cs := by
  have clause : ∀ d : List Int, clauseTrue ρ (OrderedSet.ofList d).toList = clauseTrue ρ d := by
    intro d
    rw [Bool.eq_iff_iff, clauseTrue_iff, clauseTrue_iff]
    exact exists_congr fun l => and_congr_left fun _ => OrderedSet.mem_ofList
  rw [matrix, Bool.eq_iff_iff, clausesTrue_iff, clausesTrue_iff]
  constructor
  · intro h d hd
    rw [← clause d]
    exact h _ (mem_lists_ofLists.2 ⟨d, hd, rfl⟩)
  · intro h c hc
    obtain ⟨d, hd, rfl⟩ := mem_lists_ofLists.1 hc
    rw [clause d]
    exact h d hd

/-- A closed clause form without redundancies: every variable is counted and has one quantifier, and
    every clause is about bound variables, each of which it takes in one sign only. -/
structure Proper (form : ClauseForm) : Prop where
  nodup : (form.binders.map (·.2)).Nodup
  counted : ∀ b ∈ form.binders, 1 ≤ b.2 ∧ b.2 ≤ form.numVars
  nonzero : ∀ c ∈ form.lists, ∀ l ∈ c, l ≠ 0
  bound : ∀ c ∈ form.lists, ∀ l ∈ c, ∃ b ∈ form.binders, b.2 = l.natAbs
  oneSign : ∀ c ∈ form.lists, ∀ l ∈ c, -l ∉ c

end ClauseForm

end CtlTableau
