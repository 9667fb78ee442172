import CtlTableau.Formula
import CtlTableau.OrderedSet

/-!
# Quantified clause forms

A clause form is a list of quantified variables over a set of clauses. Variables are positive
numbers; a literal is a variable or its negative, a clause a set of literals that is true if one of
them is, and the clause form asks for all clauses at once.
-/

namespace CtlTableau

/-- A set of literals: signed variable numbers. -/
abbrev Clause := OrderedSet Int

/-- Quantified variables over a set of clauses. -/
structure ClauseForm where
  /-- The quantified variables, outermost first. -/
  binders : List (Quantifier × Nat)
  clauses : OrderedSet Clause
  /-- The number of variables that the form lays claim to. -/
  numVars : Nat

/-- The clause form of given literals, in any order and with repetitions. -/
def ClauseForm.ofLists (binders : List (Quantifier × Nat)) (clauses : List (List Int))
    (numVars : Nat) : ClauseForm :=
  ⟨binders, .ofList (clauses.map .ofList), numVars⟩

end CtlTableau
