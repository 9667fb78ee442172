import CtlTableau.Number.Duration

/-!
# Reports

What a check of a formula found, and what it took.
-/

namespace CtlTableau

/-- The result of a check. -/
structure Report where
  satisfiable : Bool
  /-- Rounds of refinement, with the one that changed nothing. -/
  iterations : Nat
  /-- Questions put to the engine. -/
  queries : Nat
  /-- How long the engine took to answer them. -/
  elapsed : Duration
  deriving DecidableEq, Repr

namespace Report

/-- The word for a verdict. -/
def verdictText (satisfiable : Bool) : String := if satisfiable then "SAT" else "UNSAT"

/-- A report on one line. -/
def text (r : Report) : String :=
  s!"{verdictText r.satisfiable} (iterations: {r.iterations}, queries: {r.queries}, " ++
    s!"time: {r.elapsed.text}s)"

end Report

end CtlTableau
