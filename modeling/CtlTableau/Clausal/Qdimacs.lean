import CtlTableau.Clausal

/-!
# Clause forms as text

The exchange format of solvers: a header with the number of variables and of clauses, a line for
each run of equal quantifiers, a line for each clause; every line but the header ends in `0`.
`ClauseForm.qdimacs` writes it, `ClauseForm.ofQdimacs?` reads it back.
-/

namespace CtlTableau.ClauseForm

/-! ## 1. Writing -/

/-- Maximal runs of equal quantifiers. -/
def blocks : List (Quantifier × Nat) → List (Quantifier × List Nat)
  | [] => []
  | (k, x) :: rest =>
    match blocks rest with
    | (k', xs) :: bs => if k = k' then (k, x :: xs) :: bs else (k, [x]) :: (k', xs) :: bs
    | [] => [(k, [x])]

/-- The letter that a run of quantifiers starts with. -/
def letter : Quantifier → String
  | .existential => "e"
  | .universal => "a"

/-- The line of a run of quantifiers. -/
def blockLine (b : Quantifier × List Nat) : String :=
  letter b.1 ++ " " ++ " ".intercalate (b.2.map toString) ++ " 0\n"

/-- The line of a clause. -/
def clauseLine (c : List Int) : String := " ".intercalate (c.map toString) ++ " 0\n"

/-- The header. -/
def headerLine (form : ClauseForm) : String :=
  "p cnf " ++ toString form.numVars ++ " " ++ toString form.clauses.size ++ "\n"

/-- The clause form as text. -/
def qdimacs (form : ClauseForm) : String :=
  let quantified := (blocks form.binders).foldl (fun s b => s ++ blockLine b) (headerLine form)
  form.clauses.toList.foldl (fun s c => s ++ clauseLine c.toList) quantified

/-! ## 2. Reading -/

/-- The parts of a text between the places where a character stands. -/
def pieces (separator : Char) (text : String) : List String :=
  (text.split separator).toList.map (·.copy)

/-- The words of every line. -/
def words (text : String) : List (List String) := (pieces '\n' text).map (pieces ' ')

/-- The numbers of a line whose last one is the closing zero. -/
def numbers? (line : List String) : Option (List Int) :=
  match (line.filter (· != "")).mapM String.toInt? with
  | some ns => if ns.getLast? = some 0 then some ns.dropLast else none
  | none => none

/-- A line of quantifiers. -/
def readBlock? : List String → Option (List (Quantifier × Nat))
  | "e" :: ws => (numbers? ws).map fun ns => ns.map fun n => (.existential, n.toNat)
  | "a" :: ws => (numbers? ws).map fun ns => ns.map fun n => (.universal, n.toNat)
  | _ => none

/-- The lines of quantifiers, then those of clauses. -/
def readLines : List (List String) → Option (List (Quantifier × Nat) × List (List Int))
  | [] => some ([], [])
  | line :: rest => do
    let (bs, cs) ← readLines rest
    match readBlock? line with
    | some b => return (b ++ bs, cs)
    | none => if bs = [] then return ([], (← numbers? line) :: cs) else none

/-- Reads the text of a clause form, and the number of clauses that its header announces. -/
def ofQdimacs? (text : String) : Option (ClauseForm × Nat) :=
  match words text with
  | ["p", "cnf", v, c] :: rest => do
    let (bs, cs) ← readLines rest.dropLast
    return (.ofLists bs cs (← v.toNat?), ← c.toNat?)
  | _ => none

end CtlTableau.ClauseForm
