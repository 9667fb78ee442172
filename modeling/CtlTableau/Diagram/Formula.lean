import CtlTableau.Diagram
import CtlTableau.Clausal
import CtlTableau.Fault
import CtlTableau.Formula.Names

/-!
# Deciding with diagrams

A quantified boolean formula, or a clause form, as a decision diagram: connectives and quantifiers
become operations on diagrams, and what is closed comes out as a constant. The names of a formula
get the levels; a name with a number after its last underscore comes before names with greater
numbers, so that variables of different states for the same formula are neighbours.
-/

namespace CtlTableau

/-! ## 1. Levels -/

/-- The greatest number that counts as an index. -/
def indexLimit : Nat := Nat.pow 2 64 - 1

/-- Reads an index: digits, perhaps with a plus sign, within the limit. -/
def readIndex? (cs : List Char) : Option Nat :=
  let digits := match cs with
    | '+' :: rest => rest
    | cs => cs
  if digits ≠ [] ∧ digits.all Char.isDigit = true then
    let n := digits.foldl (fun n c => 10 * n + (c.toNat - 48)) 0
    if n ≤ indexLimit then some n else none
  else none

/-- The index of a name and the stem before it. Names without index come last. -/
def levelKey (name : String) : Nat × String :=
  let reversed := name.toList.reverse
  let ending := reversed.takeWhile (· != '_')
  match reversed.drop ending.length with
  | _ :: stem => ((readIndex? ending.reverse).getD indexLimit, String.ofList stem.reverse)
  | [] => (indexLimit, name)

/-- Whether one key comes before another or is equal. -/
def keyLE (a b : Nat × String) : Bool :=
  a.1 < b.1 || (a.1 == b.1 && (compare a.2 b.2).isLE)

/-- The names in the order of their levels. -/
def levelOrder (names : List String) : List String :=
  ((names.map fun x => (levelKey x, x)).mergeSort fun a b => keyLE a.1 b.1).map (·.2)

/-- The levels of the names of a formula. -/
def Formula.levels (f : Formula) : Std.HashMap String Nat :=
  .ofList (levelOrder f.nameSet.toList).zipIdx

namespace DiagramTable

/-! ## 2. Formulas -/

/-- The diagram of a formula under the given levels. -/
def build (levels : Std.HashMap String Nat) :
    Formula → DiagramTable → Except Fault (Ref × DiagramTable)
  | .atom x, t => .ok (if x = Formula.trueName then (verum, t) else t.test (levels.getD x 0))
  | .unary op p, t =>
    if op = .not then
      match build levels p t with
      | .error e => .error e
      | .ok (f, t) => .ok (t.not f)
    else .error (.unsupported .booleanFormula (.unary op p))
  | .binary op p q, t =>
    if op = .and ∨ op = .or ∨ op = .imp then
      match build levels p t with
      | .error e => .error e
      | .ok (f, t) =>
        let (f, t) := if op = .imp then t.not f else (f, t)
        match build levels q t with
        | .error e => .error e
        | .ok (g, t) => .ok (if op = .and then t.and f g else t.or f g)
    else .error (.unsupported .booleanFormula (.binary op p q))
  | .quant kind x p, t =>
    match build levels p t with
    | .error e => .error e
    | .ok (f, t) =>
      .ok (match kind with
        | .existential => t.exist f (levels.getD x 0)
        | .universal => t.all f (levels.getD x 0))

/-- The truth that a constant diagram stands for; any other depends on variables, which is the given
    fault. -/
def verdict (f : Ref) (otherwise : Fault) : Except Fault Bool :=
  if f = verum then .ok true else if f = falsum then .ok false else .error otherwise

end DiagramTable

/-- The truth of a formula that depends on no free name. -/
def Formula.diagramVerdict (f : Formula) : Except Fault Bool :=
  match DiagramTable.build f.levels f .empty with
  | .error e => .error e
  | .ok (root, _) => DiagramTable.verdict root (.freeVariables f.free.toList)

namespace DiagramTable

/-! ## 3. Clause forms -/

/-- The diagram of a literal. -/
def literal (t : DiagramTable) (l : Int) : Ref × DiagramTable :=
  let (f, t) := t.test l.natAbs
  if l < 0 then t.not f else (f, t)

/-- The diagram of a clause. -/
def clause (t : DiagramTable) (c : List Int) : Ref × DiagramTable :=
  c.foldl (fun (f, t) l =>
    let (g, t) := t.literal l
    t.or f g) (falsum, t)

/-- The diagram of several clauses at once. -/
def clauses (t : DiagramTable) (cs : List (List Int)) : Ref × DiagramTable :=
  cs.foldl (fun (f, t) c =>
    let (g, t) := t.clause c
    t.and f g) (verum, t)

/-- The diagram under quantifiers, the last of which is the innermost. -/
def bind (binders : List (Quantifier × Nat)) (f : Ref) (t : DiagramTable) : Ref × DiagramTable :=
  binders.foldr (fun (kind, x) (f, t) =>
    match kind with
    | .existential => t.exist f x
    | .universal => t.all f x) (f, t)

end DiagramTable

/-- The truth of a clause form that depends on no unbound variable. -/
def ClauseForm.diagramVerdict (form : ClauseForm) : Except Fault Bool :=
  let (f, t) := DiagramTable.empty.clauses (form.clauses.toList.map (·.toList))
  let (root, _) := t.bind form.binders f
  DiagramTable.verdict root .unboundVariable

end CtlTableau
