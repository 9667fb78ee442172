import CtlTableau.Clausal.Circuit
import CtlTableau.Fault
import CtlTableau.Formula.Names

/-!
# From prenex formulas to clause forms

The variables of the clause form are numbered as follows: the bound names that the matrix uses in
the order of their quantifiers, then the constant if the matrix uses it, then the gates of the
matrix. A name that is bound more than once belongs to its innermost quantifier. The constant and
the gates are existential and innermost: their values follow from the others.
-/

namespace CtlTableau.Formula

/-! ## 1. The matrix as a circuit -/

/-- The matrix as a circuit, if it uses negation, conjunction and disjunction only. -/
def circuit (idOf : String → Nat) : Formula → Except Fault Circuit
  | .atom x => .ok (.input (idOf x))
  | .unary op p =>
    if op = .not then (p.circuit idOf).map .not
    else .error (.notPropositional (.unary op p))
  | .binary op p q =>
    if op = .and ∨ op = .or then
      match p.circuit idOf with
      | .error e => .error e
      | .ok c =>
        match q.circuit idOf with
        | .error e => .error e
        | .ok d => .ok (if op = .and then .and c d else .or c d)
    else .error (.notPropositional (.binary op p q))
  | .quant k x p => .error (.notPropositional (.quant k x p))

/-! ## 2. Numbering the variables -/

/-- Drops every quantifier whose name a later one binds again. -/
def innermost : List (Quantifier × String) → List (Quantifier × String)
  | [] => []
  | b :: bs => if bs.any (·.2 == b.2) then innermost bs else b :: innermost bs

/-- How the variables of a clause form are numbered. -/
structure Numbering where
  /-- The bound names that are used, with their quantifiers, outermost first. -/
  bound : List (Quantifier × String)
  /-- Whether the constant is used. -/
  usesTrue : Bool
  /-- The numbers of the bound names. -/
  ids : Std.HashMap String Nat

/-- The numbering for a list of quantifiers over a matrix. -/
def Numbering.make (binders : List (Quantifier × String)) (matrix : Formula) : Numbering :=
  let used := matrix.nameSet.toList
  let bound := (innermost binders).filter fun b => b.2 != trueName && used.contains b.2
  { bound
    usesTrue := used.contains trueName
    ids := .ofList (bound.zipIdx.map fun (b, place) => (b.2, place + 1)) }

/-- How many numbers go to bound names and the constant. -/
def Numbering.size (n : Numbering) : Nat := n.bound.length + n.usesTrue.toNat

/-- The number of a name; the constant follows the bound names. -/
def Numbering.idOf (n : Numbering) (x : String) : Nat :=
  if x = trueName then n.bound.length + 1 else n.ids.getD x 0

/-- The least name of the matrix that is neither bound nor the constant. -/
def Numbering.unbound? (n : Numbering) (matrix : Formula) : Option String :=
  matrix.nameSet.toList.find? fun x => x != trueName && !n.ids.contains x

/-! ## 3. The clause form -/

/-- The clause form of a prenex formula. -/
def toClauseForm (f : Formula) : Except Fault ClauseForm :=
  let matrix := f.matrix
  let numbering := Numbering.make f.binders matrix
  match matrix.circuit numbering.idOf with
  | .error e => .error e
  | .ok c =>
    match numbering.unbound? matrix with
    | some x => .error (.freeVariable x)
    | none =>
      let (root, d) := c.define (.empty numbering.size)
      let constant := if numbering.usesTrue then [[(numbering.idOf trueName : Int)]] else []
      let innermostIds := List.range' (numbering.bound.length + 1)
        (numbering.usesTrue.toNat + d.gates.size)
      .ok (.ofLists
        (numbering.bound.zipIdx.map (fun (b, place) => (b.1, place + 1)) ++
          innermostIds.map (Quantifier.existential, ·))
        (d.clauses ++ [root] :: constant)
        (numbering.size + d.gates.size))

end CtlTableau.Formula
