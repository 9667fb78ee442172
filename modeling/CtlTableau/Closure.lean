import CtlTableau.Fault
import CtlTableau.Formula.Order
import CtlTableau.NormalForm.Negation

/-!
# Elementary closure

A formula is elementary if it is an atom other than `TRUE` or a "next" formula. The elementary
closure of a normalized formula holds what a tableau state has to decide in order to evaluate the
formula, and the negation of each: its atoms, its "next" subformulas, and for every "until" and
"release" the "next" formula that carries it to a successor. The positive half of the closure (atoms
and "some next state") is what a state records, since the other half is its negation.
-/

namespace CtlTableau.Formula

/-- A formula and its negation. -/
def withNegation (f : Formula) : List Formula := [f, f.negate]

/-- The "next" formula that carries an "until" or a "release" to a successor. -/
def carrier? : BinaryOp → Option UnaryOp
  | .eu | .er => some .ex
  | .au | .ar => some .ax
  | .and | .or | .imp => none

/-- The elementary formulas that a formula is evaluated from, with their negations. Only normalized
    formulas without quantifiers have them. -/
def elementaryList : Formula → Except Fault (List Formula)
  | .atom x => .ok (if x = trueName then [] else withNegation (.atom x))
  | .unary op p =>
    match op with
    | .not => if p.isAtom then p.elementaryList else .error (.notInNnf (.not p))
    | .ex | .ax =>
      match p.elementaryList with
      | .error e => .error e
      | .ok es => .ok (withNegation (.unary op p) ++ es)
    | _ => .error (.unsupported .elementaryClosure (.unary op p))
  | .binary op p q =>
    if op = .imp then .error (.unsupported .elementaryClosure (.imp p q))
    else
      match p.elementaryList with
      | .error e => .error e
      | .ok es =>
        match q.elementaryList with
        | .error e => .error e
        | .ok es' =>
          .ok ((match carrier? op with
            | some next => withNegation (.unary next (.binary op p q))
            | none => []) ++ (es ++ es'))
  | .quant k x p => .error (.unsupported .elementaryClosure (.quant k x p))

/-- The elementary closure. -/
def closure (f : Formula) : Except Fault (OrderedSet Formula) := f.elementaryList.map .ofList

/-- Atoms other than `TRUE`, and "some next state" formulas. -/
def isPositiveElementary : Formula → Bool
  | .atom x => x != trueName
  | .ex _ => true
  | _ => false

/-- The half of the closure that a tableau state records. -/
def positiveClosure (f : Formula) : Except Fault (OrderedSet Formula) :=
  f.closure.map (·.filter isPositiveElementary)

end CtlTableau.Formula
