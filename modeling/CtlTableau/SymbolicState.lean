import CtlTableau.Closure
import CtlTableau.Formula.Names

/-!
# Symbolic tableau states

A tableau state is an assignment to boolean variables, one for each positive elementary formula. The
variables of a state are its stem, an underscore and the number of the elementary formula; a stem
without underscores keeps the variables of different states apart.

`value` extends such an assignment to every formula of the closure: it writes the formula's truth as
a propositional formula over the variables, by the expansion laws of the path operators. Every
"until" and "release" is expanded into what holds now and a "next" formula, which has a variable of
its own or is the negation of one that has.
-/

namespace CtlTableau

/-- A family of boolean variables for the members of a set. -/
structure SymbolicState where
  /-- What the variable names begin with. -/
  stem : String
  /-- The formulas that the variables stand for. -/
  elementary : OrderedSet Formula
  /-- The underscore before the number is the only one in a variable's name. -/
  stem_valid : stem ≠ "" ∧ '_' ∉ stem.toList

namespace SymbolicState

/-! ## 1. Variables -/

/-- A state with the given stem, if the stem is fit. -/
def make (elementary : OrderedSet Formula) (stem : String) : Except Fault SymbolicState :=
  if h : stem ≠ "" ∧ '_' ∉ stem.toList then .ok ⟨stem, elementary, h⟩
  else .error (.invalidStateName stem)

/-- The variable with a number. -/
def varName (stem : String) (index : Nat) : String := stem ++ "_" ++ toString index

/-- The variables in the order of the formulas they stand for. -/
def names (s : SymbolicState) : List String :=
  (List.range s.elementary.toList.length).map (varName s.stem)

/-- The variables with the formulas they stand for. -/
def table (s : SymbolicState) : List (String × Formula) := s.names.zip s.elementary.toList

/-- Whether a name is one of the variables. -/
def owns (s : SymbolicState) (name : String) : Bool := s.names.contains name

/-- The variable that stands for a formula. -/
def nameOf (s : SymbolicState) (f : Formula) : Except Fault String :=
  match s.elementary.toList.findIdx? (· == f) with
  | some index => .ok (varName s.stem index)
  | none => .error (.notInClosure f)

/-- The variable that stands for a formula, as an atom. -/
def atomOf (s : SymbolicState) (f : Formula) : Except Fault Formula := (s.nameOf f).map .atom

/-! ## 2. Truth of a formula in the state -/

/-- The truth of a normalized formula in the state, as a propositional formula over the state's
    variables. -/
def value (s : SymbolicState) : Formula → Except Fault Formula
  | .atom x => if x = Formula.trueName then .ok .truth else s.atomOf (.atom x)
  | .unary .not p =>
    match p with
    | .atom x => if x = Formula.trueName then .ok .falsity else (s.atomOf (.atom x)).map .not
    | _ => .error (.notInNnf (.not p))
  | .unary .ex p => s.atomOf (.ex p)
  | .unary .ax p => (s.atomOf (.ex p.negate)).map .not
  | .unary op p => .error (.unsupported .tableauState (.unary op p))
  | .binary .and p q => do return .and (← s.value p) (← s.value q)
  | .binary .or p q => do return .or (← s.value p) (← s.value q)
  | .binary .imp p q => .error (.unsupported .tableauState (.imp p q))
  | .binary .eu p q => do
    -- q, or p and some successor with the same "until"
    let next ← s.atomOf (.ex (.eu p q))
    let now ← s.value q
    return .or now (.and (← s.value p) next)
  | .binary .au p q => do
    -- q, or p and no successor that releases the negations
    let escape ← s.atomOf (.ex (.er p.negate q.negate))
    let now ← s.value q
    return .or now (.and (← s.value p) (.not escape))
  | .binary .er p q => do
    -- q, and p or some successor with the same "release"
    let next ← s.atomOf (.ex (.er p q))
    let now ← s.value q
    return .and now (.or (← s.value p) next)
  | .binary .ar p q => do
    -- q, and p or no successor on the way to the negations
    let escape ← s.atomOf (.ex (.eu p.negate q.negate))
    let now ← s.value q
    return .and now (.or (← s.value p) (.not escape))
  | .quant k x p => .error (.unsupported .tableauState (.quant k x p))

/-! ## 3. Moving between states, and quantifying -/

/-- The name in one state of the formula that a name stands for in another. Names of no variable
    stay. -/
def transferName (table : List (String × Formula)) (target : SymbolicState) (x : String) :
    Except Fault String :=
  match table.lookup x with
  | some f => target.nameOf f
  | none => .ok x

/-- Rewrites a formula by a table of variables. -/
def transferBy (table : List (String × Formula)) (target : SymbolicState) :
    Formula → Except Fault Formula
  | .atom x => (transferName table target x).map .atom
  | .unary op p => (transferBy table target p).map (.unary op)
  | .binary op p q => do
    return .binary op (← transferBy table target p) (← transferBy table target q)
  | .quant k x p => do
    return .quant k (← transferName table target x) (← transferBy table target p)

/-- Rewrites a formula over the variables of one state to speak of another. -/
def transfer (source target : SymbolicState) (f : Formula) : Except Fault Formula :=
  transferBy source.table target f

/-- Quantifies over all variables of the state, the first one outermost. -/
def quantify (s : SymbolicState) (kind : Quantifier) (f : Formula) : Formula :=
  .bindAll (s.names.map (kind, ·)) f

/-! ## 4. Successors -/

/-- The members that promise a successor, with what they promise of it. -/
def promises (elementary : OrderedSet Formula) : List Formula :=
  elementary.toList.filterMap fun
    | .ex g => some g
    | _ => none

/-- That one state may follow another: it satisfies nothing that the other denies to all its
    successors. -/
def transition (elementary : OrderedSet Formula) (source target : SymbolicState) :
    Except Fault Formula := do
  let terms ← (promises elementary).mapM fun g => do
    return .or (← source.value (.ex g)) (.not (← target.value g))
  return .conj terms

end SymbolicState

end CtlTableau
