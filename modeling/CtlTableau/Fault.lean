import CtlTableau.Formula.Printer
import CtlTableau.Text.Quoted

/-!
# Faults

Everything that can go wrong, by its cause. The wording is decided here and nowhere else:
`ParseFault.message`, `SolverFault.message` and `Fault.message` turn a cause into the line that a
user sees.
-/

namespace CtlTableau

open Text

/-! ## 1. Reading -/

/-- Why a text is not a formula. -/
inductive ParseFault where
  /-- No token starts at this byte of the input. -/
  | unrecognized (found : Char) (position : Nat)
  /-- A formula should start where the input ends. -/
  | unexpectedEnd
  /-- No formula starts with this token. -/
  | unexpectedToken (found : String)
  /-- A fixed symbol is missing; `none` stands for the end of the input. -/
  | expected (symbol : String) (found : Option String)
  /-- An operator is not followed by its arguments. -/
  | unbracketed (keyword : String)
  /-- An operator has arguments that it does not take. -/
  | badArguments (keyword : String) (args : List Formula)
  /-- A formula was read, and more follows. -/
  | unread (rest : List String)
  /-- A token should be where the input ends. -/
  | noToken
  deriving DecidableEq, Repr

/-- The wording of a fault in reading. -/
def ParseFault.message : ParseFault → String
  | .unrecognized c n => s!"unrecognized character {quotedChar c} at position {n}"
  | .unexpectedEnd => "unexpected end of input"
  | .unexpectedToken t => s!"unexpected token {quoted t}"
  | .expected sym (some t) => s!"expected {quoted sym}, found {quoted t}"
  | .expected sym none => s!"expected {quoted sym}, found end of input"
  | .unbracketed kw => s!"operator {kw} must be followed by '('"
  | .badArguments kw args => s!"bad arguments to {kw}: {Formula.texts args}"
  | .unread rest => s!"unparsed input {quotedList rest}"
  | .noToken => "got empty input"

/-! ## 2. Deciding -/

/-- Why a solver gave no verdict. -/
inductive SolverFault where
  /-- The command could not be started. -/
  | notStarted (command reason : String)
  /-- It ended with an exit code that is no verdict. -/
  | exited (command : String) (code : Nat)
  /-- A signal ended it. -/
  | killed (command : String)
  /-- The solver says so itself. -/
  | reported (text : String)
  deriving DecidableEq, Repr

/-- The wording of a solver's fault. -/
def SolverFault.message : SolverFault → String
  | .notStarted command reason => s!"failed to start {command}: {reason}"
  | .exited command code => s!"{command} exited with status {code}"
  | .killed command => s!"{command} was terminated by a signal"
  | .reported text => text

/-- The places that take only some operators. -/
inductive Place where
  | prenexForm | elementaryClosure | tableauState | booleanFormula
  deriving DecidableEq, Repr

/-- What a place says about a formula whose root it does not take. -/
def Place.refusal : Place → Formula → String
  | .prenexForm, f => s!"cannot convert {f.text} to prenex form"
  | .elementaryClosure, f@(.quant _ _ _) => s!"quantifiers have no elementary closure: {f.text}"
  | .elementaryClosure, f => s!"no elementary closure for {f.text}"
  | .tableauState, f => s!"cannot evaluate {f.text} in a symbolic state"
  | .booleanFormula, _ => "not a quantified boolean formula"

/-! ## 3. All faults -/

/-- Why an operation gave no result. -/
inductive Fault where
  | parse (cause : ParseFault)
  /-- A negation stands over something else than an atom. -/
  | notInNnf (found : Formula)
  /-- A place does not take the operator at the root of this formula. -/
  | unsupported (place : Place) (found : Formula)
  /-- A state has no variable for this formula. -/
  | notInClosure (found : Formula)
  /-- A node of a clausal matrix is no connective. -/
  | notPropositional (found : Formula)
  /-- A formula to be decided depends on this name. -/
  | freeVariable (name : String)
  /-- A formula to be decided has these free names and is not constant in them. -/
  | freeVariables (names : List String)
  /-- A clause form to be decided depends on a variable outside its prefix. -/
  | unboundVariable
  /-- No state can have this name. -/
  | invalidStateName (name : String)
  /-- This operator has no neutral element to join an empty list with. -/
  | unsupportedJoin (op : BinaryOp)
  | solver (cause : SolverFault)
  /-- The query was called off. -/
  | cancelled
  /-- The system refused to read or write. -/
  | system (reason : String)
  deriving DecidableEq, Repr

namespace Fault

/-- The wording of a fault. -/
def message : Fault → String
  | .parse cause => "parse error: " ++ cause.message
  | .notInNnf f => "expected a formula in negation normal form, found " ++ f.text
  | .unsupported place f =>
    s!"operator {f.operator.label} is not supported here: {place.refusal f}"
  | .notInClosure f => f.text ++ " is not in the elementary closure of the state"
  | .notPropositional f => "expected a quantifier-free propositional body, found " ++ f.text
  | .freeVariable x => freeText x
  | .freeVariables xs => freeText (", ".intercalate xs)
  | .unboundVariable => freeText "an unbound clause variable"
  | .invalidStateName name =>
    s!"invalid state prefix {quoted name}: must be non-empty and must not contain '_'"
  | .unsupportedJoin op => "cannot join terms with " ++ op.label
  | .solver cause => "QBF solver fault: " ++ cause.message
  | .cancelled => "query cancelled"
  | .system reason => "I/O error: " ++ reason
where
  freeText (what : String) : String :=
    s!"variable {what} is free in a formula sent to the QBF encoder"

/-- Whether the fault is that the query was called off. -/
def isCancelled : Fault → Bool
  | .cancelled => true
  | _ => false

@[simp] theorem isCancelled_iff (e : Fault) : e.isCancelled = true ↔ e = .cancelled := by
  cases e <;> simp [isCancelled]

end Fault

end CtlTableau
