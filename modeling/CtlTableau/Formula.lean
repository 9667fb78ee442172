/-!
# Formulas

Branching-time formulas over named atoms, extended by quantifiers over boolean variables. One type
serves both readings: a temporal formula uses no quantifier, a quantified boolean formula uses no
path operator, and the tableau turns questions about the first kind into formulas of the second.

The atom `TRUE` is the constant truth, and falsity is written `~TRUE`; nothing else is reserved.
-/

namespace CtlTableau

/-! ## 1. Operators -/

/-- Operators with one argument: negation, and the path operators "next", "finally" and
    "globally" on some path (`e`) or on all paths (`a`). -/
inductive UnaryOp where
  | not | ex | ax | ef | af | eg | ag
  deriving DecidableEq, Repr

/-- Operators with two arguments: the connectives, and "until" and "release" on some path or on
    all paths. -/
inductive BinaryOp where
  | and | or | imp | eu | au | er | ar
  deriving DecidableEq, Repr

/-- Quantifiers over a boolean variable. -/
inductive Quantifier where
  | existential | universal
  deriving DecidableEq, Repr

/-- A formula. Names are arbitrary strings; the grammar admits fewer (`Formula.Printable`). -/
inductive Formula where
  | atom (name : String)
  | unary (op : UnaryOp) (body : Formula)
  | binary (op : BinaryOp) (left right : Formula)
  | quant (kind : Quantifier) (name : String) (body : Formula)
  deriving DecidableEq, Repr

/-- The operator at a node, over all arities. -/
inductive Operator where
  | quantifier (kind : Quantifier)
  | unary (op : UnaryOp)
  | binary (op : BinaryOp)
  | variable
  deriving DecidableEq, Repr

/-- The other quantifier. -/
def Quantifier.dual : Quantifier → Quantifier
  | .existential => .universal
  | .universal => .existential

@[simp] theorem Quantifier.dual_dual (k : Quantifier) : k.dual.dual = k := by cases k <;> rfl

/-! ## 2. Names of operators

`symbol` is the spelling in formulas, `label` the spelling in messages. -/

namespace UnaryOp

/-- The spelling in formulas. -/
def symbol : UnaryOp → String
  | .not => "~"
  | .ex => "EX"
  | .ax => "AX"
  | .ef => "EF"
  | .af => "AF"
  | .eg => "EG"
  | .ag => "AG"

/-- The spelling in messages: negation has a word, the path operators keep their symbol. -/
def label : UnaryOp → String
  | .not => "Not"
  | op => op.symbol

end UnaryOp

namespace BinaryOp

/-- The spelling in formulas. -/
def symbol : BinaryOp → String
  | .and => "&"
  | .or => "|"
  | .imp => "->"
  | .eu => "EU"
  | .au => "AU"
  | .er => "ER"
  | .ar => "AR"

/-- The spelling in messages: connectives have a word, the path operators keep their symbol. -/
def label : BinaryOp → String
  | .and => "And"
  | .or => "Or"
  | .imp => "Implies"
  | op => op.symbol

end BinaryOp

namespace Quantifier

/-- The spelling in formulas. -/
def symbol : Quantifier → String
  | .existential => "E"
  | .universal => "A"

/-- The spelling in messages. -/
def label : Quantifier → String
  | .existential => "Exists"
  | .universal => "All"

end Quantifier

/-- The spelling in messages. -/
def Operator.label : Operator → String
  | .quantifier kind => kind.label
  | .unary op => op.label
  | .binary op => op.label
  | .variable => "Var"

namespace Formula

/-! ## 3. Builders -/

@[match_pattern] abbrev not (p : Formula) : Formula := .unary .not p
@[match_pattern] abbrev ex (p : Formula) : Formula := .unary .ex p
@[match_pattern] abbrev ax (p : Formula) : Formula := .unary .ax p
@[match_pattern] abbrev ef (p : Formula) : Formula := .unary .ef p
@[match_pattern] abbrev af (p : Formula) : Formula := .unary .af p
@[match_pattern] abbrev eg (p : Formula) : Formula := .unary .eg p
@[match_pattern] abbrev ag (p : Formula) : Formula := .unary .ag p
@[match_pattern] abbrev and (p q : Formula) : Formula := .binary .and p q
@[match_pattern] abbrev or (p q : Formula) : Formula := .binary .or p q
@[match_pattern] abbrev imp (p q : Formula) : Formula := .binary .imp p q
@[match_pattern] abbrev eu (p q : Formula) : Formula := .binary .eu p q
@[match_pattern] abbrev au (p q : Formula) : Formula := .binary .au p q
@[match_pattern] abbrev er (p q : Formula) : Formula := .binary .er p q
@[match_pattern] abbrev ar (p q : Formula) : Formula := .binary .ar p q
@[match_pattern] abbrev exist (x : String) (p : Formula) : Formula := .quant .existential x p
@[match_pattern] abbrev all (x : String) (p : Formula) : Formula := .quant .universal x p

/-- The name of the constant atom. -/
abbrev trueName : String := "TRUE"

/-- Truth. -/
abbrev truth : Formula := .atom trueName

/-- Falsity is the negation of truth; it has no node of its own. -/
abbrev falsity : Formula := .not truth

instance : Inhabited Formula := ⟨truth⟩

/-! ## 4. The root of a formula -/

/-- The operator at the root; an atom counts as a variable. -/
def operator : Formula → Operator
  | .atom _ => .variable
  | .unary op _ => .unary op
  | .binary op _ _ => .binary op
  | .quant kind _ _ => .quantifier kind

/-- The name at the root: an atom's own, or the one a quantifier binds. -/
def name? : Formula → Option String
  | .atom name => some name
  | .quant _ name _ => some name
  | _ => none

/-- The first argument. -/
def left? : Formula → Option Formula
  | .atom _ => none
  | .unary _ p => some p
  | .binary _ p _ => some p
  | .quant _ _ p => some p

/-- The second argument. -/
def right? : Formula → Option Formula
  | .binary _ _ q => some q
  | _ => none

/-- Whether the formula is the constant. -/
def isTrue : Formula → Bool
  | .atom name => name == trueName
  | _ => false

@[simp] theorem isTrue_iff (f : Formula) : f.isTrue = true ↔ f = truth := by
  cases f <;> simp [isTrue]

/-- Whether the root is a negation. -/
def isNegation : Formula → Bool
  | .not _ => true
  | _ => false

/-- Whether the formula is an atom, the constant included. -/
def isAtom : Formula → Bool
  | .atom _ => true
  | _ => false

/-! ## 5. Size and joining -/

/-- The number of nodes. -/
def size : Formula → Nat
  | .atom _ => 1
  | .unary _ p => 1 + p.size
  | .binary _ p q => 1 + p.size + q.size
  | .quant _ _ p => 1 + p.size

theorem size_pos (f : Formula) : 0 < f.size := by cases f <;> simp only [size] <;> omega

/-- Joins a list from the left under a connective; `unit` stands for the empty list. -/
def joinLeft (op : BinaryOp) (unit : Formula) : List Formula → Formula
  | [] => unit
  | first :: rest => rest.foldl (.binary op) first

/-- The conjunction of a list, `TRUE` if it is empty. -/
def conj (fs : List Formula) : Formula := joinLeft .and truth fs

/-- The disjunction of a list, `~TRUE` if it is empty. -/
def disj (fs : List Formula) : Formula := joinLeft .or falsity fs

/-- Joins a list under any operator that has a neutral element: these are conjunction and
    disjunction. -/
def join? : BinaryOp → List Formula → Option Formula
  | .and, fs => some (conj fs)
  | .or, fs => some (disj fs)
  | _, _ => none

theorem join?_eq_none_iff (op : BinaryOp) (fs : List Formula) :
    join? op fs = none ↔ op ≠ .and ∧ op ≠ .or := by
  cases op <;> simp [join?]

end Formula

end CtlTableau
