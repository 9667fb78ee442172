import CtlTableau.Formula

/-!
# Printing formulas

A formula is written with as few brackets as its tree allows. Three infix connectives bind with
growing strength, `->` to the right, `|` and `&` to the left; `~` binds tightest; every other
operator is written as a call. A bracket appears only around an infix connective that is weaker
than its place demands.

`Formula.text` is the concrete syntax, `Formula.outline` the constructor tree on one line.
-/

namespace CtlTableau

/-! ## 1. Strength of infix connectives -/

/-- How an infix connective binds: its own strength, and the least strength its arguments need to
    stand without brackets. -/
structure Fixity where
  own : Nat
  left : Nat
  right : Nat
  deriving DecidableEq, Repr

/-- The strength that the argument of `~` needs: more than any infix connective has. -/
def tightest : Nat := 4

/-- The infix connectives. `->` groups to the right, `|` and `&` to the left. -/
def BinaryOp.fixity? : BinaryOp → Option Fixity
  | .imp => some ⟨1, 2, 1⟩
  | .or => some ⟨2, 2, 3⟩
  | .and => some ⟨3, 3, 4⟩
  | _ => none

namespace Formula

/-! ## 2. Concrete syntax -/

/-- Brackets a text if asked to. -/
def bracketIf (b : Bool) (s : String) : String := if b then "(" ++ s ++ ")" else s

/-- Writes a formula at a place that needs the given strength. -/
def textAt (strength : Nat) : Formula → String
  | .atom x => x
  | .unary .not p => "~" ++ p.textAt tightest
  | .unary op p => op.symbol ++ "(" ++ p.textAt 0 ++ ")"
  | .binary op p q =>
    match op.fixity? with
    | some fix => bracketIf (fix.own < strength)
        (p.textAt fix.left ++ " " ++ op.symbol ++ " " ++ q.textAt fix.right)
    | none => op.symbol ++ "(" ++ p.textAt 0 ++ ", " ++ q.textAt 0 ++ ")"
  | .quant k x p => k.symbol ++ "(" ++ x ++ ", " ++ p.textAt 0 ++ ")"

/-- The concrete syntax of a formula. -/
def text (f : Formula) : String := f.textAt 0

instance : ToString Formula := ⟨text⟩

/-- The texts of several formulas, separated by commas. -/
def texts (fs : List Formula) : String := ", ".intercalate (fs.map text)

end Formula

end CtlTableau
