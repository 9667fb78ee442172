import CtlTableau.Formula
import CtlTableau.Text.Quoted

/-!
# The constructor tree as text

`Formula.outline` names every node by its arity and operator and quotes the names: it shows what
concrete syntax hides, such as names that are no identifiers.
-/

namespace CtlTableau.Formula

/-- The constructor tree on one line. -/
def outline : Formula → String
  | .atom x => s!"Atom({Text.quoted x})"
  | .unary op p => s!"Unary({op.label}, {p.outline})"
  | .binary op p q => s!"Binary({op.label}, {p.outline}, {q.outline})"
  | .quant k x p => s!"Quantified({k.label}, {Text.quoted x}, {p.outline})"

end CtlTableau.Formula
