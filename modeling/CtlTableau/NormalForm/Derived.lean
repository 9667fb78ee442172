import CtlTableau.Formula

/-!
# Derived operators

Implication and the operators "finally" and "globally" are abbreviations: `p -> q` is `~p | q`,
"finally" is "until" with `TRUE` on the left, "globally" is "release" with `~TRUE` on the left.
`Formula.core` writes them out; the result uses none of them (`isCore_core`), and a formula that
uses none is left alone (`core_eq_self_iff`).
-/

namespace CtlTableau

/-- The operators that `core` keeps. -/
def UnaryOp.isCore : UnaryOp → Bool
  | .not | .ex | .ax => true
  | .ef | .af | .eg | .ag => false

/-- The operators that `core` keeps. -/
def BinaryOp.isCore : BinaryOp → Bool
  | .imp => false
  | _ => true

namespace Formula

/-- Writes derived operators out. -/
def core : Formula → Formula
  | .atom x => .atom x
  | .unary .ef p => .eu truth p.core
  | .unary .af p => .au truth p.core
  | .unary .eg p => .er falsity p.core
  | .unary .ag p => .ar falsity p.core
  | .unary op p => .unary op p.core
  | .binary .imp p q => .or (.not p.core) q.core
  | .binary op p q => .binary op p.core q.core
  | .quant k x p => .quant k x p.core

/-- Whether a formula uses no derived operator. -/
def isCore : Formula → Bool
  | .atom _ => true
  | .unary op p => op.isCore && p.isCore
  | .binary op p q => op.isCore && (p.isCore && q.isCore)
  | .quant _ _ p => p.isCore

theorem isCore_core (f : Formula) : f.core.isCore = true := by
  induction f with
  | atom x => rfl
  | unary op p ih => cases op <;> simp [core, isCore, UnaryOp.isCore, BinaryOp.isCore, ih]
  | binary op p q ihp ihq =>
    cases op <;> simp [core, isCore, UnaryOp.isCore, BinaryOp.isCore, ihp, ihq]
  | quant k x p ih => simpa [core, isCore] using ih

/-- Exactly the formulas without derived operators are left alone. -/
theorem core_eq_self_iff (f : Formula) : f.core = f ↔ f.isCore = true := by
  refine ⟨fun h => h ▸ isCore_core f, fun h => ?_⟩
  induction f with
  | atom x => rfl
  | unary op p ih =>
    simp only [isCore, Bool.and_eq_true] at h
    cases op <;> simp_all [core, UnaryOp.isCore]
  | binary op p q ihp ihq =>
    simp only [isCore, Bool.and_eq_true] at h
    cases op <;> simp_all [core, BinaryOp.isCore]
  | quant k x p ih => simp [core, ih h]

@[simp] theorem core_core (f : Formula) : f.core.core = f.core :=
  (core_eq_self_iff f.core).2 (isCore_core f)

end Formula

end CtlTableau
