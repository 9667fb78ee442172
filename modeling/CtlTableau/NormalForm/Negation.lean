import CtlTableau.NormalForm.Derived

/-!
# Negation normal form

Every operator but negation and implication has a dual, so that a negation before it can be moved
to its arguments: "until" on some path and "release" on all paths, and so on. `Formula.nnf` moves
all negations down to atoms and writes implications out; `Formula.negate` does the same for the
negated formula. Both are one function, which carries the sign of the place it works at.

Main statements: the result has the form (`isNnf_signed`), formulas that have it are left alone
(`nnf_eq_self_iff`), and on them negating twice changes nothing (`negate_negate`). Derived operators
may be written out before or after (`core_signed`).
-/

namespace CtlTableau

/-! ## 1. Duals -/

/-- The operator that negation turns an operator into; negation itself stays. -/
def UnaryOp.dual : UnaryOp → UnaryOp
  | .not => .not
  | .ex => .ax
  | .ax => .ex
  | .ef => .ag
  | .ag => .ef
  | .af => .eg
  | .eg => .af

/-- The operator that negation turns an operator into; implication stays. -/
def BinaryOp.dual : BinaryOp → BinaryOp
  | .and => .or
  | .or => .and
  | .imp => .imp
  | .eu => .ar
  | .ar => .eu
  | .au => .er
  | .er => .au

/-- The dual of the operators that have one: all but negation. -/
def UnaryOp.dual? (op : UnaryOp) : Option UnaryOp := if op = .not then none else some op.dual

/-- The dual of the operators that have one: all but implication. -/
def BinaryOp.dual? (op : BinaryOp) : Option BinaryOp := if op = .imp then none else some op.dual

@[simp] theorem UnaryOp.dual_dual (op : UnaryOp) : op.dual.dual = op := by cases op <;> rfl

@[simp] theorem BinaryOp.dual_dual (op : BinaryOp) : op.dual.dual = op := by cases op <;> rfl

namespace Formula

/-! ## 2. Moving negations down -/

/-- The form of a formula (`positive`) or of its negation, with negations at atoms only. -/
def signed (positive : Bool) : Formula → Formula
  | .atom x => if positive then .atom x else .not (.atom x)
  | .unary .not p => p.signed (!positive)
  | .unary op p => .unary (if positive then op else op.dual) (p.signed positive)
  | .binary .imp p q =>
    .binary (if positive then .or else .and) (p.signed (!positive)) (q.signed positive)
  | .binary op p q =>
    .binary (if positive then op else op.dual) (p.signed positive) (q.signed positive)
  | .quant k x p => .quant (if positive then k else k.dual) x (p.signed positive)

/-- Negation normal form. -/
def nnf (f : Formula) : Formula := f.signed true

/-- Negation normal form of the negation. -/
def negate (f : Formula) : Formula := f.signed false

/-- Whether negations stand at atoms only and no implication occurs. -/
def isNnf : Formula → Bool
  | .atom _ => true
  | .unary .not p => p.isAtom
  | .unary _ p => p.isNnf
  | .binary .imp _ _ => false
  | .binary _ p q => p.isNnf && q.isNnf
  | .quant _ _ p => p.isNnf

/-- The form that the tableau works on: no derived operators, negations at atoms. -/
def normalize (f : Formula) : Formula := f.core.nnf

/-! ## 3. Laws -/

@[simp] theorem nnf_atom (x : String) : (atom x).nnf = .atom x := rfl
@[simp] theorem negate_atom (x : String) : (atom x).negate = .not (.atom x) := rfl
@[simp] theorem nnf_not (p : Formula) : (not p).nnf = p.negate := rfl
@[simp] theorem negate_not (p : Formula) : (not p).negate = p.nnf := rfl

theorem isNnf_signed (b : Bool) (f : Formula) : (f.signed b).isNnf = true := by
  induction f generalizing b with
  | atom x => cases b <;> rfl
  | unary op p ih => cases op <;> cases b <;> simp [signed, isNnf, UnaryOp.dual, ih]
  | binary op p q ihp ihq =>
    cases op <;> cases b <;> simp [signed, isNnf, BinaryOp.dual, ihp, ihq]
  | quant k x p ih => cases b <;> simp [signed, isNnf, ih]

theorem isNnf_binary_iff {op : BinaryOp} {p q : Formula} :
    (binary op p q).isNnf = true ↔ op ≠ .imp ∧ p.isNnf = true ∧ q.isNnf = true := by
  cases op <;> simp [isNnf]

/-- A formula in the form is left alone. -/
theorem nnf_of_isNnf {f : Formula} (h : f.isNnf = true) : f.nnf = f := by
  unfold nnf
  induction f with
  | atom x => rfl
  | unary op p ih =>
    cases op with
    | not => cases p <;> simp_all [isNnf, isAtom, signed]
    | _ => simp_all [isNnf, signed]
  | binary op p q ihp ihq => cases op <;> simp_all [isNnf, signed]
  | quant k x p ih => simp_all [isNnf, signed]

theorem nnf_eq_self_iff (f : Formula) : f.nnf = f ↔ f.isNnf = true :=
  ⟨fun h => h ▸ isNnf_signed true f, nnf_of_isNnf⟩

/-- Working on a formula that was worked on before composes the signs. -/
theorem signed_signed (a b : Bool) (f : Formula) : (f.signed a).signed b = f.signed (a == b) := by
  induction f generalizing a b with
  | atom x => cases a <;> cases b <;> rfl
  | unary op p ih =>
    cases op <;> cases a <;> cases b <;> simp [signed, UnaryOp.dual, ih]
  | binary op p q ihp ihq =>
    cases op <;> cases a <;> cases b <;> simp [signed, BinaryOp.dual, ihp, ihq]
  | quant k x p ih => cases a <;> cases b <;> simp [signed, ih]

theorem negate_negate (f : Formula) : f.negate.negate = f.nnf := signed_signed false false f

/-- Writing derived operators out commutes with moving negations down. -/
theorem core_signed (f : Formula) (b : Bool) : (f.signed b).core = f.core.signed b := by
  -- "finally" and "globally" are each other's dual, and so are what they are written as: the left
  -- arguments `TRUE` and `~TRUE` of these are each other's negation
  induction f generalizing b with
  | atom x => cases b <;> rfl
  | unary op p ih =>
    cases op <;> cases b <;> simp [signed, core, UnaryOp.dual, BinaryOp.dual, ih]
  | binary op p q ihp ihq =>
    cases op <;> cases b <;> simp [signed, core, BinaryOp.dual, ihp, ihq]
  | quant k x p ih => cases b <;> simp [signed, core, ih]

end Formula

end CtlTableau
