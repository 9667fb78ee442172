import CtlTableau.Closure
import Mathlib.Logic.Basic

/-!
# Normalized formulas and the expansion laws

The truth of a normalized formula follows from the truth of elementary ones: an "until" or "release"
is expanded into what holds now and a "next" formula. `Formula.HoldsBy` says so for any way in which
elementary formulas may be true, and `Formula.Within` says which elementary formulas it asks for.

Main statements: formulas without quantifiers are normal once they are normalized
(`isNormal_normalize`), negation in the syntax of a normal formula is negation in its truth
(`holdsBy_negate_iff`), and a normal formula asks for the same as its negation (`within_negate_iff`).
-/

namespace CtlTableau.Formula

/-! ## 1. Normalized formulas -/

/-- Whether a formula uses no quantifier. -/
def isTemporal : Formula → Bool
  | .atom _ => true
  | .unary _ p => p.isTemporal
  | .binary _ p q => p.isTemporal && q.isTemporal
  | .quant _ _ _ => false

theorem isTemporal_core (f : Formula) : f.core.isTemporal = f.isTemporal := by
  induction f with
  | atom x => rfl
  | unary op p ih => cases op <;> simp [core, isTemporal, ih]
  | binary op p q ihp ihq => cases op <;> simp [core, isTemporal, ihp, ihq]
  | quant k x p ih => rfl

theorem isTemporal_signed (f : Formula) (b : Bool) : (f.signed b).isTemporal = f.isTemporal := by
  induction f generalizing b with
  | atom x => cases b <;> rfl
  | unary op p ih => cases op <;> simp [signed, isTemporal, ih]
  | binary op p q ihp ihq => cases op <;> simp [signed, isTemporal, ihp, ihq]
  | quant k x p ih => rfl

/-- What the tableau works on: no quantifiers, no derived operators, negations at atoms only. -/
inductive IsNormal : Formula → Prop where
  | atom (x : String) : IsNormal (.atom x)
  | not (x : String) : IsNormal (.not (.atom x))
  | ex {p : Formula} (hp : IsNormal p) : IsNormal (.ex p)
  | ax {p : Formula} (hp : IsNormal p) : IsNormal (.ax p)
  | and {p q : Formula} (hp : IsNormal p) (hq : IsNormal q) : IsNormal (.and p q)
  | or {p q : Formula} (hp : IsNormal p) (hq : IsNormal q) : IsNormal (.or p q)
  | eu {p q : Formula} (hp : IsNormal p) (hq : IsNormal q) : IsNormal (.eu p q)
  | au {p q : Formula} (hp : IsNormal p) (hq : IsNormal q) : IsNormal (.au p q)
  | er {p q : Formula} (hp : IsNormal p) (hq : IsNormal q) : IsNormal (.er p q)
  | ar {p q : Formula} (hp : IsNormal p) (hq : IsNormal q) : IsNormal (.ar p q)

@[simp] theorem negate_ex (p : Formula) : (ex p).negate = ax p.negate := rfl
@[simp] theorem negate_ax (p : Formula) : (ax p).negate = ex p.negate := rfl
@[simp] theorem negate_and (p q : Formula) : (and p q).negate = or p.negate q.negate := rfl
@[simp] theorem negate_or (p q : Formula) : (or p q).negate = and p.negate q.negate := rfl
@[simp] theorem negate_eu (p q : Formula) : (eu p q).negate = ar p.negate q.negate := rfl
@[simp] theorem negate_au (p q : Formula) : (au p q).negate = er p.negate q.negate := rfl
@[simp] theorem negate_er (p q : Formula) : (er p q).negate = au p.negate q.negate := rfl
@[simp] theorem negate_ar (p q : Formula) : (ar p q).negate = eu p.negate q.negate := rfl

theorem IsNormal.negate {f : Formula} (h : f.IsNormal) : f.negate.IsNormal := by
  induction h with
  | atom x => exact .not x
  | not x => exact .atom x
  | ex _ ih => exact .ax ih
  | ax _ ih => exact .ex ih
  | and _ _ ihp ihq => exact .or ihp ihq
  | or _ _ ihp ihq => exact .and ihp ihq
  | eu _ _ ihp ihq => exact .ar ihp ihq
  | au _ _ ihp ihq => exact .er ihp ihq
  | er _ _ ihp ihq => exact .au ihp ihq
  | ar _ _ ihp ihq => exact .eu ihp ihq

theorem IsNormal.isTemporal {f : Formula} (h : f.IsNormal) : f.isTemporal = true := by
  induction h <;> simp_all [Formula.isTemporal]

theorem IsNormal.isNnf {f : Formula} (h : f.IsNormal) : f.isNnf = true := by
  induction h <;> simp_all [Formula.isNnf, isAtom]

/-- On normalized formulas negating twice changes nothing. -/
theorem IsNormal.negate_negate {f : Formula} (h : f.IsNormal) : f.negate.negate = f := by
  rw [Formula.negate_negate, nnf_of_isNnf h.isNnf]

/-- Normal formulas are those without derived operators and quantifiers that have negations at atoms
    only. -/
theorem isNormal_iff {f : Formula} :
    f.IsNormal ↔ f.isTemporal = true ∧ f.isCore = true ∧ f.isNnf = true := by
  constructor
  · intro h
    refine ⟨h.isTemporal, ?_, h.isNnf⟩
    induction h <;> simp_all [isCore, UnaryOp.isCore, BinaryOp.isCore]
  · intro h
    obtain ⟨temporal, core, nnf⟩ := h
    induction f with
    | atom x => exact .atom x
    | unary op p ih =>
      obtain ⟨kept, core⟩ := Bool.and_eq_true_iff.1 core
      cases op with
      | not =>
        cases p with
        | atom x => exact .not x
        | _ => cases nnf
      | ex => exact .ex (ih temporal core nnf)
      | ax => exact .ax (ih temporal core nnf)
      | _ => cases kept
    | binary op p q ihp ihq =>
      obtain ⟨tp, tq⟩ := Bool.and_eq_true_iff.1 temporal
      obtain ⟨cp, cq⟩ := Bool.and_eq_true_iff.1 (Bool.and_eq_true_iff.1 core).2
      obtain ⟨hop, np, nq⟩ := isNnf_binary_iff.1 nnf
      have hp := ihp tp cp np
      have hq := ihq tq cq nq
      cases op with
      | imp => exact absurd rfl hop
      | and => exact .and hp hq
      | or => exact .or hp hq
      | eu => exact .eu hp hq
      | au => exact .au hp hq
      | er => exact .er hp hq
      | ar => exact .ar hp hq
    | quant k x p => cases temporal

/-- The normal form of a formula without quantifiers, and that of its negation. -/
theorem isNormal_signed_core {f : Formula} (h : f.isTemporal = true) (b : Bool) :
    (f.core.signed b).IsNormal := by
  refine isNormal_iff.2 ⟨?_, ?_, isNnf_signed b f.core⟩
  · rw [isTemporal_signed, isTemporal_core, h]
  · rw [← core_signed]
    exact isCore_core (f.signed b)

theorem isNormal_normalize {f : Formula} (h : f.isTemporal = true) : f.normalize.IsNormal :=
  isNormal_signed_core h true

/-! ## 2. The expansion laws -/

/-- The truth of a normalized formula if the elementary formulas in `s` are the true ones. -/
def HoldsBy (s : Formula → Prop) : Formula → Prop
  | .atom x => x = trueName ∨ s (.atom x)
  | .unary .not p => ¬ p.HoldsBy s
  | .unary .ex p => s (.ex p)
  | .unary .ax p => ¬ s (.ex p.negate)
  | .unary _ _ => False
  | .binary .and p q => p.HoldsBy s ∧ q.HoldsBy s
  | .binary .or p q => p.HoldsBy s ∨ q.HoldsBy s
  | .binary .imp _ _ => False
  | .binary .eu p q => q.HoldsBy s ∨ p.HoldsBy s ∧ s (.ex (.eu p q))
  | .binary .au p q => q.HoldsBy s ∨ p.HoldsBy s ∧ ¬ s (.ex (.er p.negate q.negate))
  | .binary .er p q => q.HoldsBy s ∧ (p.HoldsBy s ∨ s (.ex (.er p q)))
  | .binary .ar p q => q.HoldsBy s ∧ (p.HoldsBy s ∨ ¬ s (.ex (.eu p.negate q.negate)))
  | .quant _ _ _ => False

/-- Negation in the syntax is negation in the truth, as an operator and its dual ask for the same
    "next" formula. -/
theorem holdsBy_negate_iff {f : Formula} (h : f.IsNormal) (s : Formula → Prop) :
    f.negate.HoldsBy s ↔ ¬ f.HoldsBy s := by
  induction h with
  | atom x => exact Iff.rfl
  | not x => exact not_not.symm
  | ex hp _ =>
    simp only [negate_ex, HoldsBy, hp.negate_negate]
  | ax _ _ => exact not_not.symm
  | and _ _ ihp ihq => simp only [negate_and, HoldsBy, ihp, ihq, not_and_or]
  | or _ _ ihp ihq => simp only [negate_or, HoldsBy, ihp, ihq, not_or]
  | eu hp hq ihp ihq =>
    simp only [negate_eu, HoldsBy, ihp, ihq, hp.negate_negate, hq.negate_negate, not_or, not_and_or]
  | au hp hq ihp ihq =>
    simp only [negate_au, HoldsBy, ihp, ihq, not_or, not_and_or, not_not]
  | er hp hq ihp ihq =>
    simp only [negate_er, HoldsBy, ihp, ihq, hp.negate_negate, hq.negate_negate, not_or, not_and_or]
  | ar hp hq ihp ihq =>
    simp only [negate_ar, HoldsBy, ihp, ihq, not_or, not_and_or, not_not]

/-! ## 3. What the laws ask for -/

/-- The expansion laws ask for the truth of members of `E` only. -/
def Within (E : Formula → Prop) : Formula → Prop
  | .atom x => x = trueName ∨ E (.atom x)
  | .unary .not p => p.isAtom = true ∧ p.Within E
  | .unary .ex p => E (.ex p)
  | .unary .ax p => E (.ex p.negate)
  | .unary _ _ => False
  | .binary .and p q => p.Within E ∧ q.Within E
  | .binary .or p q => p.Within E ∧ q.Within E
  | .binary .imp _ _ => False
  | .binary .eu p q => E (.ex (.eu p q)) ∧ p.Within E ∧ q.Within E
  | .binary .au p q => E (.ex (.er p.negate q.negate)) ∧ p.Within E ∧ q.Within E
  | .binary .er p q => E (.ex (.er p q)) ∧ p.Within E ∧ q.Within E
  | .binary .ar p q => E (.ex (.eu p.negate q.negate)) ∧ p.Within E ∧ q.Within E
  | .quant _ _ _ => False

/-- Only positive elementary formulas are asked for. -/
theorem Within.mono {E E' : Formula → Prop}
    (h : ∀ e, e.isPositiveElementary = true → E e → E' e) {f : Formula} (hf : f.Within E) :
    f.Within E' := by
  have hex : ∀ p, E (.ex p) → E' (.ex p) := fun p => h (.ex p) rfl
  induction f with
  | atom x =>
    by_cases e : x = trueName
    · exact Or.inl e
    · refine Or.inr (h _ ?_ (hf.resolve_left e))
      simpa [isPositiveElementary] using e
  | unary op p ih =>
    cases op with
    | not => exact ⟨hf.1, ih hf.2⟩
    | ex => exact hex _ hf
    | ax => exact hex _ hf
    | ef => exact hf.elim
    | af => exact hf.elim
    | eg => exact hf.elim
    | ag => exact hf.elim
  | binary op p q ihp ihq =>
    cases op with
    | and => exact ⟨ihp hf.1, ihq hf.2⟩
    | or => exact ⟨ihp hf.1, ihq hf.2⟩
    | imp => exact hf.elim
    | eu => exact ⟨hex _ hf.1, ihp hf.2.1, ihq hf.2.2⟩
    | au => exact ⟨hex _ hf.1, ihp hf.2.1, ihq hf.2.2⟩
    | er => exact ⟨hex _ hf.1, ihp hf.2.1, ihq hf.2.2⟩
    | ar => exact ⟨hex _ hf.1, ihp hf.2.1, ihq hf.2.2⟩
  | quant k x p ih => exact hf.elim

/-- A formula and its negation ask for the same. -/
theorem within_negate_iff {f : Formula} (h : f.IsNormal) (E : Formula → Prop) :
    f.negate.Within E ↔ f.Within E := by
  induction h with
  | atom x => simp [Within, isAtom]
  | not x => simp [Within, isAtom, nnf_atom]
  | ex hp _ => simp only [negate_ex, Within, hp.negate_negate]
  | ax _ _ => exact Iff.rfl
  | and _ _ ihp ihq => exact and_congr ihp ihq
  | or _ _ ihp ihq => exact and_congr ihp ihq
  | eu hp hq ihp ihq =>
    simp only [negate_eu, Within, ihp, ihq, hp.negate_negate, hq.negate_negate]
  | au _ _ ihp ihq => simp only [negate_au, Within, ihp, ihq]
  | er hp hq ihp ihq =>
    simp only [negate_er, Within, ihp, ihq, hp.negate_negate, hq.negate_negate]
  | ar _ _ ihp ihq => simp only [negate_ar, Within, ihp, ihq]

/-- The truth depends on what is asked for only. -/
theorem holdsBy_congr {f : Formula} {E s s' : Formula → Prop} (hf : f.Within E)
    (h : ∀ e, E e → (s e ↔ s' e)) : f.HoldsBy s ↔ f.HoldsBy s' := by
  induction f with
  | atom x =>
    refine or_congr_right' fun hx => ?_
    exact h _ (hf.resolve_left hx)
  | unary op p ih =>
    cases op with
    | not => exact not_congr (ih hf.2)
    | ex => exact h _ hf
    | ax => exact not_congr (h _ hf)
    | _ => exact hf.elim
  | binary op p q ihp ihq =>
    cases op with
    | imp => exact hf.elim
    | and => exact and_congr (ihp hf.1) (ihq hf.2)
    | or => exact or_congr (ihp hf.1) (ihq hf.2)
    | eu => exact or_congr (ihq hf.2.2) (and_congr (ihp hf.2.1) (h _ hf.1))
    | au => exact or_congr (ihq hf.2.2) (and_congr (ihp hf.2.1) (not_congr (h _ hf.1)))
    | er => exact and_congr (ihq hf.2.2) (or_congr (ihp hf.2.1) (h _ hf.1))
    | ar => exact and_congr (ihq hf.2.2) (or_congr (ihp hf.2.1) (not_congr (h _ hf.1)))
  | quant k x p ih => exact hf.elim

end CtlTableau.Formula
