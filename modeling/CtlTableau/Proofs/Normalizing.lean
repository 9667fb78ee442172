import CtlTableau.Proofs.Closure
import CtlTableau.Proofs.Matrices

/-!
# Laws of the normal forms

Moving negations down is one pass that carries a sign, so the laws of negation are laws of signs: a
second pass composes its sign with that of the first one (`signed_signed`), and where negations stand
at atoms already a positive pass has nothing to do (`nnf_of_isNnf`). Whether they do can be seen at
the nodes of a formula one by one (`isNnf_iff`).

Writing derived operators out commutes with the pass, whatever its sign (`core_signed`). So the order
of the two does not matter, and neither does what was normalized before: a tableau is made of the
normalized formula alone (`Tableau.ofFormula_congr`).

Main statements: `negation_laws` and `normalizing_orders_agree`.
-/

namespace CtlTableau

namespace Formula

/-! ## 1. Negations at atoms -/

variable {f : Formula}

/-- The nodes of a formula have negations at atoms only, if the formula does. -/
theorem isNnf_of_mem_preorder (h : f.isNnf = true) : ∀ g ∈ f.preorder, g.isNnf = true := by
  refine forall_mem_preorder (fun op p h => ?_) (fun op p q h => ?_) (fun k x p h => h) h
  · cases op with
    | not =>
      cases p with
      | atom x => rfl
      | _ => cases h
    | _ => exact h
  · exact (isNnf_binary_iff.1 h).2

/-- Every negation stands at an atom, and there is no implication. -/
theorem isNnf_iff : f.isNnf = true ↔
    (∀ p, .not p ∈ f.preorder → p.isAtom = true) ∧ ∀ p q, .imp p q ∉ f.preorder := by
  induction f with
  | atom x => simp [isNnf, preorder]
  | unary op p ih =>
    cases op with
    | not => cases p <;> simp [isNnf, isAtom, preorder]
    | _ => simpa [isNnf, preorder] using ih
  | binary op p q ihp ihq =>
    have root : (∀ r s, imp r s ≠ .binary op p q) ↔ op ≠ .imp :=
      ⟨fun h e => h p q (e ▸ rfl), fun h r s e => h (by cases e; rfl)⟩
    simp only [isNnf_binary_iff, ihp, ihq, preorder, List.mem_cons, List.mem_append, or_imp,
      forall_and, not_or, ← root, reduceCtorEq, false_or]
    tauto
  | quant k x p ih => simpa [isNnf, preorder] using ih

theorem nnf_signed (f : Formula) (b : Bool) : (f.signed b).nnf = f.signed b :=
  nnf_of_isNnf (isNnf_signed b f)

/-- **The laws of negation normal form.** A formula has the form if its negations stand at atoms and
    it has no implication. The result has it, and exactly the formulas that have it are left alone. The
    form of the negation is that of the negated formula, and it is the same whether or not the formula
    was brought to the form before; negating twice brings a formula to the form, so on formulas that
    have it negation undoes itself, and bringing a formula to the form again changes nothing. -/
theorem negation_laws (f : Formula) :
    (f.isNnf = true ↔
      (∀ p, .not p ∈ f.preorder → p.isAtom = true) ∧ ∀ p q, .imp p q ∉ f.preorder) ∧
    f.nnf.isNnf = true ∧ (f.nnf = f ↔ f.isNnf = true) ∧ f.negate = (not f).nnf ∧
    f.nnf.negate = f.negate ∧ f.negate.negate = f.nnf ∧
    (f.isNnf = true → f.negate.negate = f) ∧ f.nnf.nnf = f.nnf := by
  refine ⟨isNnf_iff, isNnf_signed true f, nnf_eq_self_iff f, rfl, signed_signed true false f,
    negate_negate f, fun h => ?_, nnf_signed f true⟩
  rw [negate_negate, nnf_of_isNnf h]

/-- It is not so that "some next p" implies that every `x` stays on some path. -/
def deniedAll : Formula :=
  .not (.imp (.ex (.atom "p")) (.all "x" (.eg (.not (.not (.atom "x"))))))

/-- The quantifier and "globally" turn into their duals, the implication goes with its negation, and
    the form is its own double negation. -/
theorem negation_laws_deniedAll :
    deniedAll.nnf = .and (.ex (.atom "p")) (.exist "x" (.af (.not (.atom "x")))) ∧
    deniedAll.nnf.negate = .or (.ax (.not (.atom "p"))) (.all "x" (.eg (.atom "x"))) ∧
    deniedAll.nnf.negate = deniedAll.negate ∧ deniedAll.nnf.isNnf = true ∧
    deniedAll.nnf.negate.negate = deniedAll.nnf := by
  obtain ⟨-, form, -, -, negate, -⟩ := negation_laws deniedAll
  obtain ⟨-, -, -, -, -, -, back, -⟩ := negation_laws deniedAll.nnf
  exact ⟨rfl, rfl, negate, form, back form⟩

/-! ## 2. Derived operators -/

theorem core_nnf (f : Formula) : f.nnf.core = f.core.nnf := core_signed f true

theorem core_negate (f : Formula) : f.negate.core = f.core.negate := core_signed f false

theorem isCore_normalize (f : Formula) : f.normalize.isCore = true := by
  rw [normalize, ← core_nnf]
  exact isCore_core f.nnf

theorem isNnf_normalize (f : Formula) : f.normalize.isNnf = true := isNnf_signed true f.core

theorem normalize_not_not (f : Formula) : (not (not f)).normalize = f.normalize := rfl

theorem normalize_nnf (f : Formula) : f.nnf.normalize = f.normalize := by
  rw [normalize, core_nnf]
  exact nnf_of_isNnf f.isNnf_normalize

theorem normalize_normalize (f : Formula) : f.normalize.normalize = f.normalize := by
  rw [normalize, (core_eq_self_iff f.normalize).2 f.isCore_normalize]
  exact nnf_of_isNnf f.isNnf_normalize

end Formula

namespace Tableau

open Formula

/-- The tableau of a formula is that of its normalized formula. -/
theorem ofFormula_congr {f g : Formula} (h : f.normalize = g.normalize) :
    ofFormula f = ofFormula g := by
  rw [ofFormula, ofFormula, h]

/-- **Derived operators are written out before or after negations move down**, for the formula and
    for its negation, and the result is left alone by both. So there is one tableau, or one fault,
    for a formula, for what it is after two negations, for its negation normal form and for its
    normalized formula. -/
theorem normalizing_orders_agree (f : Formula) :
    (f.core.nnf = f.nnf.core ∧ f.core.negate = f.negate.core) ∧
    (f.normalize.core = f.normalize ∧ f.normalize.nnf = f.normalize) ∧
    (f.core.negate.core = f.core.negate ∧ f.core.negate.nnf = f.core.negate) ∧
    (∀ g ∈ [.not (.not f), f.nnf, f.normalize],
      g.normalize = f.normalize ∧ ofFormula g = ofFormula f) ∧
    ∀ T, ofFormula f = .ok T →
      T.normalized = f.core.nnf ∧ ofFormula T.normalized = .ok T := by
  refine ⟨⟨(core_nnf f).symm, (core_negate f).symm⟩,
    ⟨(core_eq_self_iff f.normalize).2 f.isCore_normalize, nnf_of_isNnf f.isNnf_normalize⟩,
    ⟨?_, nnf_signed f.core false⟩, fun g hg => ?_, fun T hT => ?_⟩
  · rw [core_negate, core_core]
  · have same : g.normalize = f.normalize := by
      simp only [List.mem_cons, List.not_mem_nil, or_false] at hg
      rcases hg with rfl | rfl | rfl
      · exact normalize_not_not f
      · exact normalize_nnf f
      · exact normalize_normalize f
    exact ⟨same, ofFormula_congr same⟩
  · have normalized := (saturated_of_ofFormula (isTemporal_of_ofFormula hT) hT).1
    refine ⟨normalized, ?_⟩
    rw [normalized, ofFormula_congr (normalize_normalize f), hT]

/-- It is not so that "p sometime" implies that "q" is denied for ever. -/
def bothSometime : Formula := .not (.imp (.ef (.atom "p")) (.ag (.not (.atom "q"))))

/-- In one order "globally" turns into "finally" before it is written out, in the other the "release"
    that it is written as turns into the same "until". -/
theorem normalizing_orders_agree_bothSometime :
    bothSometime.nnf = .and (.ef (.atom "p")) (.ef (.atom "q")) ∧
    bothSometime.core = .not (.or (.not (.eu .truth (.atom "p")))
      (.ar .falsity (.not (.atom "q")))) ∧
    bothSometime.core.nnf = .and (.eu .truth (.atom "p")) (.eu .truth (.atom "q")) ∧
    bothSometime.core.nnf = bothSometime.nnf.core ∧
    ∃ T, ofFormula bothSometime = .ok T ∧ ofFormula bothSometime.nnf = .ok T ∧
      ofFormula T.normalized = .ok T := by
  obtain ⟨⟨orders, -⟩, -, -, sources, made⟩ := normalizing_orders_agree bothSometime
  obtain ⟨T, hT, -⟩ := exists_ofFormula (f := bothSometime) rfl
  have fromNnf := (sources bothSometime.nnf (by simp)).2
  exact ⟨rfl, rfl, rfl, orders, T, hT, fromNnf.trans hT, (made T hT).2⟩

end Tableau

end CtlTableau
