import CtlTableau.Proofs.Branching
import CtlTableau.Proofs.NormalForms

/-!
# What normal forms mean

Writing derived operators out and moving negations down are rewritings of the syntax. What they keep
is the truth: of formulas of branching time at every state of every Kripke structure, of boolean
formulas under every valuation (`normal_forms_keep_truth`). For both kinds one induction over both
signs carries the argument, as the form of a formula and that of its negation ask for one another
(`holds_signed_iff`, `eval_signed`).
-/

namespace CtlTableau.Formula

universe u

/-- **Normal forms keep the truth, and the form of the negation denies it.** For formulas of
    branching time this is the truth at a state, for boolean formulas the truth under a valuation of
    their free names, which stay the same. -/
theorem normal_forms_keep_truth (f : Formula) :
    (f.isTemporal = true → ∀ (K : Kripke.{u}) (m : K.State),
      (K.Holds f.core m ↔ K.Holds f m) ∧ (K.Holds f.nnf m ↔ K.Holds f m) ∧
      (K.Holds f.negate m ↔ ¬ K.Holds f m)) ∧
    (f.isBoolean = true →
      (∀ ρ, f.nnf.eval ρ = f.eval ρ ∧ f.negate.eval ρ = !f.eval ρ) ∧
      f.nnf.freeNames = f.freeNames ∧ f.negate.freeNames = f.freeNames) := by
  constructor
  · intro hf K m
    have nnf : K.Holds f.nnf m ↔ K.Holds f m := by
      rw [Formula.nnf, Kripke.holds_signed_iff hf]
      exact ⟨fun h => h.1 rfl, fun h => ⟨fun _ => h, fun _ => rfl⟩⟩
    exact ⟨Kripke.holds_core_iff hf m, nnf, Kripke.holds_negate_iff hf m⟩
  · intro hf
    refine ⟨fun ρ => ⟨?_, ?_⟩, (names_signed f true).2.1, (names_signed f false).2.1⟩
    · rw [nnf, eval_signed hf]
      cases f.eval ρ <;> rfl
    · rw [negate, eval_signed hf]
      cases f.eval ρ <;> rfl

/-- Two states that follow each other; `p` is true at one of them. -/
def blinking : Kripke.{0} where
  State := Bool
  next m m' := m' = !m
  total m := ⟨!m, rfl⟩
  label m x := x = "p" ∧ m = true

/-- Where `p` blinks, it does not stay; and it is not so that all values imply a false one. -/
theorem normal_forms_keep_truth_blinking :
    blinking.Holds (.or (.not (.atom "p")) (.af (.not (.atom "p")))) true ∧
    ¬ blinking.Holds (.and (.atom "p") (.eg (.atom "p"))) true ∧
    (Formula.exist "x" (.and (.atom "x") (.not (.atom "y")))).eval (fun _ => false) = true := by
  obtain ⟨temporal, -⟩ := normal_forms_keep_truth (.imp (.atom "p") (.not (.eg (.atom "p"))))
  obtain ⟨-, nnf, negate⟩ := temporal rfl blinking true
  have holds : blinking.Holds (.imp (.atom "p") (.not (.eg (.atom "p")))) true := by
    rintro _ ⟨π, hπ, always⟩
    have second : π 1 = false := by
      have h := hπ.step 0
      rw [hπ.start] at h
      exact h
    rcases always 1 with h | ⟨-, h⟩
    · exact absurd h (by decide)
    · rw [second] at h
      cases h
  obtain ⟨-, boolean⟩ := normal_forms_keep_truth.{0}
    (.not (.all "x" (.imp (.atom "x") (.atom "y"))))
  exact ⟨nnf.2 holds, fun h => negate.1 h holds, ((boolean rfl).1 _).1⟩

end CtlTableau.Formula
