import CtlTableau.Proofs.Matrices
import CtlTableau.Proofs.Meaning
import CtlTableau.Proofs.Simulation

/-!
# The value of a formula encodes its truth

The value of a formula in a tableau state is a boolean formula over the state's variables. Where
these have the truth that the elementary formulas have at a state of a Kripke structure, it is as
true as the formula is there. It is so for all that a run asks the value of: the formula that the
elementary ones were collected from, its subformulas and what its members promise of a successor,
each with its negation. All of them ask for members only (`within_of_mem_preorder`), and the
expansion laws that values are written by hold at the states of a Kripke structure.

Main statement: `value_encodes`.
-/

namespace CtlTableau

universe u

/-! ## 1. Subformulas -/

namespace Formula

/-- The subformulas of a normal formula are normal and ask for members only, if the formula does and
    the members keep their promises: below "next" it is a promise that answers. -/
theorem within_of_mem_preorder {E : Formula → Prop} (keeps : KeepsPromises E) {f g : Formula}
    (hf : f.IsNormal) (hw : f.Within E) (hg : g ∈ f.preorder) : g.IsNormal ∧ g.Within E := by
  refine forall_mem_preorder (P := fun g => g.IsNormal ∧ g.Within E) (fun op p h => ?_)
    (fun op p q h => ?_) (fun k x p h => ?_) ⟨hf, hw⟩ g hg
  · obtain ⟨normal, within⟩ := h
    cases normal with
    | not x => exact ⟨.atom x, within.2⟩
    | ex hp => exact ⟨hp, (keeps p within).2⟩
    | ax hp => exact ⟨hp, (within_negate_iff hp E).1 (keeps p.negate within).2⟩
  · obtain ⟨normal, within⟩ := h
    cases normal with
    | and hp hq | or hp hq => exact ⟨⟨hp, within.1⟩, hq, within.2⟩
    | eu hp hq | au hp hq | er hp hq | ar hp hq => exact ⟨⟨hp, within.2.1⟩, hq, within.2.2⟩
  · cases h.1

end Formula

/-! ## 2. Variables with the truth of what they stand for -/

namespace SymbolicState

variable {u : SymbolicState} {ρ : String → Bool}

/-- **The value of a formula is true where the formula is**, if the variables have the truth of the
    formulas that they stand for and the formula asks for no others. -/
theorem exists_value_of_holds {K : Kripke.{u}} {m : K.State} {g : Formula} (normal : g.IsNormal)
    (within : g.Within (· ∈ u.elementary))
    (given : ∀ b ∈ u.table, ρ b.1 = true ↔ K.Holds b.2 m) :
    ∃ a, u.value g = .ok a ∧ (a.eval ρ = true ↔ K.Holds g m) := by
  obtain ⟨a, ha, describes⟩ := exists_value within 0
  refine ⟨a, ha, (describes.means ρ).trans ?_⟩
  have agree : ∀ e, e ∈ u.elementary → ((u.read ρ).IsTrue e ↔ K.Holds e m) := fun e he =>
    (isTrue_read_iff he).trans (given _ (mem_table_iff.2 ⟨he, rfl⟩))
  exact (Formula.holdsBy_congr within agree).trans (K.holdsBy_holds_iff normal m)

end SymbolicState

/-! ## 3. Truth -/

namespace Formula

open Tableau

/-- **Values encode truth.** A normal formula has a positive closure, and over this every stem that is
    fit makes a symbolic state. Take a subformula of the formula, or what a member of the closure
    promises of a successor, or the negation of one of these: it has a value in the symbolic state,
    which is as true as it is at a state of a Kripke structure, if each variable is as true as the
    elementary formula that it stands for is there. -/
theorem value_encodes {f : Formula} (hf : f.IsNormal) :
    ∃ E, f.positiveClosure = .ok E ∧ ∀ stem : String, stem ≠ "" → '_' ∉ stem.toList →
      ∃ u, SymbolicState.make E stem = .ok u ∧
        ∀ (K : Kripke.{u}) (m : K.State) (h : Formula), (h ∈ f.preorder ∨ .ex h ∈ E) →
        ∀ g, (g = h ∨ g = h.negate) →
        ∀ ρ : String → Bool, (∀ b ∈ u.table, ρ b.1 = true ↔ K.Holds b.2 m) →
          ∃ a, u.value g = .ok a ∧ (a.eval ρ = true ↔ K.Holds g m) := by
  obtain ⟨E, hE, within, keeps⟩ := exists_positiveClosure hf
  refine ⟨E, hE, fun stem nonempty fit => ⟨⟨stem, E, nonempty, fit⟩, ?_, ?_⟩⟩
  · rw [SymbolicState.make, dif_pos ⟨nonempty, fit⟩]
  intro K m h asked g hg ρ given
  have decided : h.IsNormal ∧ h.Within (· ∈ E) :=
    asked.elim (within_of_mem_preorder keeps hf within) (keeps h)
  obtain ⟨normal, within⟩ := decided
  rcases hg with rfl | rfl
  · exact SymbolicState.exists_value_of_holds normal within given
  · exact SymbolicState.exists_value_of_holds normal.negate ((within_negate_iff normal _).2 within)
      given

/-- Where "p" blinks and is false, it comes at last on all paths, and there is no path on which it
    stays away; so both variables are false, and the value of the formula is true. -/
theorem value_encodes_atLast : ∃ u, SymbolicState.make atLastTableau.elementary "s" = .ok u ∧
    u.table = [("s_0", .atom "p"), ("s_1", .ex (.er .falsity (.not (.atom "p"))))] ∧
    ∃ a, u.value atLast.normalize = .ok a ∧ a.eval (fun _ => false) = true := by
  have normal : atLast.normalize.IsNormal := .au (.atom trueName) (.atom "p")
  obtain ⟨E, hE, h⟩ := value_encodes.{0} normal
  have closure := ofFormula_atLast
  rw [ofFormula, hE] at closure
  cases closure
  obtain ⟨u, hu, h⟩ := h "s" (by decide) (by decide)
  have table : u.table = [("s_0", .atom "p"), ("s_1", .ex (.er .falsity (.not (.atom "p"))))] := by
    rw [SymbolicState.make, dif_pos (by decide)] at hu
    cases hu
    rfl
  have now : ¬ blinking.Holds (.atom "p") false := by
    rintro (e | ⟨-, e⟩)
    · exact absurd e (by decide)
    · cases e
  have later : ∀ {m}, blinking.next false m → blinking.Holds atLast.normalize m := by
    rintro _ rfl
    exact Kripke.everyUntil_iff.2 (Or.inl (Or.inr ⟨rfl, rfl⟩))
  have holds : blinking.Holds atLast.normalize false :=
    Kripke.everyUntil_iff.2 (Or.inr ⟨Or.inl rfl, fun _ => later⟩)
  have never : ¬ blinking.Holds (.ex (.er .falsity (.not (.atom "p")))) false := by
    intro h
    obtain ⟨m, hm, h⟩ := h
    exact (Kripke.holds_negate_iff normal.isTemporal m).1 h (later hm)
  obtain ⟨a, ha, value⟩ := h blinking false _ (Or.inl List.mem_cons_self) _ (Or.inl rfl)
    (fun _ => false) (by simp [table, now, never])
  exact ⟨u, hu, table, a, ha, value.2 holds⟩

end Formula

end CtlTableau
