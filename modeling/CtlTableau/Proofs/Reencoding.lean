import CtlTableau.Proofs.Adequacy
import CtlTableau.Proofs.Transfer

/-!
# Values in a state that decides more

A value can be had in two ways: from the formula, or by moving the value that the formula has in
another state. They agree whenever the one state decides all that the other does. The variables of
the two states need not be numbered alike, as further members come in between, and with one stem for
both states a variable of the one may be the name of something else in the other. What makes up for
this is that all names are replaced at once, each by the variable of what it stands for
(`atomOf_transferred`), while `TRUE` is no variable of any state.

The value is taken from the formulas that the expansion laws ask for, which need not be subformulas
and need not be normal; so the induction is on the formula, but the variables in its value are those
of the "next" formulas that are made on the way.

Main statement: `value_transfers`.
-/

namespace CtlTableau.SymbolicState

variable {u w : SymbolicState} {e g a : Formula}

/-- A variable moves to the variable for the same member. -/
theorem atomOf_transferred (sub : ∀ e ∈ u.elementary, e ∈ w.elementary)
    (h : u.atomOf e = .ok a) : w.atomOf e = .ok (a.mapNames (u.transferred w)) := by
  obtain ⟨he, rfl⟩ := atomOf_eq_ok_iff.1 h
  rw [Formula.mapNames, transferred_nameFor w he]
  exact atomOf_eq_ok_iff.2 ⟨sub e he, rfl⟩

/-- The constant stays. -/
theorem truth_transferred (u w : SymbolicState) :
    Formula.truth.mapNames (u.transferred w) = .truth := by
  rw [Formula.mapNames, transferred_of_not_mem w (true_not_mem_names u)]

/-- **The value in a state that decides more** is the value with its variables renamed. -/
theorem value_transferred (sub : ∀ e ∈ u.elementary, e ∈ w.elementary)
    (h : u.value g = .ok a) : w.value g = .ok (a.mapNames (u.transferred w)) := by
  have atom : ∀ {x a}, u.value (.atom x) = .ok a →
      w.value (.atom x) = .ok (a.mapNames (u.transferred w)) := by
    intro x a h
    by_cases hx : x = Formula.trueName
    · rw [value, if_pos hx] at h
      cases h
      rw [value, if_pos hx, truth_transferred]
    · rw [value, if_neg hx] at h
      rw [value, if_neg hx, atomOf_transferred sub h]
  induction g generalizing a with
  | atom x => exact atom h
  | unary op p =>
    cases op with
    | not =>
      cases p with
      | atom x =>
        by_cases hx : x = Formula.trueName
        · rw [value, if_pos hx] at h
          cases h
          rw [value, if_pos hx, Formula.mapNames, truth_transferred]
        · rw [value, if_neg hx] at h
          obtain ⟨v, hv, rfl⟩ := exists_of_map_ok h
          rw [value, if_neg hx, atomOf_transferred sub hv]
          rfl
      | _ => cases h
    | ex => exact atomOf_transferred sub h
    | ax =>
      obtain ⟨v, hv, rfl⟩ := exists_of_map_ok h
      rw [value, atomOf_transferred sub hv]
      rfl
    | _ => cases h
  | binary op p q ihp ihq =>
    cases op with
    | and | or =>
      obtain ⟨b, hp, h⟩ := exists_of_bind_ok h
      obtain ⟨c, hq, h⟩ := exists_of_bind_ok h
      cases h
      rw [value, ihp hp, ihq hq]
      rfl
    | imp => cases h
    | eu | au | er | ar =>
      -- what is asked for first is no argument but a "next" formula, so no hypothesis applies to it
      obtain ⟨v, hv, h⟩ := exists_of_bind_ok h
      obtain ⟨c, hq, h⟩ := exists_of_bind_ok h
      obtain ⟨b, hp, h⟩ := exists_of_bind_ok h
      cases h
      rw [value, atomOf_transferred sub hv, ihp hp, ihq hq]
      rfl
  | quant k x p => cases h

/-- **Values go over to any state that decides as much.** Whatever formula has a value in a state has
    one in every state that has all its members, whatever the two are named after; and this is what
    comes of moving the value that it has in the first one. -/
theorem value_transfers {source target : SymbolicState}
    (sub : ∀ e ∈ source.elementary, e ∈ target.elementary) (h : source.value g = .ok a) :
    ∃ b, source.transfer target a = .ok b ∧ target.value g = .ok b :=
  ⟨a.mapNames (source.transferred target), transfer_of_subset sub a, value_transferred sub h⟩

/-- A state that decides "q" and a "next" formula that is not normal. -/
def fewer : SymbolicState where
  stem := "w"
  elementary := ⟨[.atom "q", .ex (.and (.ef (.atom "q")) (.not (.atom "r")))], by decide⟩
  stem_valid := by decide

/-- A state of the same name that decides "p" and "r" as well. -/
def more : SymbolicState where
  stem := "w"
  elementary :=
    ⟨[.atom "p", .atom "q", .atom "r", .ex (.and (.ef (.atom "q")) (.not (.atom "r")))], by decide⟩
  stem_valid := by decide

/-- "q", or all that is next implies "r" where "q" holds sometime. -/
def alwaysNext : Formula := .or (.atom "q") (.ax (.imp (.ef (.atom "q")) (.atom "r")))

/-- Both variables get other numbers, and one of them gets the name that the other one had. -/
theorem value_transfers_alwaysNext :
    (∀ e ∈ fewer.elementary, e ∈ more.elementary) ∧
    fewer.value alwaysNext = .ok (.or (.atom "w_0") (.not (.atom "w_1"))) ∧
    fewer.transfer more (.or (.atom "w_0") (.not (.atom "w_1"))) =
      .ok (.or (.atom "w_1") (.not (.atom "w_3"))) ∧
    more.value alwaysNext = .ok (.or (.atom "w_1") (.not (.atom "w_3"))) := by
  have sub : ∀ e ∈ fewer.elementary, e ∈ more.elementary := by
    intro e he
    rcases List.mem_cons.1 he with rfl | he
    · exact List.mem_cons_of_mem _ List.mem_cons_self
    · rw [List.mem_singleton.1 he]
      exact List.mem_cons_of_mem _ (List.mem_cons_of_mem _ (List.mem_cons_of_mem _
        List.mem_cons_self))
  have value : fewer.value alwaysNext = .ok (.or (.atom "w_0") (.not (.atom "w_1"))) := rfl
  obtain ⟨b, moved, there⟩ := value_transfers sub value
  have renamed : fewer.transfer more (.or (.atom "w_0") (.not (.atom "w_1"))) =
      .ok (.or (.atom "w_1") (.not (.atom "w_3"))) := rfl
  cases renamed.symm.trans moved
  exact ⟨sub, value, renamed, there⟩

end CtlTableau.SymbolicState
