import CtlTableau.Proofs.Boolean
import CtlTableau.Proofs.Variables

/-!
# Moving between states

A formula over the variables of one state is moved to another state of the same set by renaming all
its names at once, at atoms and at quantifiers alike (`transfer_eq`). Formulas of a run bind
variables of their own and of older states, so that a quantifier may stand over any name that is
moved.

What rules captures out is that the formula does not mention the variables it is moved to. Then no
two of its names fall together: variables of one state stay apart (`transferred_inj`), and no name
that stays is met by one that moves (`transferred_injOn`). For the same reason the way back undoes
the renaming (`transferred_transferred`).

Main statement: `transfer_faithful`.
-/

namespace CtlTableau

namespace SymbolicState

/-! ## 1. Where names go -/

variable {u w : SymbolicState} {x : String} {e : Formula}

/-- Where moving from one state to another takes a name. -/
def transferred (u w : SymbolicState) (x : String) : String :=
  match u.table.lookup x with
  | some e => w.nameFor e
  | none => x

theorem transferred_nameFor (w : SymbolicState) (h : e ∈ u.elementary) :
    u.transferred w (u.nameFor e) = w.nameFor e := by
  simp [transferred, lookup_nameFor h]

theorem transferred_of_not_mem (w : SymbolicState) (h : x ∉ u.names) :
    u.transferred w x = x := by
  simp [transferred, lookup_of_not_mem h]

theorem transferred_mem_names (h : u.elementary = w.elementary) (hx : x ∈ u.names) :
    u.transferred w x ∈ w.names := by
  obtain ⟨e, he, rfl⟩ := exists_nameFor hx
  rw [transferred_nameFor w he]
  exact nameFor_mem_names (h ▸ he)

/-- Variables of one state stay apart when they are moved. -/
theorem transferred_inj (h : u.elementary = w.elementary) {y : String} (hx : x ∈ u.names)
    (hy : y ∈ u.names) (hxy : u.transferred w x = u.transferred w y) : x = y := by
  obtain ⟨e, he, rfl⟩ := exists_nameFor hx
  obtain ⟨e', he', rfl⟩ := exists_nameFor hy
  rw [transferred_nameFor w he, transferred_nameFor w he'] at hxy
  have hi := (varName_inj w.stem_valid.2 w.stem_valid.2 hxy).2
  rw [nameFor, nameFor, h, hi]

/-- No two names fall together of which none but variables of the one state are variables of the
    other. -/
theorem transferred_injOn (h : u.elementary = w.elementary) {xs : List String}
    (new : ∀ x ∈ xs, x ∉ u.names → x ∉ w.names) :
    ∀ x ∈ xs, ∀ y ∈ xs, u.transferred w x = u.transferred w y → x = y := by
  intro x hx y hy hxy
  by_cases hxu : x ∈ u.names <;> by_cases hyu : y ∈ u.names
  · exact transferred_inj h hxu hyu hxy
  · rw [transferred_of_not_mem w hyu] at hxy
    exact absurd (hxy ▸ transferred_mem_names h hxu) (new y hy hyu)
  · rw [transferred_of_not_mem w hxu] at hxy
    exact absurd (hxy ▸ transferred_mem_names h hyu) (new x hx hxu)
  · rwa [transferred_of_not_mem w hxu, transferred_of_not_mem w hyu] at hxy

/-- The name of the constant is not moved, and no other name is moved there. -/
theorem transferred_eq_true_iff (h : u.elementary = w.elementary) (x : String) :
    u.transferred w x = Formula.trueName ↔ x = Formula.trueName := by
  constructor
  · intro e
    by_cases hx : x ∈ u.names
    · exact absurd (e ▸ transferred_mem_names h hx) (true_not_mem_names w)
    · rwa [transferred_of_not_mem w hx] at e
  · intro e
    rw [e]
    exact transferred_of_not_mem w (true_not_mem_names u)

/-- The way back, for names that are no variables of the state they are moved to. -/
theorem transferred_transferred (h : u.elementary = w.elementary) (hx : x ∉ w.names) :
    w.transferred u (u.transferred w x) = x := by
  by_cases hxu : x ∈ u.names
  · obtain ⟨e, he, rfl⟩ := exists_nameFor hxu
    rw [transferred_nameFor w he, transferred_nameFor u (h ▸ he)]
  · rw [transferred_of_not_mem w hxu, transferred_of_not_mem u hx]

/-! ## 2. Where formulas go -/

theorem transferName_eq (h : ∀ e ∈ u.elementary, e ∈ w.elementary) (x : String) :
    transferName u.table w x = .ok (u.transferred w x) := by
  by_cases hx : x ∈ u.names
  · obtain ⟨e, he, rfl⟩ := exists_nameFor hx
    simp only [transferName, transferred, lookup_nameFor he]
    exact nameOf_of_mem (h e he)
  · simp [transferName, transferred, lookup_of_not_mem hx]

/-- Moving a formula to a state that decides as much renames its names. -/
theorem transfer_of_subset (h : ∀ e ∈ u.elementary, e ∈ w.elementary) (f : Formula) :
    u.transfer w f = .ok (f.mapNames (u.transferred w)) := by
  unfold transfer
  induction f with
  | atom x => simp [transferBy, Formula.mapNames, transferName_eq h, Except.map]
  | unary op p ih => simp [transferBy, Formula.mapNames, ih, Except.map]
  | binary op p q ihp ihq =>
    simp [transferBy, Formula.mapNames, ihp, ihq, bind, Except.bind, pure, Except.pure]
  | quant k x p ih =>
    simp [transferBy, Formula.mapNames, transferName_eq h, ih, bind, Except.bind, pure,
      Except.pure]

theorem transfer_eq (h : u.elementary = w.elementary) (f : Formula) :
    u.transfer w f = .ok (f.mapNames (u.transferred w)) :=
  transfer_of_subset (fun _ he => h ▸ he) f

/-! ## 3. Valuations -/

variable {ρ σ : String → Bool}

/-- Under `σ` each variable of the first state has the value that the variable of the second state
    for the same formula has under `ρ`, and other names have the same value under both. -/
structure Mirrors (u w : SymbolicState) (ρ σ : String → Bool) : Prop where
  own : ∀ e x y, (x, e) ∈ u.table → (y, e) ∈ w.table → σ x = ρ y
  others : ∀ x, u.owns x = false → σ x = ρ x

/-- There is one such valuation for every `ρ`. -/
theorem mirrors_iff (h : u.elementary = w.elementary) :
    u.Mirrors w ρ σ ↔ σ = ρ ∘ u.transferred w := by
  have owned : ∀ x, u.owns x = false ↔ x ∉ u.names := fun x => by
    rw [← Bool.not_eq_true, owns, List.contains_iff_mem]
  constructor
  · intro m
    funext x
    rw [Function.comp_apply]
    by_cases hx : x ∈ u.names
    · obtain ⟨e, he, rfl⟩ := exists_nameFor hx
      rw [transferred_nameFor w he]
      exact m.own e _ _ (mem_table_iff.2 ⟨he, rfl⟩) (mem_table_iff.2 ⟨h ▸ he, rfl⟩)
    · rw [transferred_of_not_mem w hx]
      exact m.others x ((owned x).2 hx)
  · rintro rfl
    refine ⟨fun e x y hx hy => ?_, fun x hx => ?_⟩
    · obtain ⟨he, rfl⟩ := mem_table_iff.1 hx
      obtain ⟨-, rfl⟩ := mem_table_iff.1 hy
      rw [Function.comp_apply, transferred_nameFor w he]
    · rw [Function.comp_apply, transferred_of_not_mem w ((owned x).1 hx)]

/-- **Moving a formula between states captures nothing.** If the formula does not mention the
    variables that it is moved to, free or bound, then it is moved; under every valuation the result
    has the value that the formula has when its own variables take the values of the corresponding
    ones; and moving back returns the formula. -/
theorem transfer_faithful {source target : SymbolicState}
    (same : source.elementary = target.elementary) {f : Formula}
    (fresh : ∀ x, target.owns x = true → f.mentions x = false) :
    ∃ f', source.transfer target f = .ok f' ∧ target.transfer source f' = .ok f ∧
      ∀ ρ, (∃ σ, source.Mirrors target ρ σ) ∧
        ∀ σ, source.Mirrors target ρ σ → f'.eval ρ = f.eval σ := by
  have new : ∀ x ∈ f.names, x ∉ target.names := fun x hx ht => by
    rw [← Formula.mentions_iff, fresh x (List.contains_iff_mem.2 ht)] at hx
    cases hx
  have inj := transferred_injOn same fun x hx _ => new x hx
  refine ⟨_, transfer_eq same f, ?_, fun ρ => ⟨⟨_, (mirrors_iff same).2 rfl⟩, fun σ m => ?_⟩⟩
  · rw [transfer_eq same.symm, Formula.mapNames_mapNames]
    have undone : f.mapNames (target.transferred source ∘ source.transferred target) =
        f.mapNames id :=
      Formula.mapNames_congr fun x hx => transferred_transferred same (new x hx)
    rw [undone, Formula.mapNames_id]
  · rw [(mirrors_iff same).1 m]
    exact Formula.eval_mapNames inj (fun x _ => transferred_eq_true_iff same x) ρ

/-- A state that decides "p" and "q". -/
def pairState (stem : String) (h : stem ≠ "" ∧ '_' ∉ stem.toList) : SymbolicState :=
  ⟨stem, ⟨[.atom "p", .atom "q"], by decide⟩, h⟩

/-- A quantifier over the first variable of such a state, and one over a name that is none. -/
def boundBoth (first second : String) : Formula :=
  .or (.exist first (.and (.atom first) (.atom "x"))) (.all "y" (.or (.atom second) (.atom "y")))

/-- The quantifier moves along with its variable, and the other one stays. -/
theorem transfer_faithful_boundBoth :
    (∀ x, (pairState "b" (by decide)).owns x = true →
      (boundBoth "a_0" "a_1").mentions x = false) ∧
    (pairState "a" (by decide)).transfer (pairState "b" (by decide)) (boundBoth "a_0" "a_1") =
      .ok (boundBoth "b_0" "b_1") ∧
    ∀ ρ σ, (pairState "a" (by decide)).Mirrors (pairState "b" (by decide)) ρ σ →
      (boundBoth "b_0" "b_1").eval ρ = (boundBoth "a_0" "a_1").eval σ := by
  have same : (pairState "a" (by decide)).elementary = (pairState "b" (by decide)).elementary := rfl
  have fresh : ∀ x, (pairState "b" (by decide)).owns x = true →
      (boundBoth "a_0" "a_1").mentions x = false := by
    intro x hx
    obtain ⟨i, hi, rfl⟩ := mem_names.1 (List.contains_iff_mem.1 hx)
    revert i
    decide
  obtain ⟨f', moved, -, means⟩ := transfer_faithful same fresh
  cases moved
  exact ⟨fresh, rfl, fun ρ σ => (means ρ).2 σ⟩

end SymbolicState

end CtlTableau
