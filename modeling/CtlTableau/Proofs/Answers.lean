import CtlTableau.CommandLine
import CtlTableau.Proofs.Simulation

/-!
# One answer after another

What a run of the program does with a formula (`answer_cases`), and how what every answer preserves is
so of a whole run (`answerAll_induction`). A run has a result if the loops of all its checks end within
the rounds that they may take; more rounds change nothing then (`answerAll_mono`), so a run has one
result at most (`answerAll_unique`).
-/

namespace CtlTableau.CommandLine

open Solver

variable {env : Environment} {rounds rounds' : Nat} {o : Options} {p p' : Progress}
  {input : String} {inputs : List String}

/-! ## 1. One formula -/

/-- Whether an input is checked: it is a formula, and the formula has a tableau. -/
def isAccepted (input : String) : Bool :=
  match Formula.parse input with
  | .error _ => false
  | .ok f =>
    match Tableau.ofFormula f with
    | .error _ => false
    | .ok _ => true

/-- A formula is refused, or normalized, or checked. -/
theorem answer_cases (h : answer env rounds o p input = some p') :
    (isAccepted input = false ∧ ∃ e, p' = p.add input (.failed e)) ∨
    isAccepted input = true ∧ ∃ f T, Formula.parse input = .ok f ∧ Tableau.ofFormula f = .ok T ∧
      (o.normalize = true ∧ p' = p.add input (.normalized T) ∨
        o.normalize = false ∧ check env rounds o p input T = some p') := by
  unfold answer at h
  unfold isAccepted
  cases parsed : Formula.parse input with
  | error e =>
    rw [parsed] at h
    exact .inl ⟨rfl, .parse e, (Option.some.inj h).symm⟩
  | ok f =>
    rw [parsed] at h
    cases made : Tableau.ofFormula f with
    | error e =>
      simp only [made] at h ⊢
      exact .inl ⟨trivial, e, (Option.some.inj h).symm⟩
    | ok T =>
      simp only [made] at h ⊢
      refine .inr ⟨trivial, f, T, rfl, made, ?_⟩
      split at h
      · next normalize => exact .inl ⟨normalize, (Option.some.inj h).symm⟩
      · next normalize => exact .inr ⟨Bool.eq_false_iff.2 normalize, h⟩

/-- What comes of a check. -/
theorem check_eq_some {T : Tableau} (h : check env rounds o p input T = some p') :
    ∃ r s a, (T.checkWithin (External.engine (env.setting o p.answers.length)).toEngine
        rounds).run.run { engine := { dump := p.dump },
                          cancelled := o.timeout.isSome && env.early p.answers.length } = (r, s) ∧
      Answer.ofResult? r = some a ∧
      p' = ⟨p.answers ++ [(input, a)], s.engine.dump, p.sent ++ [queriesOf s.log]⟩ := by
  obtain ⟨a, ha, rfl⟩ := Option.map_eq_some_iff.1 h
  exact ⟨_, _, a, rfl, ha, rfl⟩

/-- Every formula is answered. -/
theorem exists_answer (h : answer env rounds o p input = some p') :
    ∃ a, p'.answers = p.answers ++ [(input, a)] := by
  obtain ⟨-, e, rfl⟩ | ⟨-, f, T, -, -, ⟨-, rfl⟩ | ⟨-, checked⟩⟩ := answer_cases h
  · exact ⟨.failed e, rfl⟩
  · exact ⟨.normalized T, rfl⟩
  · obtain ⟨r, s, a, -, -, rfl⟩ := check_eq_some checked
    exact ⟨a, rfl⟩

/-- Only a check that ran out of rounds has no answer. -/
theorem Answer.exists_ofResult? {r : Except Tableau.Halt Report} (h : r ≠ .error .outOfRounds) :
    ∃ a, Answer.ofResult? r = some a := by
  match r, h with
  | .ok r, _ => exact ⟨_, rfl⟩
  | .error (.fault e), _ => cases e <;> exact ⟨_, rfl⟩
  | .error .outOfRounds, h => exact absurd rfl h

/-! ## 2. All formulas -/

theorem answerAll_concat (env : Environment) (rounds : Nat) (o : Options) (inputs : List String)
    (input : String) : answerAll env rounds o (inputs ++ [input]) =
      (answerAll env rounds o inputs).bind (answer env rounds o · input) := by
  unfold answerAll
  rw [List.foldlM_append]
  refine congrArg _ (funext fun p => ?_)
  rw [List.foldlM_cons]
  exact bind_pure _

/-- **What every answer preserves is so of a run.** -/
theorem answerAll_induction {R : List String → Progress → Prop} (start : R [] {})
    (step : ∀ inputs input p p', R inputs p → answer env rounds o p input = some p' →
      R (inputs ++ [input]) p')
    (ended : answerAll env rounds o inputs = some p) : R inputs p := by
  induction inputs using List.reverseRecOn generalizing p with
  | nil =>
    cases ended
    exact start
  | append_singleton inputs input ih =>
    rw [answerAll_concat] at ended
    obtain ⟨p₀, before, last⟩ := Option.bind_eq_some_iff.1 ended
    exact step inputs input p₀ p (ih before) last

/-- Every formula is answered, whatever came of those before it. -/
theorem inputs_answerAll (ended : answerAll env rounds o inputs = some p) :
    p.answers.map (·.1) = inputs := by
  refine answerAll_induction (R := fun inputs p => p.answers.map (·.1) = inputs) rfl
    (fun inputs input p p' h answered => ?_) ended
  obtain ⟨a, added⟩ := exists_answer answered
  rw [added, List.map_append, h]
  rfl

/-- A run ends if all its checks end. -/
theorem exists_answerAll
    (ends : o.normalize = false → ∀ p input f T, Tableau.ofFormula f = .ok T →
      ∃ p', check env rounds o p input T = some p')
    (inputs : List String) : ∃ p, answerAll env rounds o inputs = some p := by
  induction inputs using List.reverseRecOn with
  | nil => exact ⟨{}, rfl⟩
  | append_singleton inputs input ih =>
    obtain ⟨p, ended⟩ := ih
    rw [answerAll_concat, ended]
    show ∃ p', answer env rounds o p input = some p'
    unfold answer
    cases Formula.parse input with
    | error e => exact ⟨_, rfl⟩
    | ok f =>
      dsimp only
      cases made : Tableau.ofFormula f with
      | error e => exact ⟨_, rfl⟩
      | ok T =>
        dsimp only
        split
        · exact ⟨_, rfl⟩
        · next normalize => exact ends (Bool.eq_false_iff.2 normalize) p input f T made

/-! ## 3. More rounds -/

theorem check_mono {T : Tableau} (h : check env rounds o p input T = some p')
    (more : rounds ≤ rounds') : check env rounds' o p input T = some p' := by
  obtain ⟨r, s, a, hrun, ha, rfl⟩ := check_eq_some h
  have ne : r ≠ .error .outOfRounds := by
    rintro rfl
    cases ha
  have same := (Tableau.extends_checkWithin more _ (hrun ▸ ne)).trans hrun
  simp only [check, same, ha]
  rfl

theorem answer_mono (h : answer env rounds o p input = some p') (more : rounds ≤ rounds') :
    answer env rounds' o p input = some p' := by
  unfold answer at h ⊢
  cases parsed : Formula.parse input with
  | error e =>
    rw [parsed] at h
    exact h
  | ok f =>
    rw [parsed] at h
    cases made : Tableau.ofFormula f with
    | error e =>
      simp only [made] at h ⊢
      exact h
    | ok T =>
      simp only [made] at h ⊢
      split at h
      · next normalize => rwa [if_pos normalize]
      · next normalize =>
        rw [if_neg normalize]
        exact check_mono h more

/-- **More rounds do not change the result of a run.** -/
theorem answerAll_mono (ended : answerAll env rounds o inputs = some p) (more : rounds ≤ rounds') :
    answerAll env rounds' o inputs = some p := by
  refine answerAll_induction (R := fun inputs p => answerAll env rounds' o inputs = some p) rfl
    (fun inputs input p p' h answered => ?_) ended
  rw [answerAll_concat, h]
  exact answer_mono answered more

/-- A run has one result at most, however many rounds it is given. -/
theorem answerAll_unique (ended : answerAll env rounds o inputs = some p)
    (ended' : answerAll env rounds' o inputs = some p') : p = p' := by
  have largest := answerAll_mono ended (Nat.le_max_left rounds rounds')
  rw [answerAll_mono ended' (Nat.le_max_right rounds rounds')] at largest
  exact (Option.some.inj largest).symm

end CtlTableau.CommandLine
