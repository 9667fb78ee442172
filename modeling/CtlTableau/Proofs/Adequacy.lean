import CtlTableau.Proofs.Polarity
import CtlTableau.Proofs.Values

/-!
# The closure is adequate for the values

A formula has a value in a symbolic state if and only if the expansion laws ask for members of the
state's set only (`exists_value_iff`). A normal formula and its negation ask for the same variables
in the same order, so the value of the negation is the negation of the value, down to the fault that
is raised where a variable is missing (`value_negate`).

Over the positive closure of a formula nothing is missing. Every promise of a member is a node of
the formula or the negation of one (`exists_node_of_promise`), although it need not be a subformula;
so what a promise decides is decided by the formula.

Main statements: `values_complement` and `closure_suffices`.
-/

namespace CtlTableau

/-! ## 1. Which formulas have a value -/

theorem exists_of_bind_ok {ε α β : Type} {x : Except ε α} {k : α → Except ε β} {b : β}
    (h : x >>= k = .ok b) : ∃ a, x = .ok a ∧ k a = .ok b := by
  cases x with
  | error e => cases h
  | ok a => exact ⟨a, rfl, h⟩

theorem exists_of_map_ok {ε α β : Type} {x : Except ε α} {k : α → β} {b : β}
    (h : x.map k = .ok b) : ∃ a, x = .ok a ∧ k a = b := by
  cases x with
  | error e => cases h
  | ok a => exact ⟨a, rfl, Except.ok.inj h⟩

namespace SymbolicState

variable {u : SymbolicState} {e g a b : Formula}

theorem mem_of_atomOf (h : u.atomOf e = .ok a) : e ∈ u.elementary := (atomOf_eq_ok_iff.1 h).1

/-- A value is made of the variables of what the expansion laws ask for. -/
theorem within_of_value (h : u.value g = .ok a) : g.Within (· ∈ u.elementary) := by
  have atom : ∀ {x a}, u.value (.atom x) = .ok a → (Formula.atom x).Within (· ∈ u.elementary) := by
    intro x a h
    by_cases hx : x = Formula.trueName
    · exact Or.inl hx
    · rw [value, if_neg hx] at h
      exact Or.inr (mem_of_atomOf h)
  induction g generalizing a with
  | atom x => exact atom h
  | unary op p ih =>
    cases op with
    | not =>
      cases p with
      | atom x =>
        refine ⟨rfl, ?_⟩
        by_cases hx : x = Formula.trueName
        · exact Or.inl hx
        · rw [value, if_neg hx] at h
          obtain ⟨v, hv, -⟩ := exists_of_map_ok h
          exact Or.inr (mem_of_atomOf hv)
      | _ => cases h
    | ex => exact mem_of_atomOf h
    | ax =>
      obtain ⟨v, hv, -⟩ := exists_of_map_ok h
      exact mem_of_atomOf hv
    | _ => cases h
  | binary op p q ihp ihq =>
    cases op with
    | and | or =>
      obtain ⟨b, hp, h⟩ := exists_of_bind_ok h
      obtain ⟨c, hq, -⟩ := exists_of_bind_ok h
      exact ⟨ihp hp, ihq hq⟩
    | imp => cases h
    | eu | au | er | ar =>
      obtain ⟨v, hv, h⟩ := exists_of_bind_ok h
      obtain ⟨c, hq, h⟩ := exists_of_bind_ok h
      obtain ⟨b, hp, -⟩ := exists_of_bind_ok h
      exact ⟨mem_of_atomOf hv, ihp hp, ihq hq⟩
  | quant k x p ih => cases h

/-- **A formula has a value exactly if it asks for members only.** -/
theorem exists_value_iff : (∃ a, u.value g = .ok a) ↔ g.Within (· ∈ u.elementary) := by
  constructor
  · intro h
    obtain ⟨a, h⟩ := h
    exact within_of_value h
  · intro h
    obtain ⟨a, ha, -⟩ := exists_value h 0
    exact ⟨a, ha⟩

/-- Values speak about the variables of their state. -/
theorem speaks_of_value (h : u.value g = .ok a) : a.Speaks (· ∈ u.names) 0 := by
  obtain ⟨a', ha, describes⟩ := exists_value (within_of_value h) 0
  rw [h] at ha
  cases ha
  exact describes.speaks

theorem names_of_value (h : u.value g = .ok a) {x : String} (hx : x ∈ a.names) :
    x = Formula.trueName ∨ u.owns x = true := by
  rcases (speaks_of_value h).names x hx with hx | hx | ⟨n, hn, -⟩
  · exact Or.inl hx
  · exact Or.inr (List.contains_iff_mem.2 hx)
  · exact absurd hn (Nat.not_lt_zero n)

/-! ## 2. Negation -/

/-- **The value of the negation is the negation of the value**, and the same variable is missing if
    there is none. -/
theorem value_negate (hg : g.IsNormal) (u : SymbolicState) :
    u.value g.negate = (u.value g).map Formula.negate := by
  -- a formula and its negation look up the same names in the same order, so that it is enough to go
  -- through the outcomes of these and of the values of the arguments
  induction hg with
  | atom x =>
    by_cases hx : x = Formula.trueName
    · simp [value, hx, Except.map]
    · simp only [Formula.negate_atom, value, hx, if_false, atomOf]
      cases u.nameOf (.atom x) <;> rfl
  | not x =>
    by_cases hx : x = Formula.trueName
    · simp [value, hx, Except.map]
    · simp only [Formula.negate_not, Formula.nnf_atom, value, hx, if_false, atomOf]
      cases u.nameOf (.atom x) <;> rfl
  | @ex p hp _ =>
    simp only [Formula.negate_ex, value, hp.negate_negate, atomOf]
    cases u.nameOf (.ex p) <;> rfl
  | @ax p hp _ =>
    simp only [Formula.negate_ax, value, atomOf]
    cases u.nameOf (.ex p.negate) <;> rfl
  | @and p q _ _ ihp ihq =>
    simp only [Formula.negate_and, value, ihp, ihq]
    cases u.value p <;> cases u.value q <;> rfl
  | @or p q _ _ ihp ihq =>
    simp only [Formula.negate_or, value, ihp, ihq]
    cases u.value p <;> cases u.value q <;> rfl
  | @eu p q hp hq ihp ihq =>
    simp only [Formula.negate_eu, value, ihp, ihq, hp.negate_negate, hq.negate_negate, atomOf]
    cases u.nameOf (.ex (.eu p q)) <;> cases u.value q <;> cases u.value p <;> rfl
  | @au p q _ _ ihp ihq =>
    simp only [Formula.negate_au, value, ihp, ihq, atomOf]
    cases u.nameOf (.ex (.er p.negate q.negate)) <;> cases u.value q <;> cases u.value p <;> rfl
  | @er p q hp hq ihp ihq =>
    simp only [Formula.negate_er, value, ihp, ihq, hp.negate_negate, hq.negate_negate, atomOf]
    cases u.nameOf (.ex (.er p q)) <;> cases u.value q <;> cases u.value p <;> rfl
  | @ar p q _ _ ihp ihq =>
    simp only [Formula.negate_ar, value, ihp, ihq, atomOf]
    cases u.nameOf (.ex (.eu p.negate q.negate)) <;> cases u.value q <;> cases u.value p <;> rfl

/-- **Negation in the syntax is negation in the encoding.** A normal formula has a value if and only
    if its negation has one, and under every valuation exactly one of the two values is true. -/
theorem values_complement (hg : g.IsNormal) (u : SymbolicState) :
    ((∃ a, u.value g = .ok a) ↔ ∃ b, u.value g.negate = .ok b) ∧
      ∀ a b, u.value g = .ok a → u.value g.negate = .ok b → ∀ ρ, b.eval ρ = !a.eval ρ := by
  constructor
  · rw [exists_value_iff, exists_value_iff, Formula.within_negate_iff hg]
  · intro a b ha hb ρ
    rw [value_negate hg, ha] at hb
    cases hb
    have boolean := Formula.isBoolean_of_isExistential (speaks_of_value ha).existential
    rw [Formula.negate, Formula.eval_signed boolean]
    cases a.eval ρ <;> rfl

/-- A state that decides what "p until q" asks for, and no more. -/
def untilState : SymbolicState where
  stem := "v"
  elementary :=
    ⟨[.atom "p", .atom "q", .ex (.eu (.atom "p") (.atom "q"))], by decide⟩
  stem_valid := by decide

/-- Both "p until q" and its negation refer to the variable of the same "next" formula. -/
theorem values_complement_until :
    untilState.value (.eu (.atom "p") (.atom "q")) =
        .ok (.or (.atom "v_1") (.and (.atom "v_0") (.atom "v_2"))) ∧
      untilState.value (.ar (.not (.atom "p")) (.not (.atom "q"))) =
        .ok (.and (.not (.atom "v_1")) (.or (.not (.atom "v_0")) (.not (.atom "v_2")))) ∧
      ∀ ρ, (Formula.and (.not (.atom "v_1"))
          (.or (.not (.atom "v_0")) (.not (.atom "v_2")))).eval ρ =
        !(Formula.or (.atom "v_1") (.and (.atom "v_0") (.atom "v_2"))).eval ρ := by
  have normal : (Formula.eu (.atom "p") (.atom "q")).IsNormal := .eu (.atom "p") (.atom "q")
  obtain ⟨-, complement⟩ := values_complement normal untilState
  exact ⟨rfl, rfl, complement _ _ rfl rfl⟩

end SymbolicState

/-! ## 3. Promises -/

namespace Formula

variable {f g : Formula} {C E : OrderedSet Formula}

theorem exists_closure (hf : f.IsNormal) : ∃ C, f.closure = .ok C :=
  ⟨_, congrArg (Except.map OrderedSet.ofList) (elementaryList_eq hf)⟩

/-- What a member promises of a successor is a node of the formula or the negation of one. -/
theorem exists_node_of_promise (hC : f.closure = .ok C) (hg : .ex g ∈ C) :
    ∃ node ∈ f.preorder, g = node ∨ g = node.negate := by
  obtain ⟨normal, mem⟩ := closure_eq_ok_iff.1 hC
  obtain ⟨d, hd, hg⟩ := (mem _).1 hg
  obtain ⟨node, hnode, decided⟩ := mem_decisions.1 hd
  have whole : ∀ {h}, h ∈ node.preorder → h ∈ f.preorder := fun h => preorder_subset hnode h
  cases normal.of_mem_preorder hnode with
  | atom x =>
    obtain ⟨-, rfl⟩ := decision?_atom.1 decided
    simp [withNegation] at hg
  | not x => cases decided
  | @ex p _ =>
    cases decided
    refine ⟨p, whole (List.mem_cons_of_mem _ p.mem_preorder_self), Or.inl ?_⟩
    simpa [withNegation] using hg
  | @ax p _ =>
    cases decided
    refine ⟨p, whole (List.mem_cons_of_mem _ p.mem_preorder_self), Or.inr ?_⟩
    simpa [withNegation] using hg
  | and _ _ | or _ _ => cases decided
  | eu _ _ | er _ _ =>
    cases decided
    exact ⟨_, hnode, Or.inl (by simpa [withNegation] using hg)⟩
  | au _ _ | ar _ _ =>
    cases decided
    exact ⟨_, hnode, Or.inr (by simpa [withNegation] using hg)⟩

/-- What a member promises of a successor decides nothing that the formula does not decide. -/
theorem exists_closure_of_promise (hC : f.closure = .ok C) (hg : .ex g ∈ C) :
    ∃ D, g.closure = .ok D ∧ ∀ e ∈ D, e ∈ C := by
  obtain ⟨normal, mem⟩ := closure_eq_ok_iff.1 hC
  obtain ⟨node, hnode, hg⟩ := exists_node_of_promise hC hg
  obtain ⟨D, hD⟩ := exists_closure (normal.of_mem_preorder hnode)
  refine ⟨D, ?_, fun e he => ?_⟩
  · rcases hg with rfl | rfl
    · exact hD
    · exact closure_negate hD
  · obtain ⟨d, hd, he⟩ := ((closure_eq_ok_iff.1 hD).2 e).1 he
    exact (mem e).2 ⟨d, decisions_subset hnode hd, he⟩

/-! ## 4. Adequacy -/

/-- What a run over the elementary formulas `E` of `f` evaluates, apart from negations: subformulas,
    what a member promises of a successor, and the arguments of a promised "until" or "release". -/
inductive IsEvaluated (f : Formula) (E : OrderedSet Formula) : Formula → Prop where
  | node {g : Formula} (h : g ∈ f.preorder) : IsEvaluated f E g
  | promise {g : Formula} (h : .ex g ∈ E) : IsEvaluated f E g
  | untilArgument {g p q : Formula} (h : .ex (.eu p q) ∈ E) (hg : g = p ∨ g = q) :
    IsEvaluated f E g
  | releaseArgument {g p q : Formula} (h : .ex (.er p q) ∈ E) (hg : g = p ∨ g = q) :
    IsEvaluated f E g

theorem IsEvaluated.decided (hf : f.IsNormal) (within : f.Within (· ∈ E))
    (keeps : KeepsPromises (· ∈ E)) (hg : IsEvaluated f E g) :
    g.IsNormal ∧ g.Within (· ∈ E) := by
  cases hg with
  | node h => exact within_of_mem_preorder keeps hf within h
  | promise h => exact keeps g h
  | untilArgument h hg =>
    obtain ⟨normal, -, hp, hq⟩ := keeps _ h
    cases normal with
    | eu np nq => exact hg.elim (fun e => e ▸ ⟨np, hp⟩) fun e => e ▸ ⟨nq, hq⟩
  | releaseArgument h hg =>
    obtain ⟨normal, -, hp, hq⟩ := keeps _ h
    cases normal with
    | er np nq => exact hg.elim (fun e => e ▸ ⟨np, hp⟩) fun e => e ▸ ⟨nq, hq⟩

/-- **The closure is adequate for the encoding.** Over the positive closure of a normal formula
    every formula that a run evaluates has a value, and so has its negation; values mention `TRUE`
    and variables of the state only. What a member promises of a successor has a closure that is no
    larger. -/
theorem closure_suffices (hf : f.IsNormal) :
    ∃ C E, f.closure = .ok C ∧ f.positiveClosure = .ok E ∧
      (∀ u : SymbolicState, u.elementary = E → ∀ g, IsEvaluated f E g →
        ∀ h, (h = g ∨ h = g.negate) →
          ∃ a, u.value h = .ok a ∧ ∀ x ∈ a.names, x = trueName ∨ u.owns x = true) ∧
      ∀ g, .ex g ∈ E → ∃ D, g.closure = .ok D ∧ ∀ e ∈ D, e ∈ C := by
  obtain ⟨C, hC⟩ := exists_closure hf
  obtain ⟨E, hE, within, keeps⟩ := exists_positiveClosure hf
  refine ⟨C, E, hC, hE, fun u hu g hg h hh => ?_, fun g hg => ?_⟩
  · subst hu
    obtain ⟨normal, within⟩ := hg.decided hf within keeps
    have asked : h.Within (· ∈ u.elementary) := by
      rcases hh with rfl | rfl
      · exact within
      · exact (within_negate_iff normal _).2 within
    obtain ⟨a, ha⟩ := SymbolicState.exists_value_iff.2 asked
    exact ⟨a, ha, fun x hx => SymbolicState.names_of_value ha hx⟩
  · rw [positiveClosure, hC] at hE
    cases hE
    exact exists_closure_of_promise hC (OrderedSet.mem_filter.1 hg).1

/-- An "until" on all paths promises a "release" of the negations, which is no subformula of it. It
    has a value, and its closure is no larger. -/
theorem closure_suffices_atLast :
    (∃ a, Tableau.atLastTableau.current.value (.er .falsity (.not (.atom "p"))) = .ok a ∧
      ∀ x ∈ a.names, x = trueName ∨ Tableau.atLastTableau.current.owns x = true) ∧
    ∃ C D, (au .truth (.atom "p")).closure = .ok C ∧
      (er .falsity (.not (.atom "p"))).closure = .ok D ∧ ∀ e ∈ D, e ∈ C := by
  obtain ⟨C, E, hC, hE, values, promises⟩ :=
    closure_suffices (.au (.atom trueName) (.atom "p"))
  have closure := Tableau.ofFormula_atLast
  rw [Tableau.ofFormula, show Tableau.atLast.normalize = au .truth (.atom "p") from rfl, hE]
    at closure
  cases closure
  have promised : .ex (.er .falsity (.not (.atom "p"))) ∈ Tableau.atLastTableau.elementary := by
    decide
  obtain ⟨D, hD, sub⟩ := promises _ promised
  exact ⟨values _ rfl _ (.promise promised) _ (Or.inl rfl), C, D, hC, hD, sub⟩

end Formula

end CtlTableau
