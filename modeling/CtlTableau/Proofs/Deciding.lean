import CtlTableau.Engine.Diagram
import CtlTableau.Proofs.ByteOrder
import CtlTableau.Proofs.NormalForms
import CtlTableau.Proofs.Search
import CtlTableau.Proofs.Verdicts

/-!
# Deciding formulas

Both ways of deciding a quantified boolean formula give its truth. By way of negation normal form,
prenex form and clause form a closed formula comes to a proper clause form with its truth
(`exists_properForm`), which expansion finds; a formula with free names is refused before an engine
for clause forms is asked (`decide_of_free`). Diagrams decide the formula as it is.

A formula is fit for both ways if no quantifier binds the constant and no name could be drawn.
-/

namespace CtlTableau

namespace Formula

/-! ## 1. The matrix of a prenex form -/

theorem mem_freeNames_iff_matrix {f : Formula} {x : String} :
    x ∈ f.freeNames ↔ x ∈ f.matrix.freeNames ∧ ∀ b ∈ f.binders, b.2 ≠ x := by
  induction f with
  | quant k y p ih =>
    rw [freeNames, List.mem_filter, ih, matrix, binders, bne_iff_ne, List.forall_mem_cons]
    constructor
    · rintro ⟨⟨h, h'⟩, hne⟩
      exact ⟨h, Ne.symm hne, h'⟩
    · rintro ⟨h, hne, h'⟩
      exact ⟨⟨h, h'⟩, Ne.symm hne⟩
  | _ => simp [matrix, binders]

variable {f : Formula} {t : Tickets}

/-- A boolean formula has a prenex form with its free names and values. -/
theorem exists_prenex (hb : f.isBoolean = true) (plain : trueName ∉ f.boundNames)
    (older : f.OlderThan t.next) :
    ∃ g t', f.nnf.prenex t = (.ok g, t') ∧ Pulled t f (g, t') := by
  obtain ⟨names, free, bound⟩ := names_signed f true
  obtain ⟨g, t', hg, h⟩ := prenex_agrees (isBoolean_signed hb true) (isNnf_signed true f)
    (bound ▸ plain) fun x hx => older x (names ▸ hx)
  have same : (f.signed true).AgreesWith f :=
    ⟨fun x => by rw [free], fun ρ => (eval_signed hb true ρ).trans (beq_true _)⟩
  exact ⟨g, t', hg, h.le, h.below, h.agrees.trans same⟩

/-- The names of the matrix that are free in a prenex form. -/
theorem PrenexBelow.mem_free_iff {n : Nat} {g : Formula} (h : g.PrenexBelow n) {x : String} :
    x ∈ g.freeNames ↔ x ∈ g.matrix.names ∧ ∀ b ∈ g.binders, b.2 ≠ x := by
  rw [mem_freeNames_iff_matrix, freeNames_of_isPropositional h.matrix]

/-- **A closed formula has a clause form with its truth.** -/
theorem exists_properForm (hb : f.isBoolean = true) (plain : trueName ∉ f.boundNames)
    (older : f.OlderThan t.next) (closed : ∀ x ∈ f.freeNames, x = trueName) :
    ∃ g t' form, f.nnf.prenex t = (.ok g, t') ∧ g.toClauseForm = .ok form ∧
      form.Proper ∧ form.isTrue = f.isValid := by
  obtain ⟨g, t', hg, h⟩ := exists_prenex hb plain older
  have bound : ∀ x ∈ g.matrix.names, x ≠ trueName → ∃ b ∈ g.binders, b.2 = x := by
    intro x hx hne
    by_contra hb
    refine hne (closed x ((h.agrees.free x).1 (h.below.mem_free_iff.2 ⟨hx, fun b hm e => ?_⟩)))
    exact hb ⟨b, hm, e⟩
  obtain ⟨c, hc, inputs, value⟩ := Numbering.exists_circuit_bound h.below.matrix bound
  have form := Numbering.toClauseForm_of_bound h.below.matrix hc bound
  have truth := Numbering.isTrue_form h.below.matrix bound inputs value
  rw [bindAll_binders] at form truth
  exact ⟨g, t', _, hg, form, Numbering.proper_form inputs, truth.trans (h.agrees.value _)⟩

/-- A formula with free names has no clause form; the least of them is reported. -/
theorem toClauseForm_of_free (hb : f.isBoolean = true) (plain : trueName ∉ f.boundNames)
    (older : f.OlderThan t.next) {x : String} (hx : x ∈ f.freeNames) (hne : x ≠ trueName)
    (least : ∀ y ∈ f.freeNames, y ≠ trueName → (compare x y).isLE = true) :
    ∃ g t', f.nnf.prenex t = (.ok g, t') ∧ g.toClauseForm = .error (.freeVariable x) := by
  obtain ⟨g, t', hg, h⟩ := exists_prenex hb plain older
  have free : ∀ y, y ∈ f.freeNames ↔ y ∈ g.matrix.names ∧ ∀ b ∈ g.binders, b.2 ≠ y := fun y =>
    (h.agrees.free y).symm.trans h.below.mem_free_iff
  have hx := (free x).1 hx
  refine ⟨g, t', hg, ?_⟩
  rw [← bindAll_binders g]
  exact Numbering.toClauseForm_of_unbound h.below.matrix ⟨hx.1, hne, hx.2⟩ fun y hy hne hb =>
    least y ((free y).2 ⟨hy, hb⟩) hne

/-- The least free name that is not the constant. -/
theorem exists_least_free (h : ∃ x ∈ f.freeNames, x ≠ trueName) :
    ∃ x ∈ f.freeNames, x ≠ trueName ∧
      ∀ y ∈ f.freeNames, y ≠ trueName → (compare x y).isLE = true := by
  obtain ⟨z, hz, hne⟩ := h
  cases hfind : f.free.toList.find? (· != trueName) with
  | none =>
    exact absurd (by simpa using hne) (List.find?_eq_none.1 hfind z (mem_free.2 hz))
  | some x =>
    obtain ⟨hx, hne, least⟩ := OrderedSet.find?_eq_some_iff.1 hfind
    exact ⟨x, mem_free.1 hx, by simpa using hne, fun y hy h => least y (mem_free.2 hy) (by simpa)⟩

end Formula

/-! ## 2. Engines -/

open Formula

variable {f : Formula} {t : Tickets}

/-- An engine for clause forms answers as it does for a proper clause form with the truth of the
    formula. -/
theorem ClausalEngine.decide_of_closed (hb : f.isBoolean = true)
    (plain : trueName ∉ f.boundNames) (older : f.OlderThan t.next)
    (closed : ∀ x ∈ f.freeNames, x = trueName) :
    ∃ form t', form.Proper ∧ form.isTrue = f.isValid ∧
      ∀ {σ : Type} (engine : ClausalEngine σ) (cancelled : Bool) (s : σ),
        (engine.decide f t cancelled s).toOutcome =
          { engine.solve form cancelled s with
            log := (engine.decide f t cancelled s).log } ∧
        (engine.decide f t cancelled s).tickets = t' := by
  obtain ⟨g, t', form, hg, hform, proper, truth⟩ := exists_properForm hb plain older closed
  refine ⟨form, t', proper, truth, fun engine cancelled s => ?_⟩
  simp [ClausalEngine.decide, hg, hform]

/-- An engine that finds no clause form true finds no formula true. -/
theorem ClausalEngine.decide_ne_true {σ : Type} {engine : ClausalEngine σ}
    (never : ∀ form c s, (engine.solve form c s).answer ≠ .ok true) (f : Formula) (t : Tickets)
    (c : Bool) (s : σ) : (engine.decide f t c s).answer ≠ .ok true := by
  unfold ClausalEngine.decide
  split
  · exact nofun
  · split
    · exact nofun
    · exact never _ c s

/-- An engine for clause forms is not asked about a formula with free names. -/
theorem ClausalEngine.decide_of_free (hb : f.isBoolean = true) (plain : trueName ∉ f.boundNames)
    (older : f.OlderThan t.next) {x : String} (hx : x ∈ f.freeNames) (hne : x ≠ trueName)
    (least : ∀ y ∈ f.freeNames, y ≠ trueName → (compare x y).isLE = true) :
    ∃ t', ∀ {σ : Type} (engine : ClausalEngine σ) (cancelled : Bool) (s : σ),
      engine.decide f t cancelled s =
        { answer := .error (.freeVariable x), engine := s, cancelled, tickets := t' } := by
  obtain ⟨g, t', hg, hform⟩ := toClauseForm_of_free hb plain older hx hne least
  refine ⟨t', fun engine cancelled s => ?_⟩
  simp only [ClausalEngine.decide, hg, hform]

/-- Expansion gives the truth of a closed formula. -/
theorem Engine.expansion_answer (hb : f.isBoolean = true) (plain : trueName ∉ f.boundNames)
    (older : f.OlderThan t.next) (closed : ∀ x ∈ f.freeNames, x = trueName) (s : QueryCount) :
    (Engine.expansion.decide f t false s).answer = .ok f.isValid := by
  obtain ⟨form, t', proper, truth, h⟩ := ClausalEngine.decide_of_closed hb plain older closed
  rw [(h Engine.expansion false s).1, ← truth, ← ClauseForm.expansion_eq_isTrue proper]
  rfl

/-- A closed formula has one value. -/
theorem Formula.eval_of_closed (closed : ∀ x ∈ f.freeNames, x = trueName) (ρ : String → Bool) :
    f.eval ρ = f.isValid :=
  eval_congr fun x hx hne => absurd (closed x hx) hne

/-- Diagrams give the truth of a closed formula. -/
theorem Engine.diagram_answer (hb : f.isBoolean = true)
    (closed : ∀ x ∈ f.freeNames, x = trueName) (t : Tickets) (s : QueryCount) :
    (Engine.diagram.decide f t false s).answer = .ok f.isValid :=
  (diagramVerdict_eq_ok hb f.isValid).2 (eval_of_closed closed)

/-! ## 3. Both ways agree -/

/-- **The two ways of deciding agree and are right.** On a quantified boolean formula whose names hold
    no prime and whose quantifiers do not bind the constant, wherever the counter stands: if all names
    are bound, expansion of the clause form and diagrams both give the truth. Else every engine for
    clause forms reports the free name with the least bytes and stays as it was, as it is never
    asked; and diagrams give a value exactly if that is the value under every valuation, and report
    the free names if there is none. -/
theorem decisions_agree {f : Formula} (hboolean : f.isBoolean = true)
    (hprimes : ∀ x ∈ f.names, '\'' ∉ x.toList) (hbinders : trueName ∉ f.boundNames) (t : Tickets)
    (s : QueryCount) :
    ((∀ x ∈ f.freeNames, x = trueName) →
      (Engine.expansion.decide f t false s).answer = .ok f.isValid ∧
        (Engine.diagram.decide f t false s).answer = .ok f.isValid) ∧
    ((∃ x ∈ f.freeNames, x ≠ trueName) →
      (∃ x ∈ f.freeNames, x ≠ trueName ∧
        (∀ y ∈ f.freeNames, y ≠ trueName → x.toUTF8.data.toList ≤ y.toUTF8.data.toList) ∧
        ∃ t', ∀ {σ : Type} (engine : ClausalEngine σ) (cancelled : Bool) (u : σ),
          engine.decide f t cancelled u =
            { answer := .error (.freeVariable x), engine := u, cancelled, tickets := t' }) ∧
      (∀ b, (Engine.diagram.decide f t false s).answer = .ok b ↔ ∀ ρ, f.eval ρ = b) ∧
      ((∀ b, ¬ ∀ ρ, f.eval ρ = b) →
        (Engine.diagram.decide f t false s).answer = .error (.freeVariables f.free.toList))) := by
  have older := olderThan_of_plain hprimes t.next
  refine ⟨fun closed => ⟨?_, ?_⟩, fun opened => ⟨?_, ?_, ?_⟩⟩
  · exact Engine.expansion_answer hboolean hbinders older closed s
  · exact Engine.diagram_answer hboolean closed t s
  · obtain ⟨x, hx, hne, least⟩ := exists_least_free opened
    refine ⟨x, hx, hne, fun y hy h => (compare_isLE_iff_bytes x y).1 (least y hy h), ?_⟩
    exact ClausalEngine.decide_of_free hboolean hbinders older hx hne least
  · exact diagramVerdict_eq_ok hboolean
  · exact diagramVerdict_eq_error hboolean

/-- `x -> E y. (y & ~x | E x. x)`: `x` is free and bound again, and the value does not depend on it. -/
def rebound : Formula :=
  .imp (.atom "x")
    (.exist "y" (.or (.and (.atom "y") (.not (.atom "x"))) (.exist "x" (.atom "x"))))

theorem decisions_agree_rebound :
    ((Formula.all "x" rebound).isBoolean = true ∧
      (∀ x ∈ (Formula.all "x" rebound).names, '\'' ∉ x.toList) ∧
      trueName ∉ (Formula.all "x" rebound).boundNames) ∧
    (Engine.expansion.decide (.all "x" rebound) .start false {}).answer = .ok true ∧
      (Engine.diagram.decide (.all "x" rebound) .start false {}).answer = .ok true ∧
      (Engine.diagram.decide rebound .start false {}).answer = .ok true := by
  refine ⟨⟨by decide, by decide, by decide⟩, ?_⟩
  have closed := (decisions_agree (f := .all "x" rebound) (by decide) (by decide) (by decide)
    .start {}).1 (by decide)
  have opened := (decisions_agree (f := rebound) (by decide) (by decide) (by decide)
    .start {}).2 ⟨"x", by decide, by decide⟩
  refine ⟨closed.1, closed.2, (opened.2.1 true).2 fun ρ => ?_⟩
  simp [rebound, eval]

end CtlTableau
