import CtlTableau.Engine.Diagram
import CtlTableau.Proofs.Clauses
import CtlTableau.Proofs.Matrices
import CtlTableau.Proofs.Verdicts

/-!
# Diagrams answer exactly

The engine that builds diagrams refuses a formula at its first path operator (`build_eq_error_iff`)
and builds the diagram of any other (`computes_build`). The diagram of a clause form stands for the
truth of its clauses under its quantifiers, whatever the clauses are like and whichever variables the
prefix binds, once or more often (`computes_clauses`, `computes_bind`). As diagrams are a normal form,
the answer is the truth that does not depend on what is left open, and a fault if there is none
(`Settles`).

Main statement: `diagrams_settle`.
-/

namespace CtlTableau

/-- What an answer about a truth value has to be that may depend on a valuation: the value that is the
    same everywhere, and the fault if there is none. -/
structure Settles {ι : Type} (m : (ι → Bool) → Bool) (fault : Fault) (answer : Except Fault Bool) :
    Prop where
  constant : ∀ b, answer = .ok b ↔ ∀ ρ, m ρ = b
  varies : ∀ e, answer = .error e ↔ e = fault ∧ ∃ ρ τ, m ρ ≠ m τ

/-! ## 1. Formulas without diagram -/

namespace Formula

/-- Whether the root is a path operator. -/
def isPathOperator : Formula → Bool
  | .unary op _ => op != .not
  | .binary op _ _ => !(op == .and || op == .or || op == .imp)
  | _ => false

/-- Boolean formulas are those in which no node is a path operator. -/
theorem isBoolean_iff {f : Formula} :
    f.isBoolean = true ↔ ∀ node ∈ f.preorder, node.isPathOperator = false := by
  induction f with
  | atom x => exact iff_of_true rfl (List.forall_mem_singleton.2 rfl)
  | unary op p ih =>
    rw [preorder, List.forall_mem_cons, ← ih, isBoolean, Bool.and_eq_true]
    exact and_congr_left fun _ => by simp [isPathOperator]
  | binary op p q ihp ihq =>
    rw [preorder, List.forall_mem_cons, List.forall_mem_append, ← ihp, ← ihq, isBoolean,
      Bool.and_eq_true, Bool.and_eq_true]
    exact and_congr_left fun _ => by cases op <;> simp [isPathOperator]
  | quant k x p ih =>
    rw [preorder, List.forall_mem_cons, ← ih]
    exact (and_iff_right rfl).symm

end Formula

namespace DiagramTable

open Formula

variable {t : DiagramTable} {f : Ref} {m : (Nat → Bool) → Bool}

/-- **The first path operator makes the fault**, read from the root and from the left, and there is no
    other fault in building. -/
theorem build_eq_error_iff {levels : Std.HashMap String Nat} {f : Formula} {t : DiagramTable}
    {e : Fault} : build levels f t = .error e ↔
      (f.preorder.find? isPathOperator).map (.unsupported .booleanFormula) = some e := by
  induction f generalizing t e with
  | atom x => exact iff_of_false nofun nofun
  | unary op p ih =>
    by_cases hop : op = .not
    · subst hop
      rw [preorder, List.find?_cons_of_neg Bool.false_ne_true, ← ih (t := t), build, if_pos rfl]
      cases build levels p t <;> simp
    · have refused : (unary op p).isPathOperator = true := bne_iff_ne.2 hop
      rw [preorder, List.find?_cons_of_pos refused, build, if_neg hop, Except.error.injEq,
        Option.map_some, Option.some.injEq]
  | binary op p q ihp ihq =>
    by_cases hop : op = .and ∨ op = .or ∨ op = .imp
    · have taken : ¬ (binary op p q).isPathOperator = true := by
        rcases hop with rfl | rfl | rfl <;> exact Bool.false_ne_true
      rw [preorder, List.find?_cons_of_neg taken, List.find?_append, build, if_pos hop]
      have left := fun e => ihp (t := t) (e := e)
      cases hp : build levels p t with
      | error e' =>
        -- what the left operand is refused for decides
        rw [hp] at left
        obtain ⟨node, hnode, rfl⟩ := Option.map_eq_some_iff.1 ((left e').1 rfl)
        rw [hnode, Option.some_or, Option.map_some, Except.error.injEq, Option.some.injEq]
      | ok r =>
        have none : p.preorder.find? isPathOperator = none := by
          refine Option.eq_none_iff_forall_ne_some.2 fun node hnode => ?_
          have e := (left _).2 (by rw [hnode, Option.map_some])
          rw [hp] at e
          cases e
        rw [none, Option.none_or, ← ihq (t := (if op = .imp then r.2.not r.1 else r).2)]
        dsimp only
        cases build levels q (if op = .imp then r.2.not r.1 else r).2 <;> simp
    · have refused : (binary op p q).isPathOperator = true := by
        cases op <;> first | rfl | exact absurd (by decide) hop
      rw [preorder, List.find?_cons_of_pos refused, build, if_neg hop, Except.error.injEq,
        Option.map_some, Option.some.injEq]
  | quant k x p ih =>
    rw [preorder, List.find?_cons_of_neg Bool.false_ne_true, ← ih (t := t), build]
    cases build levels p t <;> simp

/-! ## 2. Clause forms -/

theorem computes_literal (ht : t.Sound) {l : Int} (hl : l ≠ 0) :
    Computes t (fun ρ => litTrue ρ l) (t.literal l) := by
  have test := computes_test ht l.natAbs
  have e : t.literal l =
      if l < 0 then (t.test l.natAbs).2.not (t.test l.natAbs).1 else t.test l.natAbs := rfl
  rw [e]
  by_cases negative : l < 0
  · have positive : ¬ 0 < l := by omega
    rw [if_pos negative]
    refine (test.andThen (computes_not test.sound test.denotes)).of_eq fun ρ => ?_
    rw [litTrue, decide_eq_false positive]
    cases ρ l.natAbs <;> rfl
  · have positive : 0 < l := by omega
    rw [if_neg negative]
    refine test.of_eq fun ρ => ?_
    rw [litTrue, decide_eq_true positive]
    cases ρ l.natAbs <;> rfl

/-- The diagram of one clause, added to a diagram that is there. -/
theorem computes_clause_from (ht : t.Sound) (hf : t.Denotes f m) {c : List Int}
    (hc : ∀ l ∈ c, l ≠ 0) :
    Computes t (fun ρ => m ρ || clauseTrue ρ c) (c.foldl (fun (f, t) l =>
      let (g, t) := t.literal l
      t.or f g) (f, t)) := by
  induction c generalizing t f m with
  | nil => exact (computes_self ht hf).of_eq fun _ => (Bool.or_false _).symm
  | cons l c ih =>
    have literal := computes_literal ht (hc l List.mem_cons_self)
    have joined := computes_or literal.sound (literal.keeps ht hf) literal.denotes
    have rest := ih joined.sound joined.denotes fun l hl => hc l (List.mem_cons_of_mem _ hl)
    exact (literal.andThen (joined.andThen rest)).of_eq fun _ => Bool.or_assoc _ _ _

theorem computes_clause (ht : t.Sound) {c : List Int} (hc : ∀ l ∈ c, l ≠ 0) :
    Computes t (fun ρ => clauseTrue ρ c) (t.clause c) :=
  (computes_clause_from ht ht.denotes_falsum hc).of_eq fun _ => Bool.false_or _

/-- The diagram of several clauses, added to a diagram that is there. -/
theorem computes_clauses_from (ht : t.Sound) (hf : t.Denotes f m) {cs : List (List Int)}
    (hcs : ∀ c ∈ cs, ∀ l ∈ c, l ≠ 0) :
    Computes t (fun ρ => m ρ && clausesTrue ρ cs) (cs.foldl (fun (f, t) c =>
      let (g, t) := t.clause c
      t.and f g) (f, t)) := by
  induction cs generalizing t f m with
  | nil => exact (computes_self ht hf).of_eq fun _ => (Bool.and_true _).symm
  | cons c cs ih =>
    have clause := computes_clause ht (hcs c List.mem_cons_self)
    have joined := computes_and clause.sound (clause.keeps ht hf) clause.denotes
    have rest := ih joined.sound joined.denotes fun c hc => hcs c (List.mem_cons_of_mem _ hc)
    exact (clause.andThen (joined.andThen rest)).of_eq fun _ => Bool.and_assoc _ _ _

theorem computes_clauses (ht : t.Sound) {cs : List (List Int)} (hcs : ∀ c ∈ cs, ∀ l ∈ c, l ≠ 0) :
    Computes t (fun ρ => clausesTrue ρ cs) (t.clauses cs) :=
  (computes_clauses_from ht ht.denotes_verum hcs).of_eq fun _ => Bool.true_and _

/-- **A prefix over a diagram**: a binder takes the level away from all that are before it. -/
theorem computes_bind (ht : t.Sound) (hf : t.Denotes f m) (binders : List (Quantifier × Nat)) :
    Computes t (truthUnder binders m) (t.bind binders f) := by
  induction binders with
  | nil => exact computes_self ht hf
  | cons b binders ih =>
    obtain ⟨k, l⟩ := b
    cases k with
    | existential => exact ih.andThen (computes_exist ih.sound ih.denotes l)
    | universal => exact ih.andThen (computes_all ih.sound ih.denotes l)

/-! ## 3. Verdicts -/

/-- A verdict settles what the diagram stands for. -/
theorem settles_verdict {ι : Type} {m : (ι → Bool) → Bool} {r : Ref}
    (allTrue : r = verum ↔ ∀ ρ, m ρ = true) (allFalse : r = falsum ↔ ∀ ρ, m ρ = false)
    (fault : Fault) : Settles m fault (verdict r fault) := by
  have constant : ∀ b, verdict r fault = .ok b ↔ ∀ ρ, m ρ = b := by
    intro b
    rw [verdict_eq_ok]
    cases b with
    | false => exact allFalse
    | true => exact allTrue
  refine ⟨constant, fun e => ⟨fun h => ?_, ?_⟩⟩
  · have depends : ¬ ∀ ρ τ, m ρ = m τ := by
      intro same
      have e := (constant (m fun _ => false)).2 fun ρ => same ρ _
      rw [h] at e
      cases e
    push Not at depends
    unfold verdict at h
    split at h
    · cases h
    · split at h <;> cases h
      exact ⟨rfl, depends⟩
  · rintro ⟨rfl, ρ, τ, differ⟩
    have notTrue : r ≠ verum := fun e => differ ((allTrue.1 e ρ).trans (allTrue.1 e τ).symm)
    have notFalse : r ≠ falsum := fun e => differ ((allFalse.1 e ρ).trans (allFalse.1 e τ).symm)
    rw [verdict, if_neg notTrue, if_neg notFalse]

end DiagramTable

open DiagramTable

theorem Formula.settles_diagramVerdict {f : Formula} (hf : f.isBoolean = true) :
    Settles (fun ρ => f.eval ρ) (.freeVariables f.free.toList) f.diagramVerdict := by
  obtain ⟨r, hr, allTrue, allFalse⟩ := f.exists_build hf
  rw [Formula.diagramVerdict, hr]
  exact settles_verdict allTrue allFalse _

theorem Formula.diagramVerdict_of_path {f node : Formula}
    (h : f.preorder.find? Formula.isPathOperator = some node) :
    f.diagramVerdict = .error (.unsupported .booleanFormula node) := by
  rw [Formula.diagramVerdict, build_eq_error_iff.2 (by rw [h, Option.map_some])]

theorem ClauseForm.settles_diagramVerdict {form : ClauseForm}
    (nonzero : ∀ c ∈ form.lists, ∀ l ∈ c, l ≠ 0) :
    Settles (truthUnder form.binders form.matrix) .unboundVariable form.diagramVerdict := by
  have clauses := computes_clauses sound_empty nonzero
  have bound := computes_bind clauses.sound clauses.denotes form.binders
  have constant := verdict_of_denotes bound.sound.toReduced bound.denotes
  exact settles_verdict constant.1 constant.2 _

/-! ## 4. The engine -/

/-- **The engine that builds diagrams answers exactly.** A formula that uses a path operator is
    refused for the first one, read from the root and from the left, and no other formula is refused.
    Any other gets the value that it has under every valuation, and is called open if it has none, by
    its free names. A clause form gets the value that its clauses have under its quantifiers whatever
    the values of unbound variables, and is called open if that depends on them. -/
theorem diagrams_settle :
    (∀ (f : Formula) (t : Tickets) (s : QueryCount),
      ((∃ place node, (Engine.diagram.decide f t false s).answer =
          .error (.unsupported place node)) ↔ ∃ node ∈ f.preorder, node.isPathOperator = true) ∧
      (∀ node, (Engine.diagram.decide f t false s).answer =
          .error (.unsupported .booleanFormula node) ↔
        f.preorder.find? Formula.isPathOperator = some node) ∧
      ((∀ node ∈ f.preorder, node.isPathOperator = false) →
        Settles (fun ρ => f.eval ρ) (.freeVariables f.free.toList)
          (Engine.diagram.decide f t false s).answer)) ∧
    ∀ (form : ClauseForm) (s : QueryCount), (∀ c ∈ form.lists, ∀ l ∈ c, l ≠ 0) →
      Settles (truthUnder form.binders form.matrix) .unboundVariable
        (Engine.clausalDiagram.solve form false s).answer := by
  refine ⟨fun f t s => ?_, fun form s nonzero => form.settles_diagramVerdict nonzero⟩
  have answer : (Engine.diagram.decide f t false s).answer = f.diagramVerdict := rfl
  rw [answer]
  cases h : f.preorder.find? Formula.isPathOperator with
  | some node =>
    have uses : ∃ node ∈ f.preorder, node.isPathOperator = true :=
      ⟨node, List.mem_of_find?_eq_some h, List.find?_some h⟩
    rw [Formula.diagramVerdict_of_path h]
    refine ⟨iff_of_true ⟨_, _, rfl⟩ uses, fun node' => by simp, fun none => ?_⟩
    obtain ⟨node, hmem, hpath⟩ := uses
    rw [none node hmem] at hpath
    cases hpath
  | none =>
    have none : ∀ node ∈ f.preorder, node.isPathOperator = false := fun node hnode =>
      Bool.eq_false_iff.2 (List.find?_eq_none.1 h node hnode)
    have settled := f.settles_diagramVerdict (Formula.isBoolean_iff.2 none)
    have taken : ∀ place node, f.diagramVerdict ≠ .error (.unsupported place node) := by
      intro place node refused
      obtain ⟨e, -⟩ := (settled.varies _).1 refused
      cases e
    refine ⟨iff_of_false ?_ ?_, fun node => iff_of_false (taken _ node) nofun, fun _ => settled⟩
    · rintro ⟨place, node, refused⟩
      exact taken place node refused
    · rintro ⟨node, hmem, hpath⟩
      rw [none node hmem] at hpath
      cases hpath

/-- "For every TRUE, TRUE, and x implies x for some x". -/
def constantBound : Formula :=
  .all Formula.trueName (.and .truth (.exist "x" (.imp (.atom "x") (.atom "x"))))

/-- Both signs of a variable without binder, and a variable with two. -/
def boundTwice : ClauseForm :=
  .ofLists [(.existential, 1), (.universal, 1)] [[2, -2], [1]] 2

/-- A binder does not make the constant a variable, and the inner of two binders counts; an open
    formula and one with path operators have no answer. -/
theorem diagrams_settle_boundTwice :
    (Engine.diagram.decide constantBound .start false {}).answer = .ok true ∧
    (Engine.diagram.decide (.and (.atom "p") constantBound) .start false {}).answer =
      .error (.freeVariables ["p"]) ∧
    (Engine.diagram.decide (.or constantBound (.and (.ex (.atom "p")) (.ef (.atom "p")))) .start
      false {}).answer = .error (.unsupported .booleanFormula (.ex (.atom "p"))) ∧
    (Engine.clausalDiagram.solve boundTwice false {}).answer = .ok false := by
  obtain ⟨formulas, forms⟩ := diagrams_settle
  have closed : ∀ ρ, constantBound.eval ρ = true := fun ρ => by
    simp [constantBound, Formula.eval]
  have nonzero : ∀ c ∈ boundTwice.lists, ∀ l ∈ c, l ≠ 0 := by
    intro c hc l hl
    obtain ⟨d, hd, rfl⟩ := ClauseForm.mem_lists_ofLists.1 hc
    have given : ∀ d ∈ [[2, -2], [(1 : Int)]], ∀ l ∈ d, l ≠ 0 := by decide
    exact given d hd l (OrderedSet.mem_ofList.1 hl)
  have free : ["p"] = (Formula.and (.atom "p") constantBound).free.toList := by decide +kernel
  refine ⟨?_, ?_, ?_, ?_⟩
  · exact (((formulas constantBound .start {}).2.2 (by decide)).constant true).2 closed
  · refine (((formulas (.and (.atom "p") constantBound) .start {}).2.2 (by decide)).varies _).2
      ⟨congrArg _ free, fun _ => false, fun _ => true, ?_⟩
    simp [closed, Formula.eval_atom (show "p" ≠ Formula.trueName by decide)]
  · exact ((formulas _ .start {}).2.1 (.ex (.atom "p"))).2 rfl
  · refine ((forms boundTwice {} nonzero).constant false).2 fun ρ => ?_
    have matrix : ∀ τ, boundTwice.matrix τ = clausesTrue τ [[2, -2], [1]] :=
      ClauseForm.matrix_ofLists _ _ _
    have binders : boundTwice.binders = [(.existential, 1), (.universal, 1)] := rfl
    simp [binders, truthUnder, Quantifier.join, matrix, clausesTrue, clauseTrue, litTrue]

end CtlTableau
