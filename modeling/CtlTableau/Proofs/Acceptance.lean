import CtlTableau.Proofs.Adequacy
import CtlTableau.Proofs.Normalizing

/-!
# Which formulas are accepted

Two things are told by the shape of a formula alone: whether it has an elementary closure, and whether
it has a tableau. A closure is collected from the root to the leaves and from the left to the right, so
the first node in this order that it does not take makes the fault, whatever stands after it
(`elementaryList_eq_error_iff`).

A tableau takes the closure of the normalized formula. There negations stand at atoms, and implication
and the derived operators are gone, although moving negations down can turn one of these into another;
so the first fault that is left to find is a quantifier (`closureRefusal_eq_none_iff`).

Main statement: `accepted_by_shape`.
-/

namespace CtlTableau

namespace Formula

/-! ## 1. Operators -/

/-- The operators that elementary closures are made for. -/
def closureOperators : List Operator :=
  [.variable, .unary .not, .binary .and, .binary .or, .unary .ex, .unary .ax, .binary .eu,
    .binary .au, .binary .er, .binary .ar]

theorem unary_mem_closureOperators {op : UnaryOp} :
    .unary op ∈ closureOperators ↔ op.isCore = true := by
  cases op <;> decide

theorem binary_mem_closureOperators {op : BinaryOp} :
    .binary op ∈ closureOperators ↔ op.isCore = true := by
  cases op <;> decide

theorem quantifier_not_mem_closureOperators (k : Quantifier) :
    .quantifier k ∉ closureOperators := by
  cases k <;> decide

variable {f g : Formula} {e : Fault}

/-- Quantifiers are seen at the nodes. -/
theorem isTemporal_iff :
    f.isTemporal = true ↔ ∀ g ∈ f.preorder, ∀ k, g.operator ≠ .quantifier k := by
  induction f with
  | atom x => exact iff_of_true rfl (List.forall_mem_singleton.2 fun k h => by cases h)
  | unary op p ih =>
    have root : ∀ k, (unary op p).operator ≠ .quantifier k := fun k h => by cases h
    rw [preorder, List.forall_mem_cons, ← ih, and_iff_right root, isTemporal]
  | binary op p q ihp ihq =>
    have root : ∀ k, (binary op p q).operator ≠ .quantifier k := fun k h => by cases h
    rw [preorder, List.forall_mem_cons, List.forall_mem_append, ← ihp, ← ihq, and_iff_right root,
      isTemporal, Bool.and_eq_true]
  | quant k x p =>
    refine iff_of_false Bool.false_ne_true fun h => ?_
    exact h (.quant k x p) List.mem_cons_self k rfl

/-- The formulas over these operators are those without quantifiers and derived operators. -/
theorem forall_operator_mem_iff : (∀ g ∈ f.preorder, g.operator ∈ closureOperators) ↔
    f.isTemporal = true ∧ f.isCore = true := by
  induction f with
  | atom x =>
    have root : (atom x).operator ∈ closureOperators := List.mem_cons_self
    exact iff_of_true (List.forall_mem_singleton.2 root) ⟨rfl, rfl⟩
  | unary op p ih =>
    rw [preorder, List.forall_mem_cons, ih, operator, unary_mem_closureOperators, isTemporal, isCore,
      Bool.and_eq_true]
    tauto
  | binary op p q ihp ihq =>
    rw [preorder, List.forall_mem_cons, List.forall_mem_append, ihp, ihq, operator,
      binary_mem_closureOperators, isTemporal, isCore, Bool.and_eq_true, Bool.and_eq_true,
      Bool.and_eq_true]
    tauto
  | quant k x p =>
    refine iff_of_false (fun h => ?_) fun h => Bool.false_ne_true h.1
    exact quantifier_not_mem_closureOperators k (h (.quant k x p) List.mem_cons_self)

theorem isCore_of_mem_preorder (h : f.isCore = true) : ∀ g ∈ f.preorder, g.isCore = true := by
  refine forall_mem_preorder (fun op p h => ?_) (fun op p q h => ?_) (fun k x p h => h) h
  · exact (Bool.and_eq_true_iff.1 h).2
  · exact Bool.and_eq_true_iff.1 (Bool.and_eq_true_iff.1 h).2

/-! ## 2. Faults of a closure -/

/-- Why no closure takes a node: it denies something that is no atom, or its operator is a derived
    one or a quantifier. -/
def closureRefusal : Formula → Option Fault
  | .atom _ => none
  | .unary op p =>
    match op with
    | .not => if p.isAtom then none else some (.notInNnf (.not p))
    | .ex | .ax => none
    | _ => some (.unsupported .elementaryClosure (.unary op p))
  | .binary op p q =>
    if op = .imp then some (.unsupported .elementaryClosure (.imp p q)) else none
  | .quant k x p => some (.unsupported .elementaryClosure (.quant k x p))

/-- If the root is refused, this makes the fault. -/
theorem elementaryList_of_refused (h : f.closureRefusal = some e) :
    f.elementaryList = .error e := by
  cases f with
  | atom x => cases h
  | unary op p =>
    cases op with
    | not => cases p <;> cases h <;> rfl
    | ex | ax => cases h
    | _ => cases h; rfl
  | binary op p q =>
    cases op with
    | imp => cases h; rfl
    | _ => cases h
  | quant k x p => cases h; rfl

theorem elementaryList_eq_error_iff_of_refused {e' : Fault} (h : f.closureRefusal = some e') :
    f.elementaryList = .error e ↔ f.preorder.findSome? closureRefusal = some e := by
  rw [findSome?_preorder h, elementaryList_of_refused h, Except.error.injEq, Option.some.injEq]

/-- **The first node that no closure takes makes the fault**, and there is no other fault. -/
theorem elementaryList_eq_error_iff :
    f.elementaryList = .error e ↔ f.preorder.findSome? closureRefusal = some e := by
  induction f generalizing e with
  | atom x => exact iff_of_false (fun h => by cases h) fun h => by cases h
  | unary op p ih =>
    cases op with
    | not =>
      cases p with
      | atom x => exact iff_of_false (fun h => by cases h) fun h => by cases h
      | _ => exact elementaryList_eq_error_iff_of_refused rfl
    | ex | ax =>
      rw [preorder, List.findSome?_cons, closureRefusal, ← ih, elementaryList]
      cases p.elementaryList <;> simp
    | _ => exact elementaryList_eq_error_iff_of_refused rfl
  | binary op p q ihp ihq =>
    by_cases hop : op = .imp
    · exact elementaryList_eq_error_iff_of_refused (if_pos hop)
    · rw [preorder, List.findSome?_cons, closureRefusal, if_neg hop, List.findSome?_append,
        elementaryList, if_neg hop]
      cases hp : p.elementaryList with
      | error e' => rw [ihp.1 hp, Except.error.injEq, Option.some_or, Option.some.injEq]
      | ok es =>
        have accepted : p.preorder.findSome? closureRefusal = none :=
          Option.eq_none_iff_forall_ne_some.2 fun e' h => by cases hp.symm.trans (ihp.2 h)
        rw [accepted, Option.none_or, ← ihq]
        cases q.elementaryList <;> simp
  | quant k x p => exact elementaryList_eq_error_iff_of_refused rfl

/-- With negations at atoms and without derived operators only quantifiers are refused. -/
theorem closureRefusal_eq_none_iff (core : g.isCore = true) (nnf : g.isNnf = true) :
    g.closureRefusal = none ↔ ∀ k, g.operator ≠ .quantifier k := by
  cases g with
  | atom x => exact iff_of_true rfl fun k h => by cases h
  | unary op p =>
    refine iff_of_true ?_ fun k h => by cases h
    cases op with
    | not => exact if_pos nnf
    | ex | ax => rfl
    | _ => cases (Bool.and_eq_true_iff.1 core).1
  | binary op p q => exact iff_of_true (if_neg (isNnf_binary_iff.1 nnf).1) fun k h => by cases h
  | quant k x p => exact iff_of_false (fun h => by cases h) fun h => h k rfl

end Formula

/-! ## 3. Acceptance -/

namespace Tableau

open Formula

variable {f : Formula} {e : Fault}

theorem ofFormula_eq_error_iff :
    ofFormula f = .error e ↔ f.normalize.preorder.findSome? closureRefusal = some e := by
  rw [← elementaryList_eq_error_iff, ofFormula, positiveClosure, Formula.closure]
  cases f.normalize.elementaryList <;> simp [Except.map]

/-- **Formulas are accepted by their shape.** The closure takes exactly the formulas with negations at
    atoms that are built from atoms, negation, conjunction, disjunction, and "next", "until" and
    "release" of both kinds. The tableau takes exactly the formulas without quantifiers, whatever else
    they are built from. The only fault in making it is that a closure has no place for a quantifier,
    and the quantifier is the first one in the normalized formula, from the root and from the left. -/
theorem accepted_by_shape (f : Formula) :
    ((∃ C, f.closure = .ok C) ↔
      f.isNnf = true ∧ ∀ g ∈ f.preorder, g.operator ∈ closureOperators) ∧
    ((∃ T, ofFormula f = .ok T) ↔ ∀ g ∈ f.preorder, ∀ k, g.operator ≠ .quantifier k) ∧
    ∀ e, ofFormula f = .error e ↔
      ∃ before k x p after, f.normalize.preorder = before ++ .quant k x p :: after ∧
        (∀ g ∈ before, ∀ k, g.operator ≠ .quantifier k) ∧
        e = .unsupported .elementaryClosure (.quant k x p) := by
  refine ⟨?_, ?_, fun e => ?_⟩
  · have normal : (∃ C, f.closure = .ok C) ↔ f.IsNormal :=
      ⟨fun h => h.elim fun C hC => (closure_eq_ok_iff.1 hC).1, exists_closure⟩
    rw [normal, isNormal_iff, forall_operator_mem_iff]
    tauto
  · rw [← isTemporal_iff]
    constructor
    · intro h
      obtain ⟨T, hT⟩ := h
      exact isTemporal_of_ofFormula hT
    · intro h
      obtain ⟨T, hT, -⟩ := exists_ofFormula h
      exact ⟨T, hT⟩
  · have plain := fun g (hg : g ∈ f.normalize.preorder) =>
      closureRefusal_eq_none_iff (isCore_of_mem_preorder f.isCore_normalize g hg)
        (isNnf_of_mem_preorder f.isNnf_normalize g hg)
    rw [ofFormula_eq_error_iff, List.findSome?_eq_some_iff]
    constructor
    · intro h
      obtain ⟨before, node, after, split, refused, accepted⟩ := h
      have earlier : ∀ g ∈ before, g ∈ f.normalize.preorder := fun g hg =>
        split ▸ List.mem_append_left _ hg
      have hnode : node ∈ f.normalize.preorder := split ▸ List.mem_append_right _ List.mem_cons_self
      cases node with
      | quant k x p =>
        cases refused
        exact ⟨before, k, x, p, after, split, fun g hg => (plain g (earlier g hg)).1 (accepted g hg),
          rfl⟩
      | _ => cases refused.symm.trans ((plain _ hnode).2 fun k h => by cases h)
    · intro h
      obtain ⟨before, k, x, p, after, split, none, rfl⟩ := h
      refine ⟨before, .quant k x p, after, split, rfl, fun g hg => ?_⟩
      exact (plain g (split ▸ List.mem_append_left _ hg)).2 (none g hg)

/-- It is not so that where `p` stays every `x` is followed by something, or some `z` is true. -/
def deniedQuantifiers : Formula :=
  .not (.imp (.ag (.atom "p")) (.or (.all "x" (.exist "y" (.ex (.atom "x"))))
    (.exist "z" (.atom "z"))))

/-- What stays, the implication and the negations are no hindrance. The first quantifier is reported,
    as the dual that the negation in front of it makes of it; without the quantifiers there would be a
    tableau. The formula itself has no closure, as its negation stands at an implication. -/
theorem accepted_by_shape_deniedQuantifiers :
    ofFormula deniedQuantifiers =
      .error (.unsupported .elementaryClosure (.exist "x" (.all "y" (.ax (.not (.atom "x")))))) ∧
    (∃ T, ofFormula (.not (.imp (.ag (.atom "p")) (.ex (.atom "x")))) = .ok T) ∧
    ¬ ∃ C, deniedQuantifiers.closure = .ok C := by
  obtain ⟨closed, -, refused⟩ := accepted_by_shape deniedQuantifiers
  obtain ⟨-, made, -⟩ := accepted_by_shape (.not (.imp (.ag (.atom "p")) (.ex (.atom "x"))))
  have first : ∀ g ∈ deniedQuantifiers.normalize.preorder.take 6, ∀ k,
      g.operator ≠ .quantifier k := by
    intro g hg k
    revert g
    cases k <;> decide
  refine ⟨(refused _).2 ⟨deniedQuantifiers.normalize.preorder.take 6, _, _, _,
    deniedQuantifiers.normalize.preorder.drop 7, rfl, first, rfl⟩, made.2 (isTemporal_iff.1 rfl),
    fun h => ?_⟩
  exact Bool.false_ne_true (closed.1 h).1

end Tableau

end CtlTableau
