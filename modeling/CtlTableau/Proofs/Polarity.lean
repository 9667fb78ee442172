import CtlTableau.Proofs.Closure
import CtlTableau.Proofs.Matrices
import Mathlib.Data.List.Perm.Subperm

/-!
# Polarity

To evaluate a formula is to decide a few elementary ones, at most one for each of its nodes: atoms
other than `TRUE`, "next" formulas, and the "next" formulas that carry an "until" or a "release"
(`decisions`). The elementary closure is these with their negations (`elementaryList_eq`).

A formula and its negation have nodes of different shapes, and yet they decide the same: where the
one decides a "next" formula, the other decides the negation of it (`decisions_negate`). So the
closure does not tell them apart, and it falls into two halves of one size, which negation
exchanges.

Main statement: `closure_halves`.
-/

namespace CtlTableau

namespace Formula

/-! ## 1. Nodes -/

theorem length_preorder (f : Formula) : f.preorder.length = f.size := by
  induction f with
  | atom x => rfl
  | unary op p ih => rw [preorder, List.length_cons, ih, size, Nat.add_comm]
  | binary op p q ihp ihq =>
    rw [preorder, List.length_cons, List.length_append, ihp, ihq, size]
    omega
  | quant k x p ih => rw [preorder, List.length_cons, ih, size, Nat.add_comm]

/-- The nodes of a node are nodes of the whole. -/
theorem preorder_subset {f g : Formula} (h : g ∈ f.preorder) : g.preorder ⊆ f.preorder := by
  induction f with
  | atom x =>
    rw [List.mem_singleton.1 h]
    exact List.Subset.refl _
  | unary op p ih | quant _ _ p ih =>
    rcases List.mem_cons.1 h with rfl | h
    · exact List.Subset.refl _
    · exact List.subset_cons_of_subset _ (ih h)
  | binary op p q ihp ihq =>
    rcases List.mem_cons.1 h with rfl | h
    · exact List.Subset.refl _
    · refine List.subset_cons_of_subset _ ?_
      rcases List.mem_append.1 h with h | h
      · exact List.subset_append_of_subset_left _ (ihp h)
      · exact List.subset_append_of_subset_right _ (ihq h)

/-- The nodes of a normal formula are normal. -/
theorem IsNormal.of_mem_preorder {f g : Formula} (hf : f.IsNormal) (hg : g ∈ f.preorder) :
    g.IsNormal := by
  refine forall_mem_preorder (fun op p h => ?_) (fun op p q h => ?_) (fun k x p h => ?_) hf g hg
  · cases h with
    | not x => exact .atom x
    | ex hp => exact hp
    | ax hp => exact hp
  · cases h with
    | and hp hq | or hp hq | eu hp hq | au hp hq | er hp hq | ar hp hq => exact ⟨hp, hq⟩
  · cases h

/-! ## 2. Decisions -/

/-- The elementary formula that a node adds to those that its arguments ask for. -/
def decision? : Formula → Option Formula
  | .atom x => if x = trueName then none else some (.atom x)
  | .ex p => some (.ex p)
  | .ax p => some (.ax p)
  | .binary op p q => (carrier? op).map fun next => .unary next (.binary op p q)
  | _ => none

theorem decision?_atom {x : String} {d : Formula} :
    (atom x).decision? = some d ↔ x ≠ trueName ∧ d = .atom x := by
  by_cases hx : x = trueName <;> simp [decision?, hx, eq_comm]

/-- What is decided in order to evaluate a formula, node by node. -/
def decisions (f : Formula) : List Formula := f.preorder.filterMap decision?

@[simp] theorem decisions_atom (x : String) :
    (atom x).decisions = if x = trueName then [] else [.atom x] := by
  by_cases e : x = trueName <;> simp [decisions, preorder, decision?, e]

@[simp] theorem decisions_not (p : Formula) : (not p).decisions = p.decisions := rfl
@[simp] theorem decisions_ex (p : Formula) : (ex p).decisions = ex p :: p.decisions := rfl
@[simp] theorem decisions_ax (p : Formula) : (ax p).decisions = ax p :: p.decisions := rfl

@[simp] theorem decisions_binary (op : BinaryOp) (p q : Formula) : (binary op p q).decisions =
    ((carrier? op).map fun next => unary next (binary op p q)).toList ++
      (p.decisions ++ q.decisions) := by
  rw [decisions, preorder, List.filterMap_cons, List.filterMap_append, decision?]
  cases carrier? op <;> rfl

theorem length_decisions_le (f : Formula) : f.decisions.length ≤ f.size :=
  f.length_preorder ▸ List.length_filterMap_le decision? f.preorder

theorem mem_decisions {f d : Formula} :
    d ∈ f.decisions ↔ ∃ g ∈ f.preorder, g.decision? = some d :=
  List.mem_filterMap

/-- Nodes decide no more than the whole. -/
theorem decisions_subset {f g : Formula} (h : g ∈ f.preorder) : g.decisions ⊆ f.decisions := by
  intro d hd
  obtain ⟨node, hnode, e⟩ := mem_decisions.1 hd
  exact mem_decisions.2 ⟨node, preorder_subset h hnode, e⟩

/-- What closures are made of: atoms other than `TRUE` and their negations, and normal "next"
    formulas. -/
inductive IsElementary : Formula → Prop where
  | atom {x : String} (hx : x ≠ trueName) : IsElementary (.atom x)
  | not {x : String} (hx : x ≠ trueName) : IsElementary (.not (.atom x))
  | ex {p : Formula} (hp : p.IsNormal) : IsElementary (.ex p)
  | ax {p : Formula} (hp : p.IsNormal) : IsElementary (.ax p)

namespace IsElementary

variable {e : Formula}

theorem isNormal (h : e.IsElementary) : e.IsNormal := by
  cases h with
  | atom _ => exact .atom _
  | not _ => exact .not _
  | ex hp => exact .ex hp
  | ax hp => exact .ax hp

theorem negate (h : e.IsElementary) : e.negate.IsElementary := by
  cases h with
  | atom hx => exact .not hx
  | not hx => exact .atom hx
  | ex hp => exact .ax hp.negate
  | ax hp => exact .ex hp.negate

/-- Negation leads from one half of the closure to the other. -/
theorem isPositiveElementary_negate (h : e.IsElementary) :
    e.negate.isPositiveElementary = !e.isPositiveElementary := by
  cases h with
  | atom hx | not hx => simp [isPositiveElementary, hx]
  | ex _ | ax _ => rfl

theorem ne_constant (h : e.IsElementary) : e ≠ truth ∧ e ≠ falsity := by
  cases h with
  | atom hx | not hx => simp [hx]
  | ex _ | ax _ => simp

end IsElementary

theorem IsNormal.isElementary {f d : Formula} (hf : f.IsNormal) (hd : d ∈ f.decisions) :
    d.IsElementary := by
  obtain ⟨g, hg, e⟩ := mem_decisions.1 hd
  cases hf.of_mem_preorder hg with
  | atom x =>
    obtain ⟨hx, rfl⟩ := decision?_atom.1 e
    exact .atom hx
  | not x => cases e
  | ex hp =>
    cases e
    exact .ex hp
  | ax hp =>
    cases e
    exact .ax hp
  | and hp hq | or hp hq => cases e
  | eu hp hq =>
    cases e
    exact .ex (.eu hp hq)
  | au hp hq =>
    cases e
    exact .ax (.au hp hq)
  | er hp hq =>
    cases e
    exact .ex (.er hp hq)
  | ar hp hq =>
    cases e
    exact .ax (.ar hp hq)

/-! ## 3. The closure -/

theorem mem_withNegation {d e : Formula} : e ∈ withNegation d ↔ e = d ∨ e = d.negate := by
  simp [withNegation]

/-- The closure of a normal formula is collected from its decisions. -/
theorem elementaryList_eq {f : Formula} (h : f.IsNormal) :
    f.elementaryList = .ok (f.decisions.flatMap withNegation) := by
  have atom : ∀ x, (atom x).elementaryList = .ok ((atom x).decisions.flatMap withNegation) := by
    intro x
    by_cases e : x = trueName <;> simp [elementaryList, e]
  induction h with
  | atom x => exact atom x
  | not x => exact atom x
  | ex _ ih | ax _ ih => simp [elementaryList, ih]
  | and _ _ ihp ihq | or _ _ ihp ihq | eu _ _ ihp ihq | au _ _ ihp ihq | er _ _ ihp ihq
  | ar _ _ ihp ihq => simp [elementaryList, carrier?, ihp, ihq]

/-- A closure is a set of decisions with their negations. -/
theorem closure_eq_ok_iff {f : Formula} {C : OrderedSet Formula} : f.closure = .ok C ↔
    f.IsNormal ∧ ∀ e, e ∈ C ↔ ∃ d ∈ f.decisions, e ∈ withNegation d := by
  constructor
  · intro h
    cases he : f.elementaryList with
    | error e => simp [closure, he, Except.map] at h
    | ok es =>
      have normal := isNormal_of_elementaryList he
      rw [closure, elementaryList_eq normal] at h
      cases h
      exact ⟨normal, fun e => OrderedSet.mem_ofList.trans List.mem_flatMap⟩
  · intro h
    obtain ⟨normal, mem⟩ := h
    rw [closure, elementaryList_eq normal]
    refine congrArg Except.ok (OrderedSet.ext_mem fun e => ?_)
    rw [OrderedSet.mem_ofList, List.mem_flatMap, mem]

/-! ## 4. Negation -/

/-- What the negation of a formula decides where the formula decides `d`. -/
def counterpart : Formula → Formula
  | .atom x => .atom x
  | d => d.negate

/-- **A formula and its negation make the same decisions**, in the same order. -/
theorem decisions_negate {f : Formula} (h : f.IsNormal) :
    f.negate.decisions = f.decisions.map counterpart := by
  -- the negation of an atom has one node more, and this one decides nothing
  have atom : ∀ x, (atom x).decisions = (atom x).decisions.map counterpart := by
    intro x
    by_cases e : x = trueName <;> simp [counterpart, e]
  induction h with
  | atom x => exact atom x
  | not x => exact atom x
  | ex _ ih | ax _ ih => simp [counterpart, ih]
  | and _ _ ihp ihq | or _ _ ihp ihq | eu _ _ ihp ihq | au _ _ ihp ihq | er _ _ ihp ihq
  | ar _ _ ihp ihq => simp [counterpart, carrier?, ihp, ihq]

/-- A pair of a formula and its negation, seen from the other one. -/
theorem mem_withNegation_negate {d e : Formula} (h : d.IsNormal) :
    e ∈ withNegation d.negate ↔ e ∈ withNegation d := by
  rw [mem_withNegation, mem_withNegation, h.negate_negate]
  exact or_comm

theorem mem_withNegation_counterpart {d e : Formula} (h : d.IsNormal) :
    e ∈ withNegation d.counterpart ↔ e ∈ withNegation d := by
  cases d with
  | atom x => exact Iff.rfl
  | _ => exact mem_withNegation_negate h

/-- The negation of a formula has the same closure. -/
theorem closure_negate {f : Formula} {C : OrderedSet Formula} (h : f.closure = .ok C) :
    f.negate.closure = .ok C := by
  obtain ⟨normal, mem⟩ := closure_eq_ok_iff.1 h
  refine closure_eq_ok_iff.2 ⟨normal.negate, fun e => ?_⟩
  simp only [mem, decisions_negate normal, List.mem_map, exists_exists_and_eq_and]
  exact exists_congr fun d => and_congr_right fun hd =>
    (mem_withNegation_counterpart (normal.isElementary hd).isNormal).symm

/-- Members are elementary, and negation stays within the closure. -/
theorem closed_of_mem_closure {f e : Formula} {C : OrderedSet Formula} (h : f.closure = .ok C)
    (he : e ∈ C) : e.IsElementary ∧ e.negate ∈ C := by
  obtain ⟨normal, mem⟩ := closure_eq_ok_iff.1 h
  obtain ⟨d, hd, he⟩ := (mem e).1 he
  have elementary := normal.isElementary hd
  rw [mem]
  rcases mem_withNegation.1 he with rfl | rfl
  · exact ⟨elementary, e, hd, mem_withNegation.2 (Or.inr rfl)⟩
  · refine ⟨elementary.negate, d, hd, mem_withNegation.2 (Or.inl ?_)⟩
    exact elementary.isNormal.negate_negate

/-! ## 5. Halves -/

theorem length_withNegations (ds : List Formula) :
    (ds.flatMap withNegation).length = 2 * ds.length := by
  induction ds with
  | nil => rfl
  | cons d ds ih =>
    rw [List.flatMap_cons, List.length_append, ih, List.length_cons, withNegation]
    simp only [List.length_cons, List.length_nil]
    omega

/-- There are at most two members for every node. -/
theorem size_closure_le {f : Formula} {C : OrderedSet Formula} (h : f.closure = .ok C) :
    C.size ≤ 2 * f.size := by
  obtain ⟨-, mem⟩ := closure_eq_ok_iff.1 h
  have sub : C.toList ⊆ f.decisions.flatMap withNegation := fun e he =>
    List.mem_flatMap.2 ((mem e).1 he)
  calc C.size ≤ (f.decisions.flatMap withNegation).length :=
        (C.nodup.subperm sub).length_le
    _ = 2 * f.decisions.length := length_withNegations _
    _ ≤ 2 * f.size := Nat.mul_le_mul_left 2 f.length_decisions_le

end Formula

/-- If an involution of a set exchanges the members with a property and those without, then these
    are half of all. -/
theorem OrderedSet.size_eq_two_mul {α : Type} [Ord α] [Std.TransOrd α] {s : OrderedSet α}
    {keep : α → Bool} {flip : α → α} (mem : ∀ a ∈ s, flip a ∈ s)
    (back : ∀ a ∈ s, flip (flip a) = a) (turns : ∀ a ∈ s, keep (flip a) = !keep a) :
    s.size = 2 * (s.filter keep).size := by
  -- the involution lists the members without the property by those with it
  have others : (s.toList.filter fun a => !keep a).Perm ((s.toList.filter keep).map flip) := by
    refine (List.perm_ext_iff_of_nodup (s.nodup.filter _) ?_).2 fun a => ?_
    · refine List.Nodup.map_on (fun a ha b hb e => ?_) (s.nodup.filter _)
      rw [← back a (List.mem_of_mem_filter ha), e, back b (List.mem_of_mem_filter hb)]
    · simp only [List.mem_filter, List.mem_map, Bool.not_eq_true']
      constructor
      · intro h
        obtain ⟨ha, hk⟩ := h
        exact ⟨flip a, ⟨mem a ha, by rw [turns a ha, hk, Bool.not_false]⟩, back a ha⟩
      · intro h
        obtain ⟨b, ⟨hb, hk⟩, rfl⟩ := h
        exact ⟨mem b hb, by rw [turns b hb, hk, Bool.not_true]⟩
  have parts : s.size = (s.toList.filter keep).length +
      (s.toList.filter fun a => !keep a).length := List.length_eq_length_filter_add keep
  have kept : (s.filter keep).size = (s.toList.filter keep).length := rfl
  rw [parts, others.length_eq, List.length_map, kept, Nat.two_mul]

namespace Formula

/-- **The closure has two halves, which negation exchanges**, and which it does not tell apart. The
    positive half has at most one member for every node; no constant is a member. -/
theorem closure_halves {f : Formula} {C : OrderedSet Formula} (h : f.closure = .ok C) :
    ∃ E, f.positiveClosure = .ok E ∧ truth ∉ C ∧ falsity ∉ C ∧
      (∀ g ∈ C, g.negate ∈ C ∧ g.negate.isPositiveElementary = !g.isPositiveElementary) ∧
      C.size = 2 * E.size ∧ E.size ≤ f.size ∧ f.negate.closure = .ok C := by
  have closed := fun e (he : e ∈ C) => closed_of_mem_closure h he
  have halves : C.size = 2 * (C.filter isPositiveElementary).size :=
    OrderedSet.size_eq_two_mul (fun e he => (closed e he).2)
      (fun e he => (closed e he).1.isNormal.negate_negate)
      fun e he => (closed e he).1.isPositiveElementary_negate
  have bound := size_closure_le h
  have positive : f.positiveClosure = .ok (C.filter isPositiveElementary) := by
    rw [positiveClosure, h]
    rfl
  refine ⟨_, positive, fun hc => ?_, fun hc => ?_, fun g hg => ⟨(closed g hg).2, ?_⟩, halves, ?_,
    closure_negate h⟩
  · exact (closed _ hc).1.ne_constant.1 rfl
  · exact (closed _ hc).1.ne_constant.2 rfl
  · exact (closed g hg).1.isPositiveElementary_negate
  · omega

/-- "p until q" and its negation, a "release" on all paths, have the same closure. -/
theorem closure_halves_until : ∃ C E, (eu (.atom "p") (.atom "q")).closure = .ok C ∧
    (eu (.atom "p") (.atom "q")).positiveClosure = .ok E ∧
    .ex (.eu (.atom "p") (.atom "q")) ∈ C ∧
    .ax (.ar (.not (.atom "p")) (.not (.atom "q"))) ∈ C ∧ C.size = 2 * E.size ∧ E.size ≤ 3 ∧
    (ar (.not (.atom "p")) (.not (.atom "q"))).closure = .ok C := by
  have collected : (eu (.atom "p") (.atom "q")).closure = .ok (.ofList
      [.ex (.eu (.atom "p") (.atom "q")), .ax (.ar (.not (.atom "p")) (.not (.atom "q"))),
        .atom "p", .not (.atom "p"), .atom "q", .not (.atom "q")]) := rfl
  obtain ⟨E, hE, -, -, closed, twice, bound, same⟩ := closure_halves collected
  have carried := ((closure_eq_ok_iff.1 collected).2 _).2
    ⟨.ex (.eu (.atom "p") (.atom "q")), List.mem_cons_self, mem_withNegation.2 (Or.inl rfl)⟩
  exact ⟨_, E, collected, hE, carried, (closed _ carried).1, twice, bound, same⟩

end Formula

end CtlTableau
