import CtlTableau.Proofs.Sharing
import Mathlib.Algebra.Ring.Int.Defs
import Mathlib.Data.List.Dedup

/-!
# What stands in a clause form

The clause form of a prenex formula numbers the names that its matrix uses, then the constant, then
the labels of the compound subformulas, one for each (`Formula.Encodes`). Its clauses are those that
define the labels, and besides one for the whole and one for the constant. Their number is counted
after repetitions are gone: within a definition a clause comes twice if the operands are equal, and
clauses of different definitions differ, as the largest variable of a clause is the one that it
defines (`Gate.eq_of_mem_clauses`).

Main statement: `toClauseForm_census`, which also says which formulas have a clause form.
-/

namespace CtlTableau

namespace OrderedSet

variable {α : Type} [Ord α] [Std.TransOrd α]

/-- A set has as many members as a list of them without repetitions. -/
theorem size_eq {s : OrderedSet α} {l : List α} (hl : l.Nodup) (h : ∀ x, x ∈ l ↔ x ∈ s) :
    l.length = s.size :=
  ((List.perm_ext_iff_of_nodup hl s.nodup).2 h).length_eq

theorem ofList_eq_iff [Std.LawfulEqOrd α] {c d : List α} :
    ofList c = ofList d ↔ ∀ x, x ∈ c ↔ x ∈ d := by
  refine ⟨fun e x => ?_, fun h => ext_mem fun x => ?_⟩
  · rw [← mem_ofList, e, mem_ofList]
  · rw [mem_ofList, mem_ofList, h]

theorem ofList_ne [Std.LawfulEqOrd α] {c d : List α} (x : α) (h : x ∈ c) (h' : x ∉ d) :
    ofList c ≠ ofList d := fun e => h' ((ofList_eq_iff.1 e x).1 h)

end OrderedSet

/-! ## 1. The clauses of a gate as sets -/

namespace Gate

variable {gate gate' : Gate} {x y : Int} {c : List Int}

/-- The clauses of a gate without repetitions. -/
def clauseSets (x : Int) : Gate → List Clause
  | .not a => [.ofList [-x, -a], .ofList [x, a]]
  | .and a b =>
    if a = b then [.ofList [-x, a], .ofList [x, -a]]
    else [.ofList [-x, a], .ofList [-x, b], .ofList [x, -a, -b]]
  | .or a b =>
    if a = b then [.ofList [-x, a], .ofList [x, -a]]
    else [.ofList [-x, a, b], .ofList [x, -a], .ofList [x, -b]]

theorem mem_clauseSets {C : Clause} :
    C ∈ gate.clauseSets x ↔ ∃ c ∈ gate.clauses x, C = .ofList c := by
  have twice : ∀ l a : Int, OrderedSet.ofList [l, a, a] = .ofList [l, a] := fun l a =>
    OrderedSet.ofList_eq_iff.2 fun m => by simp
  cases gate with
  | not a => simp [clauseSets, clauses]
  | and a b => by_cases e : a = b <;> simp [clauseSets, clauses, e, twice]
  | or a b => by_cases e : a = b <;> simp [clauseSets, clauses, e, twice]

theorem nodup_clauseSets (hg : ∀ a ∈ gate.operands, 0 < a ∧ a < x) :
    (gate.clauseSets x).Nodup := by
  have pair : ∀ c d : Clause, c ≠ d → [c, d].Nodup := fun c d h => by simpa using h
  have triple : ∀ c d e : Clause, c ≠ d → c ≠ e → d ≠ e → [c, d, e].Nodup :=
    fun c d e h h' h'' => by simpa using ⟨⟨h, h'⟩, h''⟩
  cases gate with
  | not a =>
    have ha := hg a (by simp [operands])
    exact pair _ _ (OrderedSet.ofList_ne x (by simp) (by simp; omega)).symm
  | and a b =>
    have ha := hg a (by simp [operands])
    have hb := hg b (by simp [operands])
    rw [clauseSets]
    split
    · exact pair _ _ (OrderedSet.ofList_ne a (by simp) (by simp; omega))
    · exact triple _ _ _ (OrderedSet.ofList_ne a (by simp) (by simp; omega))
        (OrderedSet.ofList_ne a (by simp) (by simp; omega))
        (OrderedSet.ofList_ne b (by simp) (by simp; omega))
  | or a b =>
    have ha := hg a (by simp [operands])
    have hb := hg b (by simp [operands])
    rw [clauseSets]
    split
    · exact pair _ _ (OrderedSet.ofList_ne a (by simp) (by simp; omega))
    · exact triple _ _ _ (OrderedSet.ofList_ne a (by simp) (by simp; omega))
        (OrderedSet.ofList_ne a (by simp) (by simp; omega))
        (OrderedSet.ofList_ne (-a) (by simp) (by simp; omega))

/-- A clause of a gate has its variable and that of an operand. -/
theorem exists_mem_clauses (hc : c ∈ gate.clauses x) :
    (x ∈ c ∨ -x ∈ c) ∧ ∃ a ∈ gate.operands, a ∈ c ∨ -a ∈ c := by
  cases gate <;> simp only [clauses, List.mem_cons, List.not_mem_nil, or_false] at hc <;>
    rcases hc with rfl | rfl | rfl <;> simp [operands]

/-- Every operand comes in some clause. -/
theorem exists_clause_of_operand {a : Int} (ha : a ∈ gate.operands) :
    ∃ c ∈ gate.clauses x, ∃ l ∈ c, l.natAbs = a.natAbs := by
  cases gate with
  | not b =>
    cases List.mem_singleton.1 ha
    exact ⟨[x, a], by simp [clauses], a, by simp, rfl⟩
  | and b b' =>
    exact ⟨[x, -b, -b'], by simp [clauses], -a, by simpa [operands] using Or.inr ha, by simp⟩
  | or b b' => exact ⟨[-x, b, b'], by simp [clauses], a, by simpa [operands] using Or.inr ha, rfl⟩

/-- The largest variable of a clause is the gate's, and there is another. -/
theorem clauses_top (hg : ∀ a ∈ gate.operands, 0 < a ∧ a < x) (hc : c ∈ gate.clauses x) :
    (∃ l ∈ c, l.natAbs = x.natAbs) ∧ (∃ l ∈ c, l.natAbs < x.natAbs) ∧
      ∀ l ∈ c, l.natAbs ≤ x.natAbs := by
  obtain ⟨own, a, ha, operand⟩ := exists_mem_clauses hc
  have between := hg a ha
  refine ⟨?_, ?_, fun l hl => (clauses_proper hg hc hl).2.1⟩
  · exact own.elim (fun h => ⟨x, h, rfl⟩) fun h => ⟨-x, h, Int.natAbs_neg x⟩
  · rcases operand with h | h
    · exact ⟨a, h, by omega⟩
    · exact ⟨-a, h, by omega⟩

/-- **A clause tells which variable it defines.** -/
theorem eq_of_mem_clauses {C : Clause} (hg : ∀ a ∈ gate.operands, 0 < a ∧ a < x)
    (hg' : ∀ a ∈ gate'.operands, 0 < a ∧ a < y) (h : C ∈ gate.clauseSets x)
    (h' : C ∈ gate'.clauseSets y) : x.natAbs = y.natAbs := by
  obtain ⟨c, hc, rfl⟩ := mem_clauseSets.1 h
  obtain ⟨d, hd, e⟩ := mem_clauseSets.1 h'
  obtain ⟨⟨l, hl, e₁⟩, -, top⟩ := clauses_top hg hc
  obtain ⟨⟨m, hm, e₂⟩, -, top'⟩ := clauses_top hg' hd
  have le := top' l ((OrderedSet.ofList_eq_iff.1 e l).1 hl)
  have ge := top m ((OrderedSet.ofList_eq_iff.1 e m).2 hm)
  omega

/-- A defining clause has more than one literal. -/
theorem singleton_not_mem_clauseSets (hg : ∀ a ∈ gate.operands, 0 < a ∧ a < x) (l : Int) :
    OrderedSet.ofList [l] ∉ gate.clauseSets x := by
  intro h
  obtain ⟨c, hc, e⟩ := mem_clauseSets.1 h
  obtain ⟨⟨m, hm, e₁⟩, ⟨n, hn, e₂⟩, -⟩ := clauses_top hg hc
  have hm := (OrderedSet.ofList_eq_iff.1 e m).2 hm
  have hn := (OrderedSet.ofList_eq_iff.1 e n).2 hn
  rw [List.mem_singleton] at hm hn
  omega

end Gate

namespace Formula

variable {names : List String} {offset : Nat} {idOf : String → Nat} {labels : List Formula}
  {num : Formula → Nat} {g : Formula} {d : Definitions}

/-! ## 2. The clauses of the labels -/

/-- How many clauses define a compound formula. -/
def clauseCount : Formula → Nat
  | .unary _ _ => 2
  | .binary _ p q => if p = q then 2 else 3
  | _ => 0

/-- The clauses that define a compound formula, without repetitions. -/
def definitionSets (num : Formula → Nat) (g : Formula) : List Clause :=
  (g.gate? num).elim [] (Gate.clauseSets (num g))

theorem mem_definitionSets {C : Clause} :
    C ∈ g.definitionSets num ↔ ∃ c ∈ g.definition num, C = .ofList c := by
  cases hgate : g.gate? num with
  | none => simp [definitionSets, definition, hgate]
  | some gate => simp [definitionSets, definition, hgate, Gate.mem_clauseSets]

/-- Operands are equal where the arguments are. -/
theorem length_definitionSets {gate : Gate} (hgate : g.gate? num = some gate)
    (inj : ∀ a ∈ g.arguments, ∀ b ∈ g.arguments, num a = num b → a = b) :
    (g.definitionSets num).length = g.clauseCount := by
  have same : ∀ p q : Formula, (num p = num q → p = q) → ((num p : Int) = num q ↔ p = q) :=
    fun p q h => ⟨fun e => h (Int.ofNat_inj.1 e), fun e => e ▸ rfl⟩
  rw [definitionSets, hgate, Option.elim_some]
  obtain ⟨p, rfl, rfl⟩ | ⟨p, q, rfl, rfl⟩ | ⟨p, q, rfl, rfl⟩ := gate?_eq_some.1 hgate
  · rfl
  · have e := same p q (inj p (by simp [arguments]) q (by simp [arguments]))
    by_cases hpq : p = q <;> simp [Gate.clauseSets, clauseCount, e, hpq]
  · have e := same p q (inj p (by simp [arguments]) q (by simp [arguments]))
    by_cases hpq : p = q <;> simp [Gate.clauseSets, clauseCount, e, hpq]

namespace Labels

/-- The operands of a gate are older than its name. -/
theorem operands_lt (h : Labels names offset idOf d labels) (hg : g ∈ labels) {gate : Gate}
    (hgate : g.gate? (number offset idOf labels) = some gate) :
    ∀ a ∈ gate.operands, 0 < a ∧ a < (number offset idOf labels g : Int) := by
  intro a ha
  obtain ⟨place, hplace⟩ := List.getElem?_of_mem hg
  have older := h.proper.ordered place gate (h.getElem?_gates.2 ⟨g, hplace, hgate⟩) a ha
  have own := h.nameAt_eq hplace
  unfold Definitions.Names at older
  unfold Definitions.nameAt at own
  omega

/-- **The clauses of the labels are all different.** -/
theorem nodup_definitionSets (h : Labels names offset idOf d labels) :
    (labels.flatMap (definitionSets (number offset idOf labels))).Nodup := by
  refine List.nodup_flatMap.2 ⟨fun g hg => ?_, ?_⟩
  · obtain ⟨gate, hgate⟩ := h.exists_gate hg
    rw [definitionSets, hgate]
    exact Gate.nodup_clauseSets (h.operands_lt hg hgate)
  · refine h.nodup.imp_of_mem fun {g g'} hg hg' hne C hC hC' => hne ?_
    obtain ⟨gate, hgate⟩ := h.exists_gate hg
    obtain ⟨gate', hgate'⟩ := h.exists_gate hg'
    rw [definitionSets, hgate] at hC
    rw [definitionSets, hgate'] at hC'
    have e := Gate.eq_of_mem_clauses (h.operands_lt hg hgate) (h.operands_lt hg' hgate') hC hC'
    exact Known.number_inj h.numbers (.label hg (h.isAtom hg)) (.label hg' (h.isAtom hg')) e

theorem length_definitionSets (h : Labels names offset idOf d labels) :
    (labels.flatMap (definitionSets (number offset idOf labels))).length =
      (labels.map clauseCount).sum := by
  rw [List.length_flatMap]
  refine congrArg List.sum (List.map_congr_left fun g hg => ?_)
  obtain ⟨gate, hgate⟩ := h.exists_gate hg
  exact Formula.length_definitionSets hgate fun a ha b hb =>
    (h.known g hg a ha).number_inj h.numbers (h.known g hg b hb)

theorem singleton_not_mem (h : Labels names offset idOf d labels) (l : Int) :
    OrderedSet.ofList [l] ∉ labels.flatMap (definitionSets (number offset idOf labels)) := by
  intro hl
  obtain ⟨g, hg, hl⟩ := List.mem_flatMap.1 hl
  obtain ⟨gate, hgate⟩ := h.exists_gate hg
  rw [definitionSets, hgate] at hl
  exact Gate.singleton_not_mem_clauseSets (h.operands_lt hg hgate) l hl

end Labels

/-! ## 3. The numbers of a clause form -/

/-- The quantifier in front of others, if the matrix uses its name and none of them binds it again. -/
def usedHead (f : Formula) : List (Quantifier × String) → Option (Quantifier × String)
  | [] => none
  | b :: later =>
    if b.2 ≠ trueName ∧ b.2 ∈ f.names ∧ ∀ c ∈ later, c.2 ≠ b.2 then some b else none

/-- The innermost quantifiers of the names that the matrix uses, in their order. -/
def usedBinders (bs : List (Quantifier × String)) (f : Formula) : List (Quantifier × String) :=
  bs.tails.filterMap f.usedHead

theorem usedBinders_cons (b : Quantifier × String) (bs : List (Quantifier × String)) (f : Formula) :
    usedBinders (b :: bs) f =
      if b.2 ≠ trueName ∧ b.2 ∈ f.names ∧ ∀ c ∈ bs, c.2 ≠ b.2 then b :: usedBinders bs f
      else usedBinders bs f := by
  rw [usedBinders, List.tails, List.filterMap_cons, usedHead]
  split
  · next h =>
    split at h
    · cases h
    · next unused => rw [if_neg unused, usedBinders]
  · next h =>
    split at h
    · next used =>
      cases h
      rw [if_pos used, usedBinders]
    · cases h

/-- The formulas that existential numbers are for: the constant if it is used, and the labels. -/
def innermostFormulas (f : Formula) (labels : List Formula) : List Formula :=
  if trueName ∈ f.names then truth :: labels else labels

namespace Numbering

variable {bs : List (Quantifier × String)} {f : Formula} {c : Circuit}

theorem bound_eq : (make bs f).bound = usedBinders bs f := by
  show (innermost bs).filter _ = _
  induction bs with
  | nil => rfl
  | cons b bs ih =>
    have used : (b.2 != trueName && f.nameSet.toList.contains b.2) = true ↔
        b.2 ≠ trueName ∧ b.2 ∈ f.names := by
      simp [← OrderedSet.mem_def]
    have again : bs.any (·.2 == b.2) = true ↔ ¬ ∀ c ∈ bs, c.2 ≠ b.2 := by
      simp
    rw [usedBinders_cons, ← ih, innermost]
    by_cases last : ∀ c ∈ bs, c.2 ≠ b.2
    · rw [if_neg fun h => again.1 h last, List.filter_cons]
      by_cases h : b.2 ≠ trueName ∧ b.2 ∈ f.names
      · rw [if_pos (used.2 h), if_pos ⟨h.1, h.2, last⟩]
      · rw [if_neg fun h' => h (used.1 h'), if_neg fun h' => h ⟨h'.1, h'.2.1⟩]
    · rw [if_pos (again.2 last), if_neg fun h => last h.2.2]

theorem toNat_usesTrue :
    (make bs f).usesTrue.toNat = if trueName ∈ f.names then 1 else 0 := by
  by_cases used : trueName ∈ f.names
  · rw [if_pos used, usesTrue_iff.2 used, Bool.toNat_true]
  · have unused : (make bs f).usesTrue = false := by rwa [← Bool.not_eq_true, usesTrue_iff]
    rw [if_neg used, unused, Bool.toNat_false]

theorem numbers_make (hb : ∀ x ∈ f.names, x ≠ trueName → ∃ b ∈ bs, b.2 = x) :
    Numbers f.names (make bs f).size (make bs f).idOf := by
  have constant : (make bs f).idOf trueName = (make bs f).bound.length + 1 := idOf_true _
  refine ⟨fun x hx => ?_, fun x hx => ?_, fun x hx y hy e => ?_⟩
  · by_cases h : x = trueName
    · rw [h, constant]
      exact Nat.succ_pos _
    · exact (idOf_le hx h (hb x hx h)).1
  · by_cases h : x = trueName
    · rw [h] at hx
      refine Nat.le_of_eq ?_
      rw [h, constant, size, toNat_usesTrue, if_pos hx]
    · exact Nat.le_trans (idOf_le hx h (hb x hx h)).2 (Nat.le_add_right _ _)
  · by_cases h : x = trueName
    · by_cases h' : y = trueName
      · rw [h, h']
      · have le := (idOf_le hy h' (hb y hy h')).2
        rw [h, constant] at e
        omega
    · have le := (idOf_le hx h (hb x hx h)).2
      by_cases h' : y = trueName
      · rw [h', constant] at e
        omega
      · exact idOf_inj hx hy h h' (hb x hx h) (hb y hy h') e

/-- As many names are bound and used as the matrix has besides the constant. -/
theorem length_bound (hb : ∀ x ∈ f.names, x ≠ trueName → ∃ b ∈ bs, b.2 = x) :
    (make bs f).bound.length = (f.nameSet.filter (· != trueName)).size := by
  rw [← List.length_map, OrderedSet.size_eq nodup_bound fun x => ?_]
  rw [OrderedSet.mem_filter, mem_nameSet, List.mem_map, bne_iff_ne]
  constructor
  · rintro ⟨b, hbound, rfl⟩
    obtain ⟨-, hne, hx⟩ := mem_bound.1 hbound
    exact ⟨hx, hne⟩
  · rintro ⟨hx, hne⟩
    obtain ⟨place, b, hp, rfl⟩ := exists_mem_bound hx hne (hb x hx hne)
    exact ⟨b, List.mem_of_getElem? hp, rfl⟩

end Numbering

theorem Labels.map_number (h : Labels names offset idOf d labels) :
    labels.map (number offset idOf labels) = List.range' (offset + 1) labels.length := by
  refine List.ext_getElem (by simp) fun place hplace _ => ?_
  have hlt : place < labels.length := by simpa using hplace
  rw [List.getElem_map, List.getElem_range', number_compound (h.isAtom (List.getElem_mem hlt)),
    h.nodup.idxOf_getElem place hlt]
  omega

/-! ## 4. What a clause form consists of -/

/-- The clauses of a clause form, with all repetitions. -/
def clauseLists (f : Formula) (num : Formula → Nat) (labels : List Formula) : List (List Int) :=
  labels.flatMap (definition num) ++
    [(num f : Int)] :: if trueName ∈ f.names then [[(num truth : Int)]] else []

/-- The clause form of a matrix under quantifiers: how its formulas are numbered, what it says of the
    numbers, and how much that is. -/
structure Encodes (bs : List (Quantifier × String)) (f : Formula) (form : ClauseForm)
    (num : Formula → Nat) (labels : List Formula) : Prop where
  /-- There is one label for each compound subformula. -/
  nodup : labels.Nodup
  mem : ∀ g, g ∈ labels ↔ g ∈ f.preorder ∧ g.isAtom = false
  /-- The names come first, under their quantifiers; the constant and the labels are existential. -/
  binders : form.binders = (usedBinders bs f).map (fun b => (b.1, num (.atom b.2))) ++
    (f.innermostFormulas labels).map fun g => (.existential, num g)
  counted : form.binders.map (·.2) = List.range' 1 form.numVars
  numVars : form.numVars = (f.nameSet.filter (· != trueName)).size +
    (if trueName ∈ f.names then 1 else 0) + labels.length
  /-- Every label is defined, and the whole and the constant are true. -/
  clauses : form.clauses = .ofList ((f.clauseLists num labels).map .ofList)
  size : form.clauses.size = (labels.map clauseCount).sum + 1 +
    if trueName ∈ f.names ∧ f ≠ truth then 1 else 0
  literals : ∀ c ∈ form.clauses, c.toList ≠ [] ∧
    ∀ l ∈ c, l ≠ 0 ∧ -l ∉ c ∧ l.natAbs ≤ form.numVars
  occurs : ∀ i, 1 ≤ i → i ≤ form.numVars → ∃ c ∈ form.clauses, ∃ l ∈ c, l.natAbs = i

section

variable {bs : List (Quantifier × String)} {f : Formula}

/-- The number of every subformula comes in a clause: the whole has its own, and others are operands. -/
theorem exists_clause_of_subformula (h : Labels names offset idOf d labels)
    (mem : ∀ g, g ∈ labels ↔ g ∈ f.preorder ∧ g.isAtom = false) {a : Formula}
    (ha : a ∈ f.preorder) :
    ∃ c ∈ labels.flatMap (definition (number offset idOf labels)) ++
        [[(number offset idOf labels f : Int)]],
      ∃ l ∈ c, l.natAbs = number offset idOf labels a := by
  rcases eq_or_mem_arguments ha with rfl | ⟨g, hg, hag⟩
  · exact ⟨_, List.mem_append_right _ List.mem_cons_self, _, List.mem_cons_self, rfl⟩
  · have compound : g.isAtom = false := by
      cases g with
      | atom x => cases hag
      | _ => rfl
    have hlabel := (mem g).2 ⟨hg, compound⟩
    obtain ⟨gate, hgate⟩ := h.exists_gate hlabel
    have operand : (number offset idOf labels a : Int) ∈ gate.operands := by
      rw [operands_of_gate? hgate]
      exact List.mem_map_of_mem hag
    obtain ⟨c, hc, l, hl, e⟩ := Gate.exists_clause_of_operand operand
    refine ⟨c, List.mem_append_left _ (List.mem_flatMap.2 ⟨g, hlabel, ?_⟩), l, hl, e⟩
    rw [definition, hgate]
    exact hc

/-- The clauses of a clause form, without repetitions. -/
def clauseSets (f : Formula) (num : Formula → Nat) (labels : List Formula) : List Clause :=
  labels.flatMap (definitionSets num) ++ .ofList [(num f : Int)] ::
    if trueName ∈ f.names ∧ f ≠ truth then [.ofList [(num truth : Int)]] else []

theorem mem_clauseSets {C : Clause} :
    C ∈ f.clauseSets num labels ↔ ∃ c ∈ f.clauseLists num labels, C = .ofList c := by
  have definitions : C ∈ labels.flatMap (definitionSets num) ↔
      ∃ c ∈ labels.flatMap (definition num), C = .ofList c := by
    simp only [List.mem_flatMap, mem_definitionSets]
    constructor
    · rintro ⟨g, hg, c, hc, e⟩
      exact ⟨c, ⟨g, hg, hc⟩, e⟩
    · rintro ⟨c, ⟨g, hg, hc⟩, e⟩
      exact ⟨g, hg, c, hc, e⟩
  rw [clauseSets, List.mem_append, definitions]
  by_cases whole : f = truth
  · subst whole
    simp [clauseLists, names, or_and_right, exists_or]
  · by_cases used : trueName ∈ f.names <;>
      simp [clauseLists, used, whole, or_and_right, exists_or]

/-- **No clause is counted twice**: those of the labels have more than one literal, and the constant
    has another number than the whole unless it is the whole. -/
theorem nodup_clauseSets (h : Labels f.names offset idOf d labels)
    (hf : Known f.names labels f) :
    (f.clauseSets (number offset idOf labels) labels).Nodup := by
  refine List.nodup_append.2 ⟨h.nodup_definitionSets, ?_, fun C hC C' hC' e => ?_⟩
  · split
    · next other =>
      refine List.nodup_cons.2 ⟨fun hmem => ?_, List.nodup_singleton _⟩
      have same := (OrderedSet.ofList_eq_iff.1 (List.mem_singleton.1 hmem) _).1 List.mem_cons_self
      rw [List.mem_singleton, Int.ofNat_inj] at same
      exact other.2 (hf.number_inj h.numbers (.name other.1) same)
    · exact List.nodup_singleton _
  · have unit : ∃ l, C' = .ofList [l] := by
      rcases List.mem_cons.1 hC' with rfl | hC'
      · exact ⟨_, rfl⟩
      · split at hC'
        · exact ⟨_, List.mem_singleton.1 hC'⟩
        · cases hC'
    obtain ⟨l, rfl⟩ := unit
    exact h.singleton_not_mem l (e ▸ hC)

theorem ne_nil_of_mem_clauseLists {c : List Int} (hc : c ∈ f.clauseLists num labels) : c ≠ [] := by
  rcases List.mem_append.1 hc with hc | hc
  · obtain ⟨g, -, hc⟩ := List.mem_flatMap.1 hc
    cases hgate : g.gate? num with
    | none =>
      rw [definition, hgate] at hc
      cases hc
    | some gate =>
      rw [definition, hgate] at hc
      rcases (Gate.exists_mem_clauses hc).1 with h | h <;> exact List.ne_nil_of_mem h
  · rcases List.mem_cons.1 hc with rfl | hc
    · exact List.cons_ne_nil _ _
    · split at hc
      · cases List.mem_singleton.1 hc
        exact List.cons_ne_nil _ _
      · cases hc

namespace Numbering

variable {c : Circuit}

/-- The numbers of the formulas in a clause form with these labels. -/
abbrev numberOf (n : Numbering) (labels : List Formula) : Formula → Nat :=
  number n.size n.idOf labels

/-- The existential numbers, with what they are for. -/
theorem innermostIds_eq
    (h : Labels f.names (make bs f).size (make bs f).idOf ((make bs f).named c).2 labels) :
    (make bs f).innermostIds c =
      (f.innermostFormulas labels).map ((make bs f).numberOf labels) := by
  have constant : (make bs f).numberOf labels truth = (make bs f).bound.length + 1 := idOf_true _
  rw [innermostIds, innermostFormulas, ← h.length_eq]
  by_cases used : trueName ∈ f.names
  · rw [if_pos used, List.map_cons, constant, h.map_number, size, toNat_usesTrue, if_pos used,
      Nat.add_comm 1, List.range'_succ]
  · rw [if_neg used, h.map_number, size, toNat_usesTrue, if_neg used, Nat.zero_add, Nat.add_zero]

theorem binders_form
    (h : Labels f.names (make bs f).size (make bs f).idOf ((make bs f).named c).2 labels) :
    ((make bs f).form c).binders =
      (usedBinders bs f).map (fun b => (b.1, (make bs f).numberOf labels (.atom b.2))) ++
        (f.innermostFormulas labels).map fun g =>
          (.existential, (make bs f).numberOf labels g) := by
  simp only [form, ClauseForm.ofLists]
  rw [binders_eq, bound_eq, innermostIds_eq h, List.map_map]
  rfl

theorem clauses_form
    (h : Labels f.names (make bs f).size (make bs f).idOf ((make bs f).named c).2 labels)
    (literal : ((make bs f).named c).1 = (make bs f).numberOf labels f) :
    ((make bs f).form c).clauses =
      .ofList ((f.clauseLists ((make bs f).numberOf labels) labels).map .ofList) := by
  have constant : (if (make bs f).usesTrue then [[((make bs f).idOf trueName : Int)]] else []) =
      if trueName ∈ f.names then [[((make bs f).numberOf labels truth : Int)]] else [] := by
    by_cases used : trueName ∈ f.names <;> simp [used, usesTrue_iff, numberOf, number]
  have lists : ∀ l, l ∈ ((make bs f).named c).2.clauses ++ [((make bs f).named c).1] ::
      (if (make bs f).usesTrue then [[((make bs f).idOf trueName : Int)]] else []) ↔
        l ∈ f.clauseLists ((make bs f).numberOf labels) labels := fun l => by
    rw [clauseLists, constant, literal, List.mem_append, List.mem_append, h.mem_clauses,
      List.mem_flatMap]
  refine OrderedSet.ext_mem fun C => ?_
  rw [form, ClauseForm.ofLists, OrderedSet.mem_ofList, OrderedSet.mem_ofList, List.mem_map,
    List.mem_map]
  exact exists_congr fun l => and_congr_left fun _ => lists l

theorem numVars_form
    (h : Labels f.names (make bs f).size (make bs f).idOf ((make bs f).named c).2 labels)
    (hb : ∀ x ∈ f.names, x ≠ trueName → ∃ b ∈ bs, b.2 = x) :
    ((make bs f).form c).numVars = (f.nameSet.filter (· != trueName)).size +
      (if trueName ∈ f.names then 1 else 0) + labels.length := by
  show (make bs f).size + ((make bs f).named c).2.gates.size = _
  rw [← h.length_eq, size, length_bound hb, toNat_usesTrue]

theorem size_form
    (h : Labels f.names (make bs f).size (make bs f).idOf ((make bs f).named c).2 labels)
    (literal : ((make bs f).named c).1 = (make bs f).numberOf labels f)
    (hf : Known f.names labels f) :
    ((make bs f).form c).clauses.size = (labels.map clauseCount).sum + 1 +
      if trueName ∈ f.names ∧ f ≠ truth then 1 else 0 := by
  rw [← OrderedSet.size_eq (nodup_clauseSets h hf) fun C => ?_]
  · rw [clauseSets, List.length_append, h.length_definitionSets, List.length_cons, Nat.add_assoc,
      Nat.add_comm 1]
    split <;> rfl
  · rw [clauses_form h literal, mem_clauseSets, OrderedSet.mem_ofList, List.mem_map]
    exact exists_congr fun c => and_congr_right fun _ => eq_comm

/-- Every number is that of a subformula. -/
theorem exists_subformula_of_mem_binders (hf : f.isPropositional = true)
    (h : Labels f.names (make bs f).size (make bs f).idOf ((make bs f).named c).2 labels)
    (mem : ∀ g, g ∈ labels ↔ g ∈ f.preorder ∧ g.isAtom = false) {b : Quantifier × Nat}
    (hb : b ∈ ((make bs f).form c).binders) :
    ∃ a ∈ f.preorder, b.2 = (make bs f).numberOf labels a := by
  rw [binders_form h, ← bound_eq, innermostFormulas] at hb
  rcases List.mem_append.1 hb with hb | hb
  · obtain ⟨b', hb', rfl⟩ := List.mem_map.1 hb
    exact ⟨_, (atom_mem_preorder hf).2 (mem_bound.1 hb').2.2, rfl⟩
  · obtain ⟨g, hg, rfl⟩ := List.mem_map.1 hb
    refine ⟨g, ?_, rfl⟩
    split at hg
    · next used =>
      rcases List.mem_cons.1 hg with rfl | hg
      · exact (atom_mem_preorder hf).2 used
      · exact ((mem g).1 hg).1
    · exact ((mem g).1 hg).1

/-- Every number comes in some clause. -/
theorem occurs_form (hf : f.isPropositional = true)
    (h : Labels f.names (make bs f).size (make bs f).idOf ((make bs f).named c).2 labels)
    (literal : ((make bs f).named c).1 = (make bs f).numberOf labels f)
    (mem : ∀ g, g ∈ labels ↔ g ∈ f.preorder ∧ g.isAtom = false) {i : Nat} (hi : 1 ≤ i)
    (hle : i ≤ ((make bs f).form c).numVars) :
    ∃ C ∈ ((make bs f).form c).clauses, ∃ l ∈ C, l.natAbs = i := by
  have hmem : i ∈ ((make bs f).form c).binders.map (·.2) := by
    rw [variables_form, List.mem_range'_1]
    omega
  obtain ⟨b, hb, rfl⟩ := List.mem_map.1 hmem
  obtain ⟨a, ha, e⟩ := exists_subformula_of_mem_binders hf h mem hb
  obtain ⟨c, hc, l, hl, e'⟩ := exists_clause_of_subformula h mem ha
  refine ⟨.ofList c, ?_, l, OrderedSet.mem_ofList.2 hl, e'.trans e.symm⟩
  rw [clauses_form h literal, OrderedSet.mem_ofList]
  refine List.mem_map_of_mem ?_
  rcases List.mem_append.1 hc with hc | hc
  · exact List.mem_append_left _ hc
  · exact List.mem_append_right _ (List.mem_singleton.1 hc ▸ List.mem_cons_self)

/-- **The clause form of a circuit consists of what it should.** -/
theorem exists_encodes (hf : f.isPropositional = true)
    (hc : f.circuit (make bs f).idOf = .ok c)
    (hb : ∀ x ∈ f.names, x ≠ trueName → ∃ b ∈ bs, b.2 = x) :
    ∃ num labels, Encodes bs f ((make bs f).form c) num labels := by
  obtain ⟨labels, h⟩ := exists_labels hc (fun x hx => hx) (labels_empty (numbers_make hb))
  have sound : Labels f.names (make bs f).size (make bs f).idOf ((make bs f).named c).2 labels :=
    h.sound
  have mem : ∀ g, g ∈ labels ↔ g ∈ f.preorder ∧ g.isAtom = false := fun g => by
    simpa using h.mem g
  have clauses := clauses_form sound h.literal
  obtain ⟨c', hc', inputs, -⟩ := exists_circuit_bound hf hb
  cases hc.symm.trans hc'
  have proper := proper_form inputs
  exact ⟨(make bs f).numberOf labels, labels,
    { nodup := sound.nodup
      mem
      binders := binders_form sound
      counted := variables_form (make bs f) c
      numVars := numVars_form sound hb
      clauses
      size := size_form sound h.literal (h.known fun x hx => hx)
      literals := fun C hC => by
        have hlist : C.toList ∈ ((make bs f).form c).lists := List.mem_map_of_mem hC
        refine ⟨?_, fun l hl => ⟨proper.nonzero _ hlist l hl, proper.oneSign _ hlist l hl, ?_⟩⟩
        · rw [clauses, OrderedSet.mem_ofList, List.mem_map] at hC
          obtain ⟨d, hd, rfl⟩ := hC
          obtain ⟨l, hl⟩ := List.exists_mem_of_ne_nil d (ne_nil_of_mem_clauseLists hd)
          exact List.ne_nil_of_mem (OrderedSet.mem_def.1 (OrderedSet.mem_ofList.2 hl))
        · obtain ⟨b, hb, e⟩ := proper.bound _ hlist l hl
          exact e ▸ (proper.counted b hb).2
      occurs := fun i hi hle => occurs_form hf sound h.literal mem hi hle }⟩

end Numbering

end

/-! ## 5. Which formulas have a clause form -/

/-- Whether a node may stand in a matrix: an atom, a negation, a conjunction or a disjunction. -/
def isBasic : Formula → Bool
  | .atom _ => true
  | .unary op _ => op == .not
  | .binary op _ _ => op == .and || op == .or
  | .quant _ _ _ => false

theorem isPropositional_iff {f : Formula} :
    f.isPropositional = true ↔ ∀ g ∈ f.preorder, g.isBasic = true := by
  induction f with
  | atom x => simp [isPropositional, preorder, isBasic]
  | unary op p ih => rw [isPropositional, Bool.and_eq_true, ih, preorder, List.forall_mem_cons, isBasic]
  | binary op p q ihp ihq =>
    rw [isPropositional, Bool.and_eq_true, Bool.and_eq_true, ihp, ihq, preorder,
      List.forall_mem_cons, List.forall_mem_append, isBasic]
  | quant k x p => simp [isPropositional, preorder, isBasic]

/-- The first node that may not stand in a matrix is reported. -/
theorem circuit_of_find? {f g : Formula}
    (h : f.preorder.find? (fun node => !node.isBasic) = some g) :
    f.circuit idOf = .error (.notPropositional g) := by
  induction f with
  | atom x => cases h
  | unary op p ih =>
    rw [preorder, List.find?_cons] at h
    by_cases hop : op = .not
    · subst hop
      rw [circuit, if_pos rfl, ih h]
      rfl
    · have refused : (!isBasic (unary op p)) = true := by simpa [isBasic] using hop
      rw [refused] at h
      cases h
      rw [circuit, if_neg hop]
  | binary op p q ihp ihq =>
    rw [preorder, List.find?_cons] at h
    by_cases hop : op = .and ∨ op = .or
    · have accepted : (!isBasic (binary op p q)) = false := by rcases hop with rfl | rfl <;> rfl
      rw [accepted, List.find?_append] at h
      rw [circuit, if_pos hop]
      cases hp : p.preorder.find? (fun node => !node.isBasic) with
      | some g' =>
        rw [hp] at h
        cases h
        rw [ihp hp]
      | none =>
        rw [hp] at h
        have propositional : p.isPropositional = true := isPropositional_iff.2 (by simpa using hp)
        obtain ⟨c, hc, -⟩ := exists_circuit propositional idOf
        rw [hc, ihq h]
    · have refused : (!isBasic (binary op p q)) = true := by simpa [isBasic] using hop
      rw [refused] at h
      cases h
      rw [circuit, if_neg hop]
  | quant k x p =>
    cases h
    rfl

/-- What comes of a formula: a node that may not stand in a matrix is reported, else a name that is
    not bound, else there is a clause form. -/
theorem toClauseForm_cases (f : Formula) :
    (∃ g ∈ f.matrix.preorder, g.isBasic = false ∧
      f.toClauseForm = .error (.notPropositional g)) ∨
    (f.matrix.isPropositional = true ∧
      ∃ x ∈ f.matrix.names, x ≠ trueName ∧ (∀ b ∈ f.binders, b.2 ≠ x) ∧
        f.toClauseForm = .error (.freeVariable x)) ∨
    (f.matrix.isPropositional = true ∧
      (∀ x ∈ f.matrix.names, x ≠ trueName → ∃ b ∈ f.binders, b.2 = x) ∧
      ∃ form num labels, f.toClauseForm = .ok form ∧
        Encodes f.binders f.matrix form num labels) := by
  cases found : f.matrix.preorder.find? (fun node => !node.isBasic) with
  | some g =>
    have hg := List.find?_some found
    refine .inl ⟨g, List.mem_of_find?_eq_some found, by simpa using hg, ?_⟩
    simp only [toClauseForm, circuit_of_find? found]
  | none =>
    have hf : f.matrix.isPropositional = true := isPropositional_iff.2 (by simpa using found)
    cases unbound : (Numbering.make f.binders f.matrix).unbound? f.matrix with
    | some x =>
      obtain ⟨hx, least⟩ := Numbering.unbound?_eq_some.1 unbound
      refine .inr (.inl ⟨hf, x, hx.1, hx.2.1, hx.2.2, ?_⟩)
      have error := Numbering.toClauseForm_of_unbound hf hx least
      rwa [bindAll_binders] at error
    | none =>
      have hb := Numbering.unbound?_eq_none.1 unbound
      obtain ⟨c, hc, -⟩ := exists_circuit hf (Numbering.make f.binders f.matrix).idOf
      obtain ⟨num, labels, encodes⟩ := Numbering.exists_encodes hf hc hb
      have form := Numbering.toClauseForm_of_bound hf hc hb
      rw [bindAll_binders] at form
      exact .inr (.inr ⟨hf, hb, _, num, labels, form, encodes⟩)

/-- **What stands in the clause form of a formula, and when there is one.** The variables of a clause
    form are the names that the matrix uses, in the order of their innermost quantifiers and under
    these, then the constant if it is used, then a label for each compound subformula of the matrix,
    all of them existential. The clauses define the labels and ask for the whole and for the constant;
    none is empty or always true, every variable comes in one, and equal operands save a clause
    (`Encodes`). There is no clause form if a node of the matrix is no atom, negation, conjunction or
    disjunction, and then a node is reported; nor if all nodes are, but an atom besides the constant
    is not bound, and then a name is reported. In all other cases there is one. -/
theorem toClauseForm_census (f : Formula) :
    (∀ form, f.toClauseForm = .ok form →
      ∃ num labels, Encodes f.binders f.matrix form num labels) ∧
    ((∃ g, f.toClauseForm = .error (.notPropositional g)) ↔
      ∃ g ∈ f.matrix.preorder, g.isBasic = false) ∧
    ((∃ x, f.toClauseForm = .error (.freeVariable x)) ↔
      (∀ g ∈ f.matrix.preorder, g.isBasic = true) ∧
        ∃ x, .atom x ∈ f.matrix.preorder ∧ x ≠ trueName ∧ ∀ b ∈ f.binders, b.2 ≠ x) ∧
    ((∃ form, f.toClauseForm = .ok form) ↔
      (∀ g ∈ f.matrix.preorder, g.isBasic = true) ∧
        ∀ x, .atom x ∈ f.matrix.preorder → x ≠ trueName → ∃ b ∈ f.binders, b.2 = x) := by
  obtain ⟨g, hg, refused, e⟩ | ⟨hf, x, hx, hne, free, e⟩ | ⟨hf, bound, form, num, labels, e, encodes⟩ :=
    toClauseForm_cases f
  · have no : ¬ ∀ g ∈ f.matrix.preorder, g.isBasic = true := fun all => by
      rw [all g hg] at refused
      cases refused
    exact ⟨fun form h => (nomatch e.symm.trans h), iff_of_true ⟨g, e⟩ ⟨g, hg, refused⟩,
      iff_of_false (fun ⟨x, h⟩ => nomatch e.symm.trans h) fun h => no h.1,
      iff_of_false (fun ⟨form, h⟩ => nomatch e.symm.trans h) fun h => no h.1⟩
  · have all := isPropositional_iff.1 hf
    have hx := (atom_mem_preorder hf).2 hx
    refine ⟨fun form h => (nomatch e.symm.trans h),
      iff_of_false (fun ⟨g, h⟩ => nomatch e.symm.trans h) fun ⟨g, hg, refused⟩ => ?_,
      iff_of_true ⟨x, e⟩ ⟨all, x, hx, hne, free⟩,
      iff_of_false (fun ⟨form, h⟩ => nomatch e.symm.trans h) fun h => ?_⟩
    · rw [all g hg] at refused
      cases refused
    · obtain ⟨b, hb, e⟩ := h.2 x hx hne
      exact free b hb e
  · have all := isPropositional_iff.1 hf
    have hb : ∀ x, .atom x ∈ f.matrix.preorder → x ≠ trueName → ∃ b ∈ f.binders, b.2 = x :=
      fun x hx => bound x ((atom_mem_preorder hf).1 hx)
    refine ⟨fun form' h => ?_,
      iff_of_false (fun ⟨g, h⟩ => nomatch e.symm.trans h) fun ⟨g, hg, refused⟩ => ?_,
      iff_of_false (fun ⟨x, h⟩ => nomatch e.symm.trans h) fun ⟨_, x, hx, hne, free⟩ => ?_,
      iff_of_true ⟨form, e⟩ ⟨all, hb⟩⟩
    · cases e.symm.trans h
      exact ⟨num, labels, encodes⟩
    · rw [all g hg] at refused
      cases refused
    · obtain ⟨b, hb, e⟩ := hb x hx hne
      exact free b hb e

/-- `(x | ~y) & (x | ~y) | TRUE` under quantifiers, of which one binds `x` again and one is not used. -/
def repeated : Formula :=
  .all "x" (.exist "x" (.all "u" (.all "y"
    (.or (.and (.or (.atom "x") (.not (.atom "y"))) (.or (.atom "x") (.not (.atom "y")))) truth))))

/-- Two names, the constant and four labels; two clauses for the negation, three for either
    disjunction, two for the conjunction of equals, one for the whole and one for the constant. -/
theorem toClauseForm_census_repeated :
    (∃ form, repeated.toClauseForm = .ok form ∧ form.numVars = 7 ∧ form.clauses.size = 12 ∧
      form.binders.map (·.1) = [.existential, .universal, .existential, .existential, .existential,
        .existential, .existential]) ∧
    (∃ x, (exist "x" (.and (.atom "x") (.atom "z"))).toClauseForm = .error (.freeVariable x)) ∧
    ∃ g, (imp (.atom "z") (.atom "z")).toClauseForm = .error (.notPropositional g) := by
  obtain ⟨encoded, -, -, succeeds⟩ := toClauseForm_census repeated
  have bound : ∀ x ∈ repeated.matrix.names, x ≠ trueName → ∃ b ∈ repeated.binders, b.2 = x := by
    decide
  obtain ⟨form, hform⟩ := succeeds.2 ⟨by decide, fun x hx =>
    bound x ((atom_mem_preorder (by decide)).1 hx)⟩
  obtain ⟨num, labels, h⟩ := encoded form hform
  have perm : labels.Perm (repeated.matrix.preorder.filter (!·.isAtom)).dedup :=
    (List.perm_ext_iff_of_nodup h.nodup (List.nodup_dedup _)).2 fun g => by
      rw [h.mem, List.mem_dedup, List.mem_filter, Bool.not_eq_true']
  have four : labels.length = 4 := perm.length_eq.trans (by decide)
  have ten : (labels.map clauseCount).sum = 10 := (perm.map clauseCount).sum_nat.trans (by decide)
  have two : (repeated.matrix.nameSet.filter (· != trueName)).size = 2 := by
    have names : ∀ x, x ∈ ["x", "y"] ↔ x ∈ repeated.matrix.nameSet.filter (· != trueName) := by
      intro x
      simp only [OrderedSet.mem_filter, mem_nameSet, repeated, matrix, names, List.mem_append,
        List.mem_cons, List.not_mem_nil, or_false, bne_iff_ne]
      constructor
      · rintro (rfl | rfl) <;> decide
      · tauto
    exact (OrderedSet.size_eq (by decide) names).symm
  have numVars : form.numVars = 7 := by
    rw [h.numVars, two, four]
    decide
  refine ⟨⟨form, hform, numVars, ?_, ?_⟩, ?_, ?_⟩
  · rw [h.size, ten]
    decide
  · have used : usedBinders repeated.binders repeated.matrix =
        [(.existential, "x"), (.universal, "y")] := by decide
    have constant : repeated.matrix.innermostFormulas labels = truth :: labels :=
      if_pos (by decide)
    have existential : ((truth :: labels).map fun g => (Quantifier.existential, num g)).map (·.1) =
        List.replicate 5 .existential := by
      rw [List.map_map, show 5 = labels.length + 1 by rw [four]]
      exact List.map_const'
    rw [h.binders, used, constant, List.map_append, existential]
    rfl
  · exact (toClauseForm_census (exist "x" (.and (.atom "x") (.atom "z")))).2.2.1.2
      ⟨by decide, "z", by decide, by decide, by decide⟩
  · exact (toClauseForm_census (imp (.atom "z") (.atom "z"))).2.1.2
      ⟨imp (.atom "z") (.atom "z"), by decide, rfl⟩

end Formula

end CtlTableau
