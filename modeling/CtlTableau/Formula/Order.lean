import CtlTableau.Formula
import CtlTableau.OrderedSet

/-!
# The order of formulas

Sets of formulas list their members in this order: atoms before unary before binary before
quantified formulas; then by operator, in the order in which the operators are declared; then by
the parts from left to right. Names compare by code points, which is also the order of their UTF-8
bytes.

Main statement: the order is total and equality is its only tie (`transOrd`, `lawfulEqOrd`), so
`OrderedSet Formula` is a normal form.
-/

namespace CtlTableau

open Std

/-! ## 1. Operators -/

instance : Ord UnaryOp := ⟨compareOn UnaryOp.ctorIdx⟩
instance : Ord BinaryOp := ⟨compareOn BinaryOp.ctorIdx⟩
instance : Ord Quantifier := ⟨compareOn Quantifier.ctorIdx⟩

instance : TransOrd UnaryOp := inferInstanceAs (TransCmp (compareOn UnaryOp.ctorIdx))
instance : TransOrd BinaryOp := inferInstanceAs (TransCmp (compareOn BinaryOp.ctorIdx))
instance : TransOrd Quantifier := inferInstanceAs (TransCmp (compareOn Quantifier.ctorIdx))

instance : LawfulEqOrd UnaryOp where
  eq_of_compare {a b} h := by cases a <;> cases b <;> first | rfl | exact absurd h (by decide)

instance : LawfulEqOrd BinaryOp where
  eq_of_compare {a b} h := by cases a <;> cases b <;> first | rfl | exact absurd h (by decide)

instance : LawfulEqOrd Quantifier where
  eq_of_compare {a b} h := by cases a <;> cases b <;> first | rfl | exact absurd h (by decide)

/-! ## 2. Formulas -/

namespace Formula

/-- How two formulas stand to each other. -/
def cmp : Formula → Formula → Ordering
  | .atom x, .atom y => compare x y
  | .atom _, _ => .lt
  | .unary _ _, .atom _ => .gt
  | .unary o p, .unary o' p' => (compare o o').then (p.cmp p')
  | .unary _ _, _ => .lt
  | .binary o p q, .binary o' p' q' => (compare o o').then ((p.cmp p').then (q.cmp q'))
  | .binary _ _ _, .quant _ _ _ => .lt
  | .binary _ _ _, _ => .gt
  | .quant k x p, .quant k' x' p' => (compare k k').then ((compare x x').then (p.cmp p'))
  | .quant _ _ _, _ => .gt

instance : Ord Formula := ⟨cmp⟩

theorem compare_def (f g : Formula) : compare f g = f.cmp g := rfl

/-! ## 3. The order is total, and lawful -/

theorem cmp_swap (f g : Formula) : f.cmp g = (g.cmp f).swap := by
  have name : ∀ x y : String, compare x y = (compare y x).swap := fun _ _ => OrientedCmp.eq_swap
  have una : ∀ o o' : UnaryOp, compare o o' = (compare o' o).swap := fun _ _ => OrientedCmp.eq_swap
  have bin : ∀ o o' : BinaryOp, compare o o' = (compare o' o).swap := fun _ _ =>
    OrientedCmp.eq_swap
  have kind : ∀ k k' : Quantifier, compare k k' = (compare k' k).swap := fun _ _ =>
    OrientedCmp.eq_swap
  induction f generalizing g with
  | atom x => cases g <;> simp [cmp, ← name x]
  | unary o p ih => cases g <;> simp [cmp, Ordering.swap_then, ← ih, ← una o]
  | binary o p q ihp ihq => cases g <;> simp [cmp, Ordering.swap_then, ← ihp, ← ihq, ← bin o]
  | quant k x p ih => cases g <;> simp [cmp, Ordering.swap_then, ← ih, ← kind k, ← name x]

/-- Three comparisons chain: `a` against `b`, `b` against `c`, `a` against `c`. The strict parts
    are what carries the chain over the later components of a lexicographic order. -/
structure Chained (ab bc ac : Ordering) : Prop where
  le : ab.isLE → bc.isLE → ac.isLE
  lt_le : ab = .lt → bc.isLE → ac = .lt
  le_lt : ab.isLE → bc = .lt → ac = .lt

theorem chained_of_transCmp {α : Type} {c : α → α → Ordering} [TransCmp c] (x y z : α) :
    Chained (c x y) (c y z) (c x z) :=
  ⟨TransCmp.isLE_trans, TransCmp.lt_of_lt_of_isLE, TransCmp.lt_of_isLE_of_lt⟩

theorem Chained.next {ab bc ac ab' bc' ac' : Ordering} (h : Chained ab bc ac)
    (h' : Chained ab' bc' ac') : Chained (ab.then ab') (bc.then bc') (ac.then ac') := by
  obtain ⟨h1, h2, h3⟩ := h
  obtain ⟨k1, k2, k3⟩ := h'
  cases ab <;> cases bc <;> cases ac <;> simp_all <;> constructor <;> simp_all

theorem cmp_chained (f g h : Formula) : Chained (f.cmp g) (g.cmp h) (f.cmp h) := by
  induction f generalizing g h with
  | atom x =>
    cases g <;> cases h <;> simp only [cmp] <;> first
      | exact chained_of_transCmp _ _ _
      | constructor <;> simp
  | unary o p ih =>
    cases g <;> cases h <;> simp only [cmp] <;> first
      | exact (chained_of_transCmp _ _ _).next (ih _ _)
      | constructor <;> simp
  | binary o p q ihp ihq =>
    cases g <;> cases h <;> simp only [cmp] <;> first
      | exact (chained_of_transCmp _ _ _).next ((ihp _ _).next (ihq _ _))
      | constructor <;> simp
  | quant k x p ih =>
    cases g <;> cases h <;> simp only [cmp] <;> first
      | exact (chained_of_transCmp _ _ _).next ((chained_of_transCmp _ _ _).next (ih _ _))
      | constructor <;> simp

theorem cmp_self (f : Formula) : f.cmp f = .eq := by
  induction f with
  | atom x => simp [cmp]
  | unary o p ih => simp [cmp, ih]
  | binary o p q ihp ihq => simp [cmp, ihp, ihq]
  | quant k x p ih => simp [cmp, ih]

theorem eq_of_cmp {f g : Formula} (h : f.cmp g = .eq) : f = g := by
  induction f generalizing g with
  | atom x => cases g <;> simp_all [cmp]
  | unary o p ih =>
    cases g with
    | unary o' p' => simp only [cmp, Ordering.then_eq_eq, Std.compare_eq_iff_eq] at h; rw [h.1, ih h.2]
    | _ => simp [cmp] at h
  | binary o p q ihp ihq =>
    cases g with
    | binary o' p' q' =>
      simp only [cmp, Ordering.then_eq_eq, Std.compare_eq_iff_eq] at h
      rw [h.1, ihp h.2.1, ihq h.2.2]
    | _ => simp [cmp] at h
  | quant k x p ih =>
    cases g with
    | quant k' x' p' =>
      simp only [cmp, Ordering.then_eq_eq, Std.compare_eq_iff_eq] at h
      rw [h.1, h.2.1, ih h.2.2]
    | _ => simp [cmp] at h

instance transOrd : TransOrd Formula where
  eq_swap := cmp_swap _ _
  isLE_trans := (cmp_chained _ _ _).le

instance lawfulEqOrd : LawfulEqOrd Formula where
  compare_self := cmp_self _
  eq_of_compare := eq_of_cmp

end Formula

end CtlTableau
