import CtlTableau.Formula.Order

/-!
# Names in formulas

Which names a formula mentions, which of them are free, how one name is replaced by another, and
how the leading quantifiers come off.

Main statements: `rename_rename` (replacing by a fresh name can be undone) and `bindAll_binders`
(a formula is its leading quantifiers over its matrix).
-/

namespace CtlTableau.Formula

/-! ## 1. Mentioned and free names -/

/-- Every name of the formula from left to right, with repetitions; a quantifier's name stands
    before its body. -/
def names : Formula → List String
  | .atom x => [x]
  | .unary _ p => p.names
  | .binary _ p q => p.names ++ q.names
  | .quant _ x p => x :: p.names

/-- The occurrences of names that no quantifier binds. -/
def freeNames : Formula → List String
  | .atom x => [x]
  | .unary _ p => p.freeNames
  | .binary _ p q => p.freeNames ++ q.freeNames
  | .quant _ x p => p.freeNames.filter (· != x)

/-- The names mentioned, free or bound. -/
def nameSet (f : Formula) : OrderedSet String := .ofList f.names

/-- The names that occur free. -/
def free (f : Formula) : OrderedSet String := .ofList f.freeNames

/-- Whether a name occurs, free or bound. -/
def mentions (x : String) : Formula → Bool
  | .atom y => y == x
  | .unary _ p => p.mentions x
  | .binary _ p q => p.mentions x || q.mentions x
  | .quant _ y p => y == x || p.mentions x

@[simp] theorem mem_nameSet {f : Formula} {x : String} : x ∈ f.nameSet ↔ x ∈ f.names :=
  OrderedSet.mem_ofList

@[simp] theorem mem_free {f : Formula} {x : String} : x ∈ f.free ↔ x ∈ f.freeNames :=
  OrderedSet.mem_ofList

theorem mentions_iff {f : Formula} {x : String} : f.mentions x = true ↔ x ∈ f.names := by
  induction f with
  | atom y => simp only [mentions, names, beq_iff_eq, List.mem_singleton]; exact eq_comm
  | unary _ p ih => simpa [mentions, names] using ih
  | binary _ p q ihp ihq => simp [mentions, names, ihp, ihq]
  | quant _ y p ih =>
    simp only [mentions, names, Bool.or_eq_true, beq_iff_eq, List.mem_cons, ih]
    exact or_congr_left eq_comm

theorem mem_names_of_mem_freeNames {f : Formula} {x : String} (h : x ∈ f.freeNames) :
    x ∈ f.names := by
  induction f with
  | atom y => exact h
  | unary _ p ih => exact ih h
  | binary _ p q ihp ihq =>
    simp only [freeNames, names, List.mem_append] at h ⊢
    exact h.imp ihp ihq
  | quant _ y p ih =>
    simp only [freeNames, names, List.mem_filter, List.mem_cons] at h ⊢
    exact Or.inr (ih h.1)

/-! ## 2. Replacing a name -/

/-- Replaces every occurrence of a name, at atoms and at quantifiers alike. If the new name does
    not occur this renames bound variables without capture. -/
def rename (old new : String) : Formula → Formula
  | .atom x => .atom (if x = old then new else x)
  | .unary op p => .unary op (p.rename old new)
  | .binary op p q => .binary op (p.rename old new) (q.rename old new)
  | .quant k x p => .quant k (if x = old then new else x) (p.rename old new)

theorem names_rename (f : Formula) (old new : String) :
    (f.rename old new).names = f.names.map (fun x => if x = old then new else x) := by
  induction f with
  | atom x => rfl
  | unary _ p ih => exact ih
  | binary _ p q ihp ihq => simp [rename, names, ihp, ihq]
  | quant _ x p ih => simp [rename, names, ih]

theorem size_rename (f : Formula) (old new : String) : (f.rename old new).size = f.size := by
  induction f with
  | atom x => rfl
  | unary _ p ih => simp [rename, size, ih]
  | binary _ p q ihp ihq => simp [rename, size, ihp, ihq]
  | quant _ x p ih => simp [rename, size, ih]

/-- With a new name that does not occur, renaming can be undone. -/
theorem rename_rename {f : Formula} {old new : String} (h : f.mentions new = false) :
    (f.rename old new).rename new old = f := by
  have swap : ∀ x : String, (x == new) = false →
      (if (if x = old then new else x) = new then old else (if x = old then new else x)) = x := by
    intro x hx
    have hx : x ≠ new := by simpa using hx
    by_cases e : x = old <;> simp [e, hx]
  induction f with
  | atom x => simpa [rename] using swap x h
  | unary _ p ih => simp [rename, ih h]
  | binary _ p q ihp ihq =>
    simp only [mentions, Bool.or_eq_false_iff] at h
    simp [rename, ihp h.1, ihq h.2]
  | quant _ x p ih =>
    simp only [mentions, Bool.or_eq_false_iff] at h
    simp only [rename, ih h.2, swap x h.1]

/-! ## 3. Leading quantifiers -/

/-- The leading quantifiers, outermost first. -/
def binders : Formula → List (Quantifier × String)
  | .quant k x p => (k, x) :: p.binders
  | _ => []

/-- What the leading quantifiers range over. -/
def matrix : Formula → Formula
  | .quant _ _ p => p.matrix
  | f => f

/-- Puts a list of quantifiers in front of a formula, the first one outermost. -/
def bindAll (bs : List (Quantifier × String)) (f : Formula) : Formula :=
  bs.foldr (fun b body => .quant b.1 b.2 body) f

/-- A formula is its leading quantifiers over its matrix. -/
@[simp] theorem bindAll_binders (f : Formula) : bindAll f.binders f.matrix = f := by
  induction f with
  | quant k x p ih => simpa [binders, matrix, bindAll] using ih
  | _ => rfl

end CtlTableau.Formula
