import CtlTableau.Proofs.Boolean

/-!
# Replacing a name by a fresh one

Replacing a name changes atoms and quantifiers alike, free occurrences as well as bound ones. If the
formula does not mention the new name then no two of its names fall together (`replaced_injOn`), and
this is all that is needed: shadowed quantifiers, quantifiers in between and free occurrences beside
bound ones go over as they are, each name to its own place.

Main statement: `rename_fresh`.
-/

namespace CtlTableau

/-- What a function makes of the entries of a list it makes of the members of the set. -/
theorem OrderedSet.ofList_map {α β : Type} [Ord α] [Std.TransOrd α] [Std.LawfulEqOrd α] [Ord β]
    [Std.TransOrd β] [Std.LawfulEqOrd β] (g : α → β) (l : List α) :
    OrderedSet.ofList (l.map g) = .ofList ((OrderedSet.ofList l).toList.map g) := by
  refine OrderedSet.ext_mem fun y => ?_
  rw [mem_ofList, mem_ofList, List.mem_map, List.mem_map]
  exact exists_congr fun x => and_congr_left fun _ => mem_ofList.symm

namespace Formula

/-! ## 1. Where names go -/

/-- Where replacing a name takes a name. -/
def replaced (old new x : String) : String := if x = old then new else x

variable {old new : String}

theorem rename_eq_mapNames (f : Formula) (old new : String) :
    f.rename old new = f.mapNames (replaced old new) := by
  induction f with
  | atom y => rfl
  | unary op p ih => rw [rename, mapNames, ih]
  | binary op p q ihp ihq => rw [rename, mapNames, ihp, ihq]
  | quant k y p ih => rw [rename, mapNames, ih, replaced]

/-- No two names fall together of which none is the new one. -/
theorem replaced_injOn {xs : List String} (fresh : new ∉ xs) :
    ∀ x ∈ xs, ∀ y ∈ xs, replaced old new x = replaced old new y → x = y := by
  intro x hx y hy e
  unfold replaced at e
  split at e <;> split at e
  · next hx' hy' => exact hx'.trans hy'.symm
  · exact absurd (e ▸ hy) fresh
  · exact absurd (e ▸ hx) fresh
  · exact e

/-- The name of the constant is neither replaced nor met. -/
theorem replaced_eq_true_iff (hold : old ≠ trueName) (hnew : new ≠ trueName) (x : String) :
    replaced old new x = trueName ↔ x = trueName := by
  unfold replaced
  split
  · next e => exact iff_of_false hnew (e ▸ hold)
  · exact Iff.rfl

/-- A valuation of the new names gives the old name the value of the new one. -/
theorem comp_replaced (ρ : String → Bool) :
    ρ ∘ replaced old new = Function.update ρ old (ρ new) := by
  funext x
  rw [Function.comp_apply, replaced]
  by_cases e : x = old
  · rw [if_pos e, e, Function.update_self]
  · rw [if_neg e, Function.update_of_ne e]

/-! ## 2. What replacing a name does to a formula -/

theorem freeNames_rename {f : Formula} (fresh : new ∉ f.names) :
    (f.rename old new).freeNames = f.freeNames.map (replaced old new) := by
  rw [rename_eq_mapNames, freeNames_mapNames (replaced_injOn fresh)]

/-- The old name takes the value of the new one. -/
theorem eval_rename {f : Formula} (fresh : new ∉ f.names) (hold : old ≠ trueName)
    (hnew : new ≠ trueName) (ρ : String → Bool) :
    (f.rename old new).eval ρ = f.eval (Function.update ρ old (ρ new)) := by
  rw [rename_eq_mapNames,
    eval_mapNames (replaced_injOn fresh) fun x _ => replaced_eq_true_iff hold hnew x,
    comp_replaced]

/-- **Replacing a name by a fresh one is a renaming of bound and free names.** It can be undone; the
    names of the result, and those that are free in it, are those of the formula with the old name
    replaced; and its value under a valuation is the value of the formula when the old name takes the
    value of the new one, as long as neither name is the constant. -/
theorem rename_fresh {f : Formula} (fresh : f.mentions new = false) :
    (f.rename old new).rename new old = f ∧
    (f.rename old new).nameSet = .ofList (f.nameSet.toList.map (replaced old new)) ∧
    (f.rename old new).free = .ofList (f.free.toList.map (replaced old new)) ∧
    (old ≠ trueName → new ≠ trueName →
      ∀ ρ, (f.rename old new).eval ρ = f.eval (Function.update ρ old (ρ new))) := by
  have absent : new ∉ f.names := by
    rw [← mentions_iff, fresh]
    exact Bool.false_ne_true
  refine ⟨rename_rename fresh, ?_, ?_, eval_rename absent⟩
  · rw [nameSet, nameSet, rename_eq_mapNames, names_mapNames]
    exact OrderedSet.ofList_map ..
  · rw [free, free, freeNames_rename absent]
    exact OrderedSet.ofList_map ..

/-- `x & E y. (x | A x. (x -> y))`, with "x" free beside two of its occurrences that are bound. -/
def boundBeside (x : String) : Formula :=
  .and (.atom x) (.exist "y" (.or (.atom x) (.all x (.imp (.atom x) (.atom "y")))))

/-- Every "x" of the example becomes a "z", the quantifier over it too. -/
theorem rename_fresh_boundBeside :
    (boundBeside "x").mentions "z" = false ∧
    (boundBeside "x").rename "x" "z" = boundBeside "z" ∧
    (boundBeside "z").rename "z" "x" = boundBeside "x" ∧
    (boundBeside "z").free = .ofList ((boundBeside "x").free.toList.map (replaced "x" "z")) ∧
    ∀ ρ, (boundBeside "z").eval ρ = (boundBeside "x").eval (Function.update ρ "x" (ρ "z")) := by
  have fresh : (boundBeside "x").mentions "z" = false := by decide
  have moved : (boundBeside "x").rename "x" "z" = boundBeside "z" := rfl
  obtain ⟨undone, -, free, value⟩ := @rename_fresh "x" "z" (boundBeside "x") fresh
  exact ⟨fresh, moved, undone, free, value (by decide) (by decide)⟩

end Formula

end CtlTableau
