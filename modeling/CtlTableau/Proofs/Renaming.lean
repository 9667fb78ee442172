import CtlTableau.Proofs.Boolean
import CtlTableau.Proofs.Closure
import Mathlib.SetTheory.Cardinal.Arithmetic

/-!
# Formulas in other names

Everything that a tableau is made from commutes with renaming all names, if the constant is kept and
no other name becomes the constant: normal form (`normalize_mapNames`), elementary formulas
(`elementaryList_mapNames`), and the truth of a formula by the expansion laws (`holdsBy_mapNames`).

A renaming need not be defined well outside of the names of a formula. But as there are infinitely
many names, what it does to those is done by a renaming of all names that can be undone
(`exists_perm`).
-/

namespace CtlTableau

namespace Formula

variable {f : Formula}

/-! ## 1. Renaming all names -/

/-- As there are infinitely many names, finitely many can be renamed by renaming all. -/
theorem exists_perm_of_injOn {r : String → String} {S : Set String} (hS : S.Finite)
    (inj : S.InjOn r) : ∃ π : Equiv.Perm String, ∀ x ∈ S, π x = r x := by
  have few : Cardinal.mk S < Cardinal.mk String :=
    (Cardinal.lt_aleph0_iff_set_finite.2 hS).trans_le (Cardinal.aleph0_le_mk String)
  obtain ⟨π, hπ⟩ := Cardinal.extend_function_of_lt ⟨fun x : S => r x, inj.injective⟩ few
    ⟨Equiv.refl String⟩
  exact ⟨π, fun x hx => hπ ⟨x, hx⟩⟩

/-- A renaming that keeps the names of a formula apart, and the constant from the other names, does
    what a renaming of all names does. -/
theorem exists_perm {r : String → String} (inj : ∀ x ∈ f.names, ∀ y ∈ f.names, r x = r y → x = y)
    (constant : ∀ x ∈ f.names, r x = trueName ↔ x = trueName) :
    ∃ π : Equiv.Perm String, (∀ x, π x = trueName ↔ x = trueName) ∧
      f.mapNames π = f.mapNames r := by
  -- the constant may be missing in the formula, and is to be kept all the same
  let r' := Function.update r trueName trueName
  have at_true : r' trueName = trueName := Function.update_self ..
  have at_name : ∀ x ∈ f.names, r' x = r x := by
    intro x hx
    by_cases e : x = trueName
    · rw [e, at_true, (constant trueName (e ▸ hx)).2 rfl]
    · exact Function.update_of_ne e ..
  have apart : ∀ x ∈ f.names, r' x = trueName → x = trueName := fun x hx h =>
    (constant x hx).1 (at_name x hx ▸ h)
  have inj' : (insert trueName {x | x ∈ f.names}).InjOn r' := by
    rintro x (rfl | hx) y (rfl | hy) e
    · rfl
    · exact (apart y hy (e.symm.trans at_true)).symm
    · exact apart x hx (e.trans at_true)
    · rw [at_name x hx, at_name y hy] at e
      exact inj x hx y hy e
  obtain ⟨π, hπ⟩ := exists_perm_of_injOn ((List.finite_toSet f.names).insert trueName) inj'
  have keeps : π trueName = trueName := (hπ trueName (Or.inl rfl)).trans at_true
  refine ⟨π, fun x => ?_, mapNames_congr fun x hx => ?_⟩
  · exact ⟨fun h => π.injective (h.trans keeps.symm), fun h => h.symm ▸ keeps⟩
  · exact (hπ x (Or.inr hx)).trans (at_name x hx)

/-- Formulas, in other names. -/
def renamed (π : Equiv.Perm String) : Formula ≃ Formula where
  toFun := mapNames π
  invFun := mapNames π.symm
  left_inv f := by rw [mapNames_mapNames, π.symm_comp_self, mapNames_id]
  right_inv f := by rw [mapNames_mapNames, π.self_comp_symm, mapNames_id]

theorem isTemporal_mapNames (r : String → String) (f : Formula) :
    (f.mapNames r).isTemporal = f.isTemporal := by
  induction f with
  | atom x => rfl
  | unary _ p ih => exact ih
  | binary _ p q ihp ihq => rw [mapNames, isTemporal, isTemporal, ihp, ihq]
  | quant _ x p ih => rfl

theorem signed_mapNames (r : String → String) (f : Formula) (b : Bool) :
    (f.mapNames r).signed b = (f.signed b).mapNames r := by
  induction f generalizing b with
  | atom x => cases b <;> rfl
  | unary op p ih => cases op <;> simp [mapNames, signed, ih]
  | binary op p q ihp ihq => cases op <;> simp [mapNames, signed, ihp, ihq]
  | quant _ x p ih => simp [mapNames, signed, ih]

theorem negate_mapNames (r : String → String) (f : Formula) :
    (f.mapNames r).negate = f.negate.mapNames r := signed_mapNames r f false

theorem withNegation_mapNames (r : String → String) (f : Formula) :
    withNegation (f.mapNames r) = (withNegation f).map (mapNames r) := by
  rw [withNegation, withNegation, negate_mapNames]
  rfl

theorem IsNormal.mapNames (h : f.IsNormal) (r : String → String) : (f.mapNames r).IsNormal := by
  induction h with
  | atom x => exact .atom (r x)
  | not x => exact .not (r x)
  | ex _ ih => exact .ex ih
  | ax _ ih => exact .ax ih
  | and _ _ ihp ihq => exact .and ihp ihq
  | or _ _ ihp ihq => exact .or ihp ihq
  | eu _ _ ihp ihq => exact .eu ihp ihq
  | au _ _ ihp ihq => exact .au ihp ihq
  | er _ _ ihp ihq => exact .er ihp ihq
  | ar _ _ ihp ihq => exact .ar ihp ihq

/-! ## 2. Renamings that keep the constant -/

section Constant

variable {r : String → String} (hr : ∀ x, r x = trueName ↔ x = trueName)
include hr

theorem core_mapNames (f : Formula) : (f.mapNames r).core = f.core.mapNames r := by
  have constant : r trueName = trueName := (hr trueName).2 rfl
  induction f with
  | atom x => rfl
  | unary op p ih => cases op <;> simp [mapNames, core, ih, constant]
  | binary op p q ihp ihq => cases op <;> simp [mapNames, core, ihp, ihq]
  | quant _ x p ih => simp [mapNames, core, ih]

theorem normalize_mapNames (f : Formula) :
    (f.mapNames r).normalize = f.normalize.mapNames r := by
  rw [normalize, core_mapNames hr]
  exact signed_mapNames r f.core true

theorem isPositiveElementary_mapNames (e : Formula) :
    (e.mapNames r).isPositiveElementary = e.isPositiveElementary := by
  cases e with
  | atom x =>
    rw [Bool.eq_iff_iff]
    simp [mapNames, isPositiveElementary, hr]
  | unary op p => cases op <;> rfl
  | _ => rfl

/-- The elementary formulas of a renamed formula are those of the formula, renamed. -/
theorem elementaryList_mapNames {es : List Formula} (h : f.elementaryList = .ok es) :
    (f.mapNames r).elementaryList = .ok (es.map (Formula.mapNames r)) := by
  induction f generalizing es with
  | atom x =>
    cases h
    by_cases hx : x = trueName
    · rw [mapNames, elementaryList, if_pos hx, if_pos ((hr x).2 hx)]
      rfl
    · rw [mapNames, elementaryList, if_neg hx, if_neg fun e => hx ((hr x).1 e)]
      rfl
  | unary op p ih =>
    cases op with
    | not =>
      cases p with
      | atom x => exact ih h
      | _ => cases h
    | ex =>
      obtain ⟨es', hp, rfl⟩ := exists_of_elementaryList_next (Or.inl rfl) h
      rw [mapNames, elementaryList, ih hp, List.map_append, ← withNegation_mapNames]
      rfl
    | ax =>
      obtain ⟨es', hp, rfl⟩ := exists_of_elementaryList_next (Or.inr rfl) h
      rw [mapNames, elementaryList, ih hp, List.map_append, ← withNegation_mapNames]
      rfl
    | _ => cases h
  | binary op p q ihp ihq =>
    obtain ⟨himp, es₁, es₂, hp, hq, rfl⟩ := exists_of_elementaryList_binary h
    rw [mapNames, elementaryList, if_neg himp, ihp hp, ihq hq]
    simp only [List.map_append]
    cases carrier? op with
    | none => rfl
    | some next =>
      simp only [← withNegation_mapNames]
      rfl
  | quant _ x p ih => cases h

variable {E E' : Formula → Prop} (hE : ∀ e, E' (e.mapNames r) ↔ E e)
include hE

/-- A renamed formula asks for renamed elementary formulas. -/
theorem within_mapNames {f : Formula} (h : f.IsNormal) :
    (f.mapNames r).Within E' ↔ f.Within E := by
  induction h with
  | atom x => exact or_congr (hr x) (hE (.atom x))
  | not x => exact and_congr_right fun _ => or_congr (hr x) (hE (.atom x))
  | @ex p _ _ => exact hE (.ex p)
  | @ax p _ _ =>
    rw [mapNames, Within, negate_mapNames]
    exact hE (.ex p.negate)
  | and _ _ ihp ihq => exact and_congr ihp ihq
  | or _ _ ihp ihq => exact and_congr ihp ihq
  | @eu p q _ _ ihp ihq => exact and_congr (hE (.ex (.eu p q))) (and_congr ihp ihq)
  | @er p q _ _ ihp ihq => exact and_congr (hE (.ex (.er p q))) (and_congr ihp ihq)
  | @au p q _ _ ihp ihq =>
    rw [mapNames, Within, negate_mapNames, negate_mapNames]
    exact and_congr (hE (.ex (.er p.negate q.negate))) (and_congr ihp ihq)
  | @ar p q _ _ ihp ihq =>
    rw [mapNames, Within, negate_mapNames, negate_mapNames]
    exact and_congr (hE (.ex (.eu p.negate q.negate))) (and_congr ihp ihq)

/-- The truth of a renamed formula is that of the formula, if renamed elementary formulas are as true
    as they were. -/
theorem holdsBy_mapNames {f : Formula} (h : f.IsNormal) :
    (f.mapNames r).HoldsBy E' ↔ f.HoldsBy E := by
  induction h with
  | atom x => exact or_congr (hr x) (hE (.atom x))
  | not x => exact not_congr (or_congr (hr x) (hE (.atom x)))
  | @ex p _ _ => exact hE (.ex p)
  | @ax p _ _ =>
    rw [mapNames, HoldsBy, negate_mapNames]
    exact not_congr (hE (.ex p.negate))
  | and _ _ ihp ihq => exact and_congr ihp ihq
  | or _ _ ihp ihq => exact or_congr ihp ihq
  | @eu p q _ _ ihp ihq => exact or_congr ihq (and_congr ihp (hE (.ex (.eu p q))))
  | @er p q _ _ ihp ihq => exact and_congr ihq (or_congr ihp (hE (.ex (.er p q))))
  | @au p q _ _ ihp ihq =>
    rw [mapNames, HoldsBy, negate_mapNames, negate_mapNames]
    exact or_congr ihq (and_congr ihp (not_congr (hE (.ex (.er p.negate q.negate)))))
  | @ar p q _ _ ihp ihq =>
    rw [mapNames, HoldsBy, negate_mapNames, negate_mapNames]
    exact and_congr ihq (or_congr ihp (not_congr (hE (.ex (.eu p.negate q.negate)))))

end Constant

end Formula

end CtlTableau
