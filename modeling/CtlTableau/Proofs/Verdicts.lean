import CtlTableau.Diagram.Formula
import CtlTableau.Proofs.Boolean
import CtlTableau.Proofs.Diagrams

/-!
# What diagrams say about formulas

The diagram of a boolean formula stands for its truth, as long as no two of its names have the same
level (`computes_build`), which the levels of a formula see to (`levels_inj`). As diagrams are a normal
form, a formula that has the same value under every valuation comes out as a constant, and no other
does (`diagramVerdict_eq_ok`, `diagramVerdict_eq_error`).
-/

namespace CtlTableau

/-! ## 1. Levels -/

theorem perm_levelOrder (names : List String) : (levelOrder names).Perm names := by
  have sorted := (List.mergeSort_perm (names.map fun x => (levelKey x, x))
    fun a b => keyLE a.1 b.1).map (·.2)
  have e : (names.map fun x => (levelKey x, x)).map (·.2) = names := by
    rw [List.map_map]
    exact List.map_id names
  rwa [e] at sorted

namespace Formula

/-- The level of a name. -/
def levelOf (f : Formula) (x : String) : Nat := f.levels.getD x 0

/-- Different names of a formula have different levels. -/
theorem levels_inj {f : Formula} {x y : String} (hx : x ∈ f.names) (hy : y ∈ f.names)
    (h : f.levelOf x = f.levelOf y) : x = y := by
  have nodup : (levelOrder f.nameSet.toList).Nodup :=
    (perm_levelOrder _).nodup_iff.2 f.nameSet.nodup
  have apart : (levelOrder f.nameSet.toList).zipIdx.Pairwise fun a b => (a.1 == b.1) = false := by
    have e := nodup
    rw [← List.zipIdx_map_fst 0 (levelOrder f.nameSet.toList), List.Nodup, List.pairwise_map] at e
    exact e.imp fun h => beq_eq_false_iff_ne.2 h
  have place : ∀ {z}, z ∈ f.names → (levelOrder f.nameSet.toList)[f.levelOf z]? = some z := by
    intro z hz
    have hz : z ∈ levelOrder f.nameSet.toList := (perm_levelOrder _).mem_iff.2 (mem_nameSet.2 hz)
    obtain ⟨i, hi⟩ := List.getElem?_of_mem hz
    have e : f.levelOf z = i := Std.HashMap.getD_ofList_of_mem (beq_self_eq_true z) apart
      (List.mem_zipIdx_iff_getElem?.2 hi)
    rw [e, hi]
  have e := place hx
  rw [h, place hy] at e
  exact (Option.some.inj e).symm

end Formula

namespace DiagramTable

open Formula

/-! ## 2. Building -/

/-- **The diagram of a formula stands for its truth**, where names have levels of their own. -/
theorem computes_build {levels : Std.HashMap String Nat} {f : Formula} {t : DiagramTable}
    (hf : f.isBoolean = true)
    (inj : ∀ x ∈ f.names, ∀ y ∈ f.names, levels.getD x 0 = levels.getD y 0 → x = y)
    (ht : t.Sound) : ∃ r, build levels f t = .ok r ∧
      Computes t (fun ρ => f.eval fun x => ρ (levels.getD x 0)) r := by
  induction f generalizing t with
  | atom x =>
    refine ⟨_, rfl, ?_⟩
    by_cases h : x = trueName
    · rw [if_pos h, h]
      exact (computes_self ht ht.denotes_verum).of_eq fun ρ => (eval_truth _).symm
    · rw [if_neg h]
      exact (computes_test ht _).of_eq fun ρ => by rw [eval_atom h]
  | unary op p ih =>
    simp only [isBoolean, Bool.and_eq_true, beq_iff_eq] at hf
    obtain ⟨rfl, hp⟩ := hf
    obtain ⟨r, hr, h⟩ := ih hp inj ht
    refine ⟨_, by rw [build, if_pos rfl, hr], ?_⟩
    exact h.andThen (computes_not h.sound h.denotes)
  | binary op p q ihp ihq =>
    simp only [isBoolean, Bool.and_eq_true, Bool.or_eq_true, beq_iff_eq] at hf
    obtain ⟨hop, hp, hq⟩ := hf
    have injp := fun x hx y hy => inj x (List.mem_append_left _ hx) y (List.mem_append_left _ hy)
    have injq := fun x hx y hy => inj x (List.mem_append_right _ hx) y (List.mem_append_right _ hy)
    obtain ⟨r, hr, h⟩ := ihp hp injp ht
    rcases hop with (rfl | rfl) | rfl
    · obtain ⟨r', hr', h'⟩ := ihq hq injq h.sound
      refine ⟨r'.2.and r.1 r'.1, by simp [build, hr, hr'], ?_⟩
      exact h.andThen (h'.andThen (computes_and h'.sound (h'.keeps h.sound h.denotes) h'.denotes))
    · obtain ⟨r', hr', h'⟩ := ihq hq injq h.sound
      refine ⟨r'.2.or r.1 r'.1, by simp [build, hr, hr'], ?_⟩
      exact h.andThen (h'.andThen (computes_or h'.sound (h'.keeps h.sound h.denotes) h'.denotes))
    · have n := computes_not h.sound h.denotes
      obtain ⟨r', hr', h'⟩ := ihq hq injq n.sound
      refine ⟨r'.2.or (r.2.not r.1).1 r'.1, by simp [build, hr, hr'], ?_⟩
      exact h.andThen (n.andThen (h'.andThen
        (computes_or h'.sound (h'.keeps n.sound n.denotes) h'.denotes)))
  | quant k x p ih =>
    have injp := fun y hy z hz => inj y (List.mem_cons_of_mem _ hy) z (List.mem_cons_of_mem _ hz)
    obtain ⟨r, hr, h⟩ := ih hf injp ht
    -- a value for the level is a value for the name, as no other name has the level
    have update : ∀ (ρ : Nat → Bool) v,
        (p.eval fun y => Function.update ρ (levels.getD x 0) v (levels.getD y 0)) =
          p.eval (Function.update (fun y => ρ (levels.getD y 0)) x v) := by
      intro ρ v
      refine eval_congr fun y hy _ => ?_
      by_cases e : y = x
      · subst e
        rw [Function.update_self, Function.update_self]
      · rw [Function.update_of_ne e, Function.update_of_ne]
        exact fun h => e (inj y (List.mem_cons_of_mem _ (mem_names_of_mem_freeNames hy)) x
          List.mem_cons_self h)
    refine ⟨_, by rw [build, hr], ?_⟩
    cases k with
    | existential =>
      refine (h.andThen (computes_exist h.sound h.denotes _)).of_eq fun ρ => ?_
      rw [projected, update, update, eval]
    | universal =>
      refine (h.andThen (computes_all h.sound h.denotes _)).of_eq fun ρ => ?_
      rw [update, update, eval]

end DiagramTable

/-! ## 3. Verdicts -/

namespace Formula

open DiagramTable

theorem verdict_eq_ok (r : Ref) (e : Fault) (b : Bool) :
    verdict r e = .ok b ↔ r = if b then verum else falsum := by
  unfold verdict
  split
  · next h => cases b <;> simp [h]
  · next h =>
    split
    · next h' => cases b <;> simp [h']
    · next h' => cases b <;> simp [h, h']

/-- The diagram of a formula and its truth. -/
theorem exists_build {f : Formula} (hf : f.isBoolean = true) :
    ∃ r, build f.levels f .empty = .ok r ∧ (r.1 = verum ↔ ∀ ρ, f.eval ρ = true) ∧
      (r.1 = falsum ↔ ∀ ρ, f.eval ρ = false) := by
  obtain ⟨r, hr, h⟩ := computes_build hf (fun x hx y hy => levels_inj hx hy) sound_empty
  have all : ∀ b, (∀ ρ : Nat → Bool, (f.eval fun x => ρ (f.levelOf x)) = b) ↔
      ∀ τ, f.eval τ = b := by
    intro b
    refine ⟨fun h τ => ?_, fun h ρ => h _⟩
    classical
    rw [← h fun i => decide (∃ x ∈ f.names, f.levelOf x = i ∧ τ x = true)]
    refine eval_congr fun x hx _ => ?_
    have hx := mem_names_of_mem_freeNames hx
    have e : (∃ y ∈ f.names, f.levelOf y = f.levelOf x ∧ τ y = true) ↔ τ x = true := by
      refine ⟨fun ⟨y, hy, e, h⟩ => levels_inj hy hx e ▸ h, fun h => ⟨x, hx, rfl, h⟩⟩
    rw [Bool.eq_iff_iff, decide_eq_true_iff]
    exact e.symm
  have verdict := verdict_of_denotes h.sound.toReduced h.denotes
  exact ⟨r, hr, verdict.1.trans (all true), verdict.2.trans (all false)⟩

/-- **A verdict is the value that a formula has under every valuation.** -/
theorem diagramVerdict_eq_ok {f : Formula} (hf : f.isBoolean = true) (b : Bool) :
    f.diagramVerdict = .ok b ↔ ∀ ρ, f.eval ρ = b := by
  obtain ⟨r, hr, allTrue, allFalse⟩ := exists_build hf
  simp only [diagramVerdict, hr, verdict_eq_ok]
  cases b with
  | true => exact allTrue
  | false => exact allFalse

/-- A formula whose value depends on the valuation has no verdict. -/
theorem diagramVerdict_eq_error {f : Formula} (hf : f.isBoolean = true)
    (h : ∀ b, ¬ ∀ ρ, f.eval ρ = b) :
    f.diagramVerdict = .error (.freeVariables f.free.toList) := by
  obtain ⟨r, hr, allTrue, allFalse⟩ := exists_build hf
  simp only [diagramVerdict, hr, verdict, if_neg (mt allTrue.1 (h true)),
    if_neg (mt allFalse.1 (h false))]

end Formula

end CtlTableau
