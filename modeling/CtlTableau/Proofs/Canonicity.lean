import CtlTableau.Proofs.Diagrams
import Mathlib.Data.List.Permutation

/-!
# Diagrams stay what they are

A table of diagrams starts with the two constants and is given tasks, one after another, each about
diagrams that it has handed out before. A `History` is the table with what it has handed out; no
task leaves a history in which a remembered result is wrong (`Kept.serve`), so none is ever reached
(`Reaches.kept`), and no task changes what an earlier diagram stands for (`Reaches.grows`).

Main statement: `diagrams_canonical`. Each task is answered by a diagram of the function that it
asks for, a diagram keeps its function for good, and two diagrams are one if and only if their
functions are, whenever they were handed out.
-/

namespace CtlTableau.DiagramTable

/-! ## 1. Tasks -/

/-- An operation of a table, with its arguments. -/
inductive Task where
  | test (level : Nat)
  | not (f : Ref)
  | and (f g : Ref)
  | or (f g : Ref)
  | exist (f : Ref) (level : Nat)
  | all (f : Ref) (level : Nat)
  deriving DecidableEq, Repr

namespace Task

/-- The diagrams that a task is about. -/
def arguments : Task → List Ref
  | .test _ => []
  | .not f => [f]
  | .and f g => [f, g]
  | .or f g => [f, g]
  | .exist f _ => [f]
  | .all f _ => [f]

/-- Carries a task out: the diagram that answers it, and the table then. -/
def perform (t : DiagramTable) : Task → Ref × DiagramTable
  | .test level => t.test level
  | .not f => t.not f
  | .and f g => t.and f g
  | .or f g => t.or f g
  | .exist f level => t.exist f level
  | .all f level => t.all f level

/-- The function that a task asks for, where `value` gives the functions of its arguments. -/
def asks (value : Ref → (Nat → Bool) → Bool) : Task → (Nat → Bool) → Bool
  | .test level, ρ => ρ level
  | .not f, ρ => !value f ρ
  | .and f g, ρ => value f ρ && value g ρ
  | .or f g, ρ => value f ρ || value g ρ
  | .exist f level, ρ =>
    value f (Function.update ρ level false) || value f (Function.update ρ level true)
  | .all f level, ρ =>
    value f (Function.update ρ level false) && value f (Function.update ρ level true)

end Task

/-- The function of a diagram in a table. -/
def function (t : DiagramTable) (f : Ref) (ρ : Nat → Bool) : Bool := t.value ρ f

variable {t : DiagramTable} {f : Ref}

theorem denotes_function (hf : f < t.nodes.size) : t.Denotes f (t.function f) := ⟨hf, fun _ => rfl⟩

/-- **Every task is answered by the function that it asks for**, and leaves the table sound. -/
theorem computes_perform (ht : t.Sound) {task : Task}
    (hargs : ∀ f ∈ task.arguments, f < t.nodes.size) :
    Computes t (task.asks t.function) (task.perform t) := by
  have arg : ∀ {f}, f ∈ task.arguments → t.Denotes f (t.function f) := fun hf =>
    denotes_function (hargs _ hf)
  cases task with
  | test level => exact computes_test ht level
  | not f => exact computes_not ht (arg List.mem_cons_self)
  | and f g =>
    exact computes_and ht (arg List.mem_cons_self) (arg (List.mem_cons_of_mem _ List.mem_cons_self))
  | or f g =>
    exact computes_or ht (arg List.mem_cons_self) (arg (List.mem_cons_of_mem _ List.mem_cons_self))
  | exist f level => exact computes_exist ht (arg List.mem_cons_self) level
  | all f level => exact computes_all ht (arg List.mem_cons_self) level

/-! ## 2. Histories -/

/-- A table with the diagrams that it has handed out, the newest first. -/
structure History where
  table : DiagramTable
  given : List Ref

namespace History

/-- The table without tests, and the constants. -/
def start : History := ⟨.empty, [falsum, verum]⟩

/-- Has a task carried out. -/
def serve (h : History) (task : Task) : History :=
  let r := task.perform h.table
  ⟨r.2, r.1 :: h.given⟩

/-- One history grows to the other by tasks about diagrams that were handed out before. -/
inductive Reaches (h : History) : History → Prop where
  | refl : Reaches h h
  | serve {h' : History} (before : Reaches h h') (task : Task)
      (known : ∀ f ∈ task.arguments, f ∈ h'.given) : Reaches h (h'.serve task)

/-- The table is sound, and holds what was handed out. -/
structure Kept (h : History) : Prop where
  sound : h.table.Sound
  given : ∀ f ∈ h.given, f < h.table.nodes.size

variable {h h' : History}

theorem kept_start : start.Kept where
  sound := sound_empty
  given f hf := by
    simp only [start, List.mem_cons, List.not_mem_nil, or_false] at hf
    rcases hf with rfl | rfl
    · exact sound_empty.denotes_falsum.lt_size
    · exact sound_empty.denotes_verum.lt_size

theorem Kept.computes (hk : h.Kept) {task : Task} (known : ∀ f ∈ task.arguments, f ∈ h.given) :
    Computes h.table (task.asks h.table.function) (task.perform h.table) :=
  computes_perform hk.sound fun f hf => hk.given f (known f hf)

/-- A task keeps the table sound. -/
theorem Kept.serve (hk : h.Kept) {task : Task} (known : ∀ f ∈ task.arguments, f ∈ h.given) :
    (h.serve task).Kept := by
  have computes := hk.computes known
  refine ⟨computes.sound, fun f hf => ?_⟩
  rcases List.mem_cons.1 hf with rfl | hf
  · exact computes.denotes.lt_size
  · exact Nat.lt_of_lt_of_le (hk.given f hf) computes.grows.size

theorem Reaches.kept (reached : h.Reaches h') (hk : h.Kept) : h'.Kept := by
  induction reached with
  | refl => exact hk
  | serve before task known ih => exact ih.serve known

/-- What is in a table stays there. -/
theorem Reaches.grows (reached : h.Reaches h') (hk : h.Kept) : h.table.Extends h'.table := by
  induction reached with
  | refl => exact .refl _
  | serve before task known ih => exact ih.trans ((before.kept hk).computes known).grows

/-- What was handed out stays handed out. -/
theorem Reaches.mem_given (reached : h.Reaches h') {f : Ref} (hf : f ∈ h.given) : f ∈ h'.given := by
  induction reached with
  | refl => exact hf
  | serve before task known ih => exact List.mem_cons_of_mem _ ih

/-- A diagram that was handed out keeps its function. -/
theorem Reaches.function_eq (reached : h.Reaches h') (hk : h.Kept) {f : Ref} (hf : f ∈ h.given) :
    h'.table.function f = h.table.function f :=
  funext (value_of_extends hk.sound.toReduced (reached.kept hk).sound.toReduced
    (reached.grows hk) (hk.given f hf))

end History

/-! ## 3. Canonicity -/

open History

/-- **Diagrams are canonical.** After any tasks, each about diagrams that were handed out before,
    a diagram stands for the function that its tests lead through. The next task is answered by a
    diagram of the function that it asks for; whatever tasks follow, the diagrams handed out so far
    keep their functions, and one that is handed out later is the same if and only if its function
    is. The constants stand for the constant functions alone. -/
theorem diagrams_canonical {h : History} (reached : start.Reaches h) :
    (∀ f n, h.table.Tests f n → ∀ ρ, h.table.function f ρ =
      if ρ n.level then h.table.function n.high ρ else h.table.function n.low ρ) ∧
    (∀ task : Task, (∀ f ∈ task.arguments, f ∈ h.given) →
      (h.serve task).table.function (task.perform h.table).1 = task.asks h.table.function) ∧
    (∀ h', h.Reaches h' →
      (∀ f ∈ h.given, f ∈ h'.given ∧ h'.table.function f = h.table.function f) ∧
      ∀ f ∈ h.given, ∀ g ∈ h'.given, f = g ↔ h.table.function f = h'.table.function g) ∧
    ∀ f ∈ h.given, (f = verum ↔ ∀ ρ, h.table.function f ρ = true) ∧
      (f = falsum ↔ ∀ ρ, h.table.function f ρ = false) := by
  have hk := reached.kept kept_start
  refine ⟨fun f n hf ρ => hk.sound.value_of_tests hf, fun task known => ?_, fun h' later => ?_,
    fun f hf => verdict_of_denotes hk.sound.toReduced (denotes_function (hk.given f hf))⟩
  · exact funext (hk.computes known).denotes.value
  · have hk' := later.kept hk
    refine ⟨fun f hf => ⟨later.mem_given hf, later.function_eq hk hf⟩, fun f hf g hg => ⟨?_, ?_⟩⟩
    · rintro rfl
      exact (later.function_eq hk hf).symm
    · intro e
      refine hk'.sound.eq_of_value (hk'.given f (later.mem_given hf)) (hk'.given g hg) fun ρ => ?_
      exact congrFun ((later.function_eq hk hf).trans e) ρ

/-- Two levels are handed out as the diagrams 2 and 3, and their disjunction. -/
def disjunction : History := ((start.serve (.test 0)).serve (.test 1)).serve (.or 2 3)

/-- The disjunction is diagram 7, and "all" over its first level gives the second level, which is
    diagram 3 as before. -/
theorem diagrams_canonical_disjunction : start.Reaches disjunction ∧
    ((Task.all 7 0).perform disjunction.table).1 = 3 ∧
    ∀ ρ, disjunction.table.function 3 ρ =
      (disjunction.table.function 7 (Function.update ρ 0 false) &&
        disjunction.table.function 7 (Function.update ρ 0 true)) := by
  have given : ((start.serve (.test 0)).serve (.test 1)).given = [3, 2, 0, 1] := by cbv
  have given' : disjunction.given = [7, 3, 2, 0, 1] := by cbv
  have answer : ((Task.all 7 0).perform disjunction.table).1 = 3 := by cbv
  have reached : start.Reaches disjunction := by
    refine .serve (.serve (.serve .refl _ (by decide)) _ (by decide)) (.or 2 3) fun f hf => ?_
    rw [given]
    simp only [Task.arguments, List.mem_cons, List.not_mem_nil, or_false] at hf
    rcases hf with rfl | rfl <;> decide
  have known : ∀ f ∈ (Task.all 7 0).arguments, f ∈ disjunction.given := by
    rw [given']
    decide
  obtain ⟨-, served, keeps, -⟩ := diagrams_canonical reached
  have kept := ((keeps _ (.serve .refl _ known)).1 3 (by rw [given']; decide)).2
  have all := served (.all 7 0) known
  rw [answer, kept] at all
  exact ⟨reached, answer, congrFun all⟩

end CtlTableau.DiagramTable
