import CtlTableau.Tableau.Refinement
import Mathlib.Data.List.Nodup

/-!
# The variables of tableau states

A variable's name is its state's stem, an underscore and a number. As stems hold no underscore, the
name can be taken apart again: variables of states with different stems differ, and so do the
variables of one state (`varName_inj`). Neither is ever `TRUE`, and neither holds a prime if the stem
holds none.

The states of a run are one state `v`, which is refined, and successors named after drawn numbers.
Their stems are fit for states and differ from each other (`successorName_inj`).
-/

namespace CtlTableau

/-! ## 1. Digits -/

theorem not_mem_toString {c : Char} (hc : c.isDigit = false) (n : Nat) :
    c ∉ (toString n).toList := by
  intro h
  have h' : c ∈ Nat.toDigits 10 n := by rwa [← Nat.toList_repr]
  rw [Nat.isDigit_of_mem_toDigits (by decide) (by decide) h'] at hc
  cases hc

theorem toString_nat_inj {m n : Nat} (h : toString m = toString n) : m = n := by
  have h' := congrArg (fun s => Nat.ofDigitChars 10 s.toList 0) h
  simpa [Nat.toString_eq_ofList_toDigits] using h'

/-! ## 2. Names of variables -/

namespace SymbolicState

theorem toList_varName (stem : String) (i : Nat) :
    (varName stem i).toList = stem.toList ++ '_' :: (toString i).toList := by
  simp [varName, String.toList_append]

/-- A list is taken apart at the first place of a member that neither first part holds. -/
theorem append_cons_inj {α : Type} {a : α} {l l' r r' : List α} (hl : a ∉ l) (hl' : a ∉ l')
    (h : l ++ a :: r = l' ++ a :: r') : l = l' ∧ r = r' := by
  induction l generalizing l' with
  | nil =>
    cases l' with
    | nil => exact ⟨rfl, (List.cons.inj h).2⟩
    | cons b l' =>
      have e : a = b := (List.cons.inj h).1
      exact absurd (e ▸ List.mem_cons_self) hl'
  | cons b l ih =>
    cases l' with
    | nil =>
      have e : b = a := (List.cons.inj h).1
      exact absurd (e ▸ List.mem_cons_self) hl
    | cons b' l' =>
      obtain ⟨e, h⟩ := List.cons.inj h
      obtain ⟨h1, h2⟩ := ih (fun hm => hl (List.mem_cons_of_mem _ hm))
        (fun hm => hl' (List.mem_cons_of_mem _ hm)) h
      exact ⟨by rw [e, h1], h2⟩

/-- Stem and number can be read off a variable's name. -/
theorem varName_inj {stem stem' : String} (h : '_' ∉ stem.toList) (h' : '_' ∉ stem'.toList)
    {i j : Nat} (e : varName stem i = varName stem' j) : stem = stem' ∧ i = j := by
  have e' := congrArg String.toList e
  rw [toList_varName, toList_varName] at e'
  obtain ⟨hs, hd⟩ := append_cons_inj h h' e'
  exact ⟨String.toList_inj.mp hs, toString_nat_inj (String.toList_inj.mp hd)⟩

theorem varName_ne_true (stem : String) (i : Nat) : varName stem i ≠ Formula.trueName := by
  intro e
  have h : '_' ∈ (varName stem i).toList := by simp [toList_varName]
  rw [e] at h
  revert h
  decide

theorem prime_not_mem_varName {stem : String} (h : '\'' ∉ stem.toList) (i : Nat) :
    '\'' ∉ (varName stem i).toList := by
  rw [toList_varName, List.mem_append, List.mem_cons]
  intro h
  rcases h with h' | h' | h'
  · exact h h'
  · revert h'
    decide
  · exact not_mem_toString (by decide) i h'

/-! ## 3. Looking variables up -/

/-- The variable that stands for a formula. -/
def nameFor (u : SymbolicState) (e : Formula) : String :=
  varName u.stem (u.elementary.toList.idxOf e)

theorem nameOf_of_mem {u : SymbolicState} {e : Formula} (h : e ∈ u.elementary) :
    u.nameOf e = .ok (u.nameFor e) := by
  have hi : u.elementary.toList.findIdx? (· == e) = some (u.elementary.toList.idxOf e) := by
    rw [List.findIdx?_eq_some_iff_findIdx_eq]
    exact ⟨List.idxOf_lt_length_of_mem h, rfl⟩
  simp only [nameOf, hi, nameFor]

/-- The members are what has a variable. -/
theorem atomOf_eq_ok_iff {u : SymbolicState} {e a : Formula} :
    u.atomOf e = .ok a ↔ e ∈ u.elementary ∧ a = .atom (u.nameFor e) := by
  by_cases he : e ∈ u.elementary
  · simp [atomOf, nameOf_of_mem he, Except.map, he, eq_comm]
  · have none : u.elementary.toList.findIdx? (· == e) = none :=
      List.findIdx?_eq_none_iff.2 fun d hd => beq_false_of_ne fun e => he (e ▸ hd)
    simp [atomOf, nameOf, none, Except.map, he]

theorem mem_names {u : SymbolicState} {x : String} :
    x ∈ u.names ↔ ∃ i < u.elementary.toList.length, x = varName u.stem i := by
  simp only [names, List.mem_map, List.mem_range]
  constructor
  · intro h
    obtain ⟨i, hi, rfl⟩ := h
    exact ⟨i, hi, rfl⟩
  · intro h
    obtain ⟨i, hi, rfl⟩ := h
    exact ⟨i, hi, rfl⟩

theorem nameFor_mem_names {u : SymbolicState} {e : Formula} (h : e ∈ u.elementary) :
    u.nameFor e ∈ u.names :=
  mem_names.2 ⟨_, List.idxOf_lt_length_of_mem h, rfl⟩

theorem nodup_names (u : SymbolicState) : u.names.Nodup := by
  refine List.Nodup.map_on (fun i _ j _ e => ?_) List.nodup_range
  exact (varName_inj u.stem_valid.2 u.stem_valid.2 e).2

/-- Looking up in two lists side by side is looking up the place. -/
theorem lookup_zip {α β : Type} [BEq α] [LawfulBEq α] (x : α) (xs : List α) (ys : List β)
    (h : ys.length ≤ xs.length) : (xs.zip ys).lookup x = ys[xs.idxOf x]? := by
  induction xs generalizing ys with
  | nil =>
    cases ys with
    | nil => rfl
    | cons y ys => simp at h
  | cons a xs ih =>
    cases ys with
    | nil => simp
    | cons y ys =>
      simp only [List.length_cons, Nat.add_le_add_iff_right] at h
      rw [List.zip_cons_cons, List.lookup_cons, List.idxOf_cons]
      by_cases e : x = a
      · subst e
        simp
      · have e1 : (x == a) = false := beq_eq_false_iff_ne.2 e
        have e2 : (a == x) = false := beq_eq_false_iff_ne.2 (Ne.symm e)
        simp [e1, e2, ih ys h]

theorem length_names (u : SymbolicState) : u.names.length = u.elementary.toList.length := by
  simp [names]

/-- The table sends the variable of a formula back to the formula. -/
theorem lookup_nameFor {u : SymbolicState} {e : Formula} (h : e ∈ u.elementary) :
    u.table.lookup (u.nameFor e) = some e := by
  have hi : u.elementary.toList.idxOf e < u.elementary.toList.length :=
    List.idxOf_lt_length_of_mem h
  have hn : u.elementary.toList.idxOf e < u.names.length := u.length_names ▸ hi
  have e1 : u.names[u.elementary.toList.idxOf e] = u.nameFor e := by simp [names, nameFor]
  have e2 : u.names.idxOf (u.nameFor e) = u.elementary.toList.idxOf e := by
    rw [← e1]
    exact List.Nodup.idxOf_getElem u.nodup_names _ hn
  rw [table, lookup_zip _ _ _ (Nat.le_of_eq u.length_names.symm), e2]
  exact List.getElem?_idxOf h

theorem lookup_of_not_mem {u : SymbolicState} {x : String} (h : x ∉ u.names) :
    u.table.lookup x = none := by
  rw [table, lookup_zip _ _ _ (Nat.le_of_eq u.length_names.symm), List.idxOf_eq_length h, u.length_names]
  exact List.getElem?_eq_none (Nat.le_refl _)

/-- A variable's name is the variable of some member. -/
theorem exists_nameFor {u : SymbolicState} {x : String} (h : x ∈ u.names) :
    ∃ e ∈ u.elementary, x = u.nameFor e := by
  obtain ⟨i, hi, rfl⟩ := mem_names.1 h
  refine ⟨u.elementary.toList[i], List.getElem_mem hi, ?_⟩
  rw [nameFor, List.Nodup.idxOf_getElem u.elementary.nodup i hi]

/-- The table pairs every member with its variable. -/
theorem mem_table_iff {u : SymbolicState} {x : String} {e : Formula} :
    (x, e) ∈ u.table ↔ e ∈ u.elementary ∧ x = u.nameFor e := by
  constructor
  · intro h
    obtain ⟨i, hi, pair⟩ := List.mem_iff_getElem.1 h
    simp only [table, List.getElem_zip, names, List.getElem_map, List.getElem_range,
      Prod.mk.injEq] at pair
    obtain ⟨rfl, rfl⟩ := pair
    refine ⟨List.getElem_mem _, ?_⟩
    rw [nameFor, List.Nodup.idxOf_getElem u.elementary.nodup]
  · rintro ⟨he, rfl⟩
    obtain ⟨l₁, l₂, split, -⟩ := List.lookup_eq_some_iff.1 (lookup_nameFor he)
    rw [split]
    exact List.mem_append_right _ List.mem_cons_self

theorem true_not_mem_names (u : SymbolicState) : Formula.trueName ∉ u.names := by
  intro h
  obtain ⟨i, _, e⟩ := mem_names.1 h
  exact varName_ne_true u.stem i e.symm

theorem prime_not_mem_names {u : SymbolicState} (h : '\'' ∉ u.stem.toList) {x : String}
    (hx : x ∈ u.names) : '\'' ∉ x.toList := by
  obtain ⟨i, _, rfl⟩ := mem_names.1 hx
  exact prime_not_mem_varName h i

/-- States with different stems share no variable. -/
theorem disjoint_names {u w : SymbolicState} (h : u.stem ≠ w.stem) {x : String}
    (hu : x ∈ u.names) : x ∉ w.names := by
  intro hw
  obtain ⟨i, _, rfl⟩ := mem_names.1 hu
  obtain ⟨j, _, e⟩ := mem_names.1 hw
  exact h (varName_inj u.stem_valid.2 w.stem_valid.2 e).1

end SymbolicState

/-! ## 4. The states of a run -/

namespace Tableau

/-- What the variables of the successor with a number are named after. -/
def successorName (n : Nat) : String := successorStem ++ toString n

theorem toList_successorName (n : Nat) :
    (successorName n).toList = successorStem.toList ++ (toString n).toList := by
  rw [successorName, String.toList_append]

theorem successorName_valid (n : Nat) :
    successorName n ≠ "" ∧ '_' ∉ (successorName n).toList := by
  constructor
  · intro e
    have h := congrArg String.toList e
    rw [toList_successorName] at h
    exact absurd (List.append_eq_nil_iff.1 h).1 (by decide)
  · rw [toList_successorName, List.mem_append]
    intro h
    rcases h with h | h
    · revert h
      decide
    · exact not_mem_toString (by decide) n h

theorem prime_not_mem_successorName (n : Nat) : '\'' ∉ (successorName n).toList := by
  rw [toList_successorName, List.mem_append]
  intro h
  rcases h with h | h
  · revert h
    decide
  · exact not_mem_toString (by decide) n h

theorem successorName_inj {m n : Nat} (h : successorName m = successorName n) : m = n := by
  have h' := congrArg String.toList h
  rw [toList_successorName, toList_successorName] at h'
  exact toString_nat_inj (String.toList_inj.mp (List.append_cancel_left h'))

theorem successorName_ne_stateStem (n : Nat) : successorName n ≠ stateStem := by
  intro e
  have h := congrArg (fun s => s.toList.head?) e
  simp only [toList_successorName] at h
  revert h
  simp [successorStem, stateStem]

variable (T : Tableau)

/-- The state whose sets are refined. -/
abbrev current : SymbolicState := ⟨stateStem, T.elementary, by decide⟩

/-- The successor with a number. -/
abbrev successor (n : Nat) : SymbolicState := ⟨successorName n, T.elementary, successorName_valid n⟩

theorem make_stateStem : SymbolicState.make T.elementary stateStem = .ok T.current :=
  dif_pos T.current.stem_valid

theorem make_successorName (n : Nat) :
    SymbolicState.make T.elementary (successorName n) = .ok (T.successor n) :=
  dif_pos (successorName_valid n)

end Tableau

end CtlTableau
