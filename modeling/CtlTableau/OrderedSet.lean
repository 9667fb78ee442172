/-!
# Finite sets in increasing order

The clause sets, closures and name sets of this library are finite sets whose members come in a
fixed order: that order numbers the variables of a tableau state and the lines of a clause file.
A set is therefore its strictly increasing list of members.

* `OrderedSet.ofList` sorts and drops repetitions; its members are those of the list
  (`mem_ofList`), in increasing order (`OrderedSet.increasing`).
* Two sets with the same members are equal (`OrderedSet.ext_mem`): the list is a normal form.
-/

namespace CtlTableau

/-- A finite set, as the list of its members in strictly increasing order. -/
structure OrderedSet (α : Type) [Ord α] where
  /-- The members, smallest first. -/
  toList : List α
  /-- Every member is smaller than the later ones. -/
  increasing : toList.Pairwise (fun a b => compare a b = .lt)

/-! ## 1. Dropping repetitions from a sorted list -/

/-- Drops each entry that compares equal to its successor. -/
def dropRepeats {α : Type} [Ord α] : List α → List α
  | [] => []
  | [a] => [a]
  | a :: b :: rest =>
    if compare a b = .eq then dropRepeats (b :: rest) else a :: dropRepeats (b :: rest)

theorem mem_of_mem_dropRepeats {α : Type} [Ord α] {x : α} :
    ∀ {l : List α}, x ∈ dropRepeats l → x ∈ l
  | [], h => h
  | [_], h => h
  | a :: b :: rest, h => by
    unfold dropRepeats at h
    split at h
    · exact List.mem_cons_of_mem _ (mem_of_mem_dropRepeats h)
    · rcases List.mem_cons.1 h with rfl | h
      · exact List.mem_cons_self
      · exact List.mem_cons_of_mem _ (mem_of_mem_dropRepeats h)

/-- Nothing is lost, as only entries with an equal neighbour go. -/
theorem mem_dropRepeats {α : Type} [Ord α] [Std.LawfulEqOrd α] {x : α} :
    ∀ {l : List α}, x ∈ dropRepeats l ↔ x ∈ l
  | [] => Iff.rfl
  | [_] => Iff.rfl
  | a :: b :: rest => by
    refine ⟨mem_of_mem_dropRepeats, fun h => ?_⟩
    unfold dropRepeats
    split
    · rename_i hab
      have e : a = b := Std.LawfulEqOrd.eq_of_compare hab
      subst e
      rcases List.mem_cons.1 h with rfl | h
      · exact mem_dropRepeats.2 List.mem_cons_self
      · exact mem_dropRepeats.2 h
    · rcases List.mem_cons.1 h with rfl | h
      · exact List.mem_cons_self
      · exact List.mem_cons_of_mem _ (mem_dropRepeats.2 h)

/-- On a sorted list the result increases strictly. -/
theorem pairwise_dropRepeats {α : Type} [Ord α] [Std.TransOrd α] :
    ∀ {l : List α}, l.Pairwise (fun a b => (compare a b).isLE) →
      (dropRepeats l).Pairwise (fun a b => compare a b = .lt)
  | [], _ => List.Pairwise.nil
  | [_], _ => List.pairwise_singleton _ _
  | a :: b :: rest, h => by
    have tail := List.Pairwise.of_cons h
    unfold dropRepeats
    split
    · exact pairwise_dropRepeats tail
    · rename_i hab
      refine List.pairwise_cons.2 ⟨fun x hx => ?_, pairwise_dropRepeats tail⟩
      have hlt : compare a b = .lt := by
        have hle := (List.pairwise_cons.1 h).1 b List.mem_cons_self
        cases hc : compare a b <;> simp_all
      rcases List.mem_cons.1 (mem_of_mem_dropRepeats hx) with rfl | hx
      · exact hlt
      · exact Std.TransCmp.lt_of_lt_of_isLE hlt ((List.pairwise_cons.1 tail).1 x hx)

namespace OrderedSet

/-! ## 2. Building and reading sets -/

variable {α : Type}

section
variable [Ord α]

instance : Membership α (OrderedSet α) := ⟨fun s x => x ∈ s.toList⟩

theorem mem_def {x : α} {s : OrderedSet α} : x ∈ s ↔ x ∈ s.toList := Iff.rfl

/-- The set without members. -/
def empty : OrderedSet α := ⟨[], List.Pairwise.nil⟩

/-- The number of members. -/
def size (s : OrderedSet α) : Nat := s.toList.length

/-- The members with a property, in the same order. -/
def filter (s : OrderedSet α) (keep : α → Bool) : OrderedSet α :=
  ⟨s.toList.filter keep, s.increasing.filter keep⟩

theorem mem_filter {s : OrderedSet α} {keep : α → Bool} {x : α} :
    x ∈ s.filter keep ↔ x ∈ s ∧ keep x = true := by
  simp [mem_def, filter]

end

section
variable [Ord α] [Std.TransOrd α]

/-- The set of the entries of a list. -/
def ofList (l : List α) : OrderedSet α where
  toList := dropRepeats (l.mergeSort (fun a b => (compare a b).isLE))
  increasing := by
    refine pairwise_dropRepeats (List.pairwise_mergeSort ?_ ?_ l)
    · exact fun _ _ _ hab hbc => Std.TransCmp.isLE_trans hab hbc
    · intro a b
      have h : compare a b = (compare b a).swap := Std.OrientedCmp.eq_swap
      cases hc : compare b a <;> simp [h, hc]

theorem mem_ofList [Std.LawfulEqOrd α] {l : List α} {x : α} : x ∈ ofList l ↔ x ∈ l := by
  simp [mem_def, ofList, mem_dropRepeats]

/-- The members of either set. -/
def union (s t : OrderedSet α) : OrderedSet α := ofList (s.toList ++ t.toList)

theorem mem_union [Std.LawfulEqOrd α] {s t : OrderedSet α} {x : α} :
    x ∈ s.union t ↔ x ∈ s ∨ x ∈ t := by
  rw [union, mem_ofList, List.mem_append]
  exact Iff.rfl

theorem nodup (s : OrderedSet α) : s.toList.Nodup :=
  s.increasing.imp fun {a b} hab e => by subst b; simp at hab

/-- The list is a normal form: sets with the same members are equal. -/
theorem ext_mem {s t : OrderedSet α} (h : ∀ x, x ∈ s ↔ x ∈ t) : s = t := by
  obtain ⟨l, hl⟩ := s
  obtain ⟨m, hm⟩ := t
  have perm : l.Perm m := (List.perm_ext_iff_of_nodup (nodup ⟨l, hl⟩) (nodup ⟨m, hm⟩)).2 h
  have e : l = m := by
    refine List.Perm.eq_of_pairwise ?_ hl hm perm
    intro a b _ _ hab hba
    exact False.elim (Std.OrientedCmp.not_lt_of_lt hab hba)
  subst e
  rfl

/-- Searching from the front finds the least member with a property. -/
theorem find?_eq_some_iff [Std.LawfulEqOrd α] {s : OrderedSet α} {p : α → Bool} {x : α} :
    s.toList.find? p = some x ↔
      x ∈ s ∧ p x = true ∧ ∀ y ∈ s, p y = true → (compare x y).isLE = true := by
  obtain ⟨l, hl⟩ := s
  simp only [mem_def]
  constructor
  · intro h
    obtain ⟨hx, as, bs, rfl, has⟩ := List.find?_eq_some_iff_append.1 h
    refine ⟨List.mem_append_right _ List.mem_cons_self, hx, fun y hy hp => ?_⟩
    rcases List.mem_append.1 hy with hy | hy
    · exact absurd hp (by simpa using has y hy)
    · rcases List.mem_cons.1 hy with rfl | hy
      · simp
      · have lt := (List.pairwise_cons.1 (List.pairwise_append.1 hl).2.1).1 y hy
        simp [lt]
  · rintro ⟨hx, hp, least⟩
    cases hfind : l.find? p with
    | none => exact absurd hp (List.find?_eq_none.1 hfind x hx)
    | some z =>
      obtain ⟨hz, as, bs, rfl, has⟩ := List.find?_eq_some_iff_append.1 hfind
      have hle := least z (List.mem_append_right _ List.mem_cons_self) hz
      rcases List.mem_append.1 hx with hx | hx
      · exact absurd hp (by simpa using has x hx)
      · rcases List.mem_cons.1 hx with rfl | hx
        · rfl
        · have lt := (List.pairwise_cons.1 (List.pairwise_append.1 hl).2.1).1 x hx
          have swap : compare x z = (compare z x).swap := Std.OrientedCmp.eq_swap
          rw [swap, lt] at hle
          cases hle

end

/-! ## 3. Sets of sets

Sets compare by their member lists, so that sets can be members of sets. -/

instance [Ord α] : Ord (OrderedSet α) := ⟨fun s t => compare s.toList t.toList⟩

instance [Ord α] [Std.TransOrd α] : Std.TransOrd (OrderedSet α) where
  eq_swap {s t} := Std.OrientedCmp.eq_swap (a := s.toList) (b := t.toList)
  isLE_trans {s t u} h h' :=
    Std.TransCmp.isLE_trans (a := s.toList) (b := t.toList) (c := u.toList) h h'

instance [Ord α] [Std.LawfulEqOrd α] : Std.LawfulEqOrd (OrderedSet α) where
  compare_self {s} := Std.ReflCmp.compare_self (a := s.toList)
  eq_of_compare {s t} h := by
    have e : s.toList = t.toList := Std.LawfulEqOrd.eq_of_compare h
    cases s
    cases t
    cases e
    rfl

end OrderedSet

end CtlTableau
