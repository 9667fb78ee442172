import CtlTableau.Proofs.State
import Mathlib.Data.Set.Card
import Mathlib.Order.CompletePartialOrder
import Mathlib.Order.FixedPoints
import Mathlib.Order.Lattice.Nat

/-!
# Pruning sets of states

The algorithm that a run carries out on formulas, on the sets of states themselves. `prune X` keeps
the members of `X` that have successors in `X` and in it find all that they promise; "until"
promises are found in least fixpoints relative to `X`, on a path (`pathStep`) or on a tree
(`treeStep`).

As there are finitely many states, every fixpoint is reached by iteration, and within as many steps
as there are states:

* a monotone step that grows a set from the empty one stops at its least fixpoint
  (`lfp_eq_iterate`, `le_card_of_grows`, `exists_mem_iterate`);
* pruning from the set of all states shrinks the set until it stays as it is
  (`le_card_of_shrinks`).
-/

namespace CtlTableau

/-! ## 1. Fixpoints over finitely many states -/

section Stages

variable {S : Type} {F : Set S →o Set S} {n : Nat}

/-- The stages of the growing set stay below the least fixpoint. -/
theorem iterate_subset_lfp (F : Set S →o Set S) (n : Nat) : F^[n] ∅ ⊆ F.lfp := by
  induction n with
  | zero => exact Set.empty_subset _
  | succ n ih =>
    rw [Function.iterate_succ_apply']
    exact (F.monotone ih).trans F.map_lfp.le

/-- A stage that does not grow is the least fixpoint. -/
theorem lfp_eq_iterate (h : F^[n + 1] ∅ ⊆ F^[n] ∅) : F.lfp = F^[n] ∅ := by
  rw [Function.iterate_succ_apply'] at h
  exact Set.Subset.antisymm (F.lfp_le h) (iterate_subset_lfp F n)

/-- How often the set grows. -/
noncomputable def stage (F : Set S →o Set S) : Nat := sInf {i | F^[i + 1] ∅ ⊆ F^[i] ∅}

theorem iterate_subset_succ (F : Set S →o Set S) (n : Nat) : F^[n] ∅ ⊆ F^[n + 1] ∅ := by
  induction n with
  | zero => exact Set.empty_subset _
  | succ n ih =>
    rw [Function.iterate_succ_apply', Function.iterate_succ_apply' _ (n + 1)]
    exact F.monotone ih

variable [Fintype S]

/-- Every step that grows the set adds a state. -/
theorem le_ncard_iterate (h : ∀ i < n, ¬ F^[i + 1] ∅ ⊆ F^[i] ∅) : n ≤ (F^[n] ∅).ncard := by
  induction n with
  | zero => exact Nat.zero_le _
  | succ n ih =>
    have hlt : (F^[n] ∅).ncard < (F^[n + 1] ∅).ncard :=
      Set.ncard_lt_ncard ⟨iterate_subset_succ F n, h n (Nat.lt_succ_self n)⟩ (Set.toFinite _)
    have hle := ih fun i hi => h i (Nat.lt_succ_of_lt hi)
    omega

theorem le_card_of_grows (h : ∀ i < n, ¬ F^[i + 1] ∅ ⊆ F^[i] ∅) : n ≤ Fintype.card S :=
  (le_ncard_iterate h).trans ((Set.ncard_le_card _).trans Nat.card_eq_fintype_card.le)

/-- A member of the least fixpoint belongs to a stage. -/
theorem exists_mem_iterate {s : S} (h : s ∈ F.lfp) : ∃ n, s ∈ F^[n] ∅ := by
  by_contra hs
  -- without a stage that stops growing there would be more states than there are
  have grows : ∀ n, ¬ F^[n + 1] ∅ ⊆ F^[n] ∅ := fun n hn =>
    hs ⟨n, lfp_eq_iterate hn ▸ h⟩
  exact Nat.not_succ_le_self _ (le_card_of_grows (n := Fintype.card S + 1) fun i _ => grows i)

/-- Every step that shrinks the set of all states removes a state. -/
theorem le_card_of_shrinks {g : Set S → Set S} (hg : ∀ X, g X ⊆ X)
    (h : ∀ i < n, ¬ g^[i] Set.univ ⊆ g^[i + 1] Set.univ) : n ≤ Fintype.card S := by
  have key : n + (g^[n] Set.univ).ncard ≤ Fintype.card S := by
    induction n with
    | zero =>
      rw [Nat.zero_add]
      exact (Set.ncard_le_card _).trans Nat.card_eq_fintype_card.le
    | succ n ih =>
      have hsub : g^[n + 1] Set.univ ⊆ g^[n] Set.univ := by
        rw [Function.iterate_succ_apply']
        exact hg _
      have hlt : (g^[n + 1] Set.univ).ncard < (g^[n] Set.univ).ncard :=
        Set.ncard_lt_ncard ⟨hsub, h n (Nat.lt_succ_self n)⟩ (Set.toFinite _)
      have hle := ih fun i hi => h i (Nat.lt_succ_of_lt hi)
      omega
  omega

end Stages

namespace Tableau

variable (T : Tableau)

/-- No more steps than states are fewer than rounds may be needed. -/
theorem lt_roundBound {n : Nat} (h : n ≤ Fintype.card (State T.elementary)) :
    n + 1 ≤ T.roundBound := by
  rw [card_state] at h
  exact Nat.succ_le_succ h

/-! ## 2. Truth in a state, and which state may follow -/

/-- The value of the formula is true in the state. -/
def Satisfies (s : State T.elementary) (g : Formula) : Prop :=
  ∃ a, T.current.value g = .ok a ∧ a.eval (T.current.write (fun _ => false) s) = true

/-- The second state may follow the first: it satisfies nothing that the first one denies to all its
    successors. -/
def Follows (s t : State T.elementary) : Prop :=
  ∀ g, .ex g ∈ T.elementary → ¬ T.Satisfies s (.ex g) → ¬ T.Satisfies t g

variable {T}

/-- A state satisfies what the expansion laws make true. -/
theorem satisfies_iff {g : Formula} (h : T.Decides g) (s : State T.elementary) :
    T.Satisfies s g ↔ g.HoldsBy s.IsTrue := by
  obtain ⟨a, ha, hd⟩ := SymbolicState.exists_value (u := T.current) h.within 0
  have hs := hd.eval_write (fun _ => false) s
  constructor
  · intro h'
    obtain ⟨b, hb, h'⟩ := h'
    rw [ha] at hb
    cases hb
    exact hs.1 h'
  · exact fun h' => ⟨a, ha, hs.2 h'⟩

/-- The value of a formula stands for the states that satisfy the formula. -/
theorem exists_value {g : Formula} (h : T.Decides g) (k : Nat) :
    ∃ a, T.current.value g = .ok a ∧ T.current.Describes k a {s | T.Satisfies s g} := by
  obtain ⟨a, ha, hd⟩ := SymbolicState.exists_value (u := T.current) h.within k
  exact ⟨a, ha, hd.congr fun s => (satisfies_iff h s).symm⟩

variable {s : State T.elementary} {g p q : Formula}

theorem satisfies_negate_iff (h : T.Decides g) :
    T.Satisfies s g.negate ↔ ¬ T.Satisfies s g := by
  rw [satisfies_iff h.negate, satisfies_iff h]
  exact Formula.holdsBy_negate_iff h.normal _

theorem satisfies_eu_iff (h : T.Decides (.eu p q)) : T.Satisfies s (.eu p q) ↔
    T.Satisfies s q ∨ T.Satisfies s p ∧ T.Satisfies s (.ex (.eu p q)) := by
  obtain ⟨hex, hp, hq⟩ := h.eu
  rw [satisfies_iff h, satisfies_iff hp, satisfies_iff hq, satisfies_iff (h.next hex)]
  exact Iff.rfl

theorem satisfies_au_iff (h : T.Decides (.au p q)) : T.Satisfies s (.au p q) ↔
    T.Satisfies s q ∨ T.Satisfies s p ∧ ¬ T.Satisfies s (.ex (.er p.negate q.negate)) := by
  obtain ⟨hex, hp, hq⟩ := h.au
  have hnext : T.Decides (.ex (.er p.negate q.negate)) := h.negate.next hex
  rw [satisfies_iff h, satisfies_iff hp, satisfies_iff hq, satisfies_iff hnext]
  exact Iff.rfl

/-- A state that may follow satisfies "next" formulas for the state before. -/
theorem Follows.satisfies_next {t : State T.elementary} (h : T.Follows s t)
    (hg : .ex g ∈ T.elementary) (ht : T.Satisfies t g) : T.Satisfies s (.ex g) := by
  by_contra hs
  exact h g hg hs ht

/-! ## 3. Pruning -/

variable (T)

/-- One step more of "until" on some path through `X`. -/
def pathStep (X : Set (State T.elementary)) (p q : Formula) :
    Set (State T.elementary) →o Set (State T.elementary) where
  toFun F := {s | T.Satisfies s q ∨ T.Satisfies s p ∧ ∃ t ∈ X, T.Follows s t ∧ t ∈ F}
  monotone' := by
    intro F G h s r
    rcases r with hq | ⟨hp, t, ht, hst, htF⟩
    · exact Or.inl hq
    · exact Or.inr ⟨hp, t, ht, hst, h htF⟩

/-- One step more of "until" in some tree through `X`, in which every node has a successor, and one
    for every "some next" formula that it satisfies. -/
def treeStep (X : Set (State T.elementary)) (p q : Formula) :
    Set (State T.elementary) →o Set (State T.elementary) where
  toFun F := {s | T.Satisfies s q ∨ T.Satisfies s p ∧ (∃ t ∈ X, T.Follows s t ∧ t ∈ F) ∧
    ∀ g, .ex g ∈ T.elementary → T.Satisfies s (.ex g) →
      ∃ t ∈ X, T.Follows s t ∧ t ∈ F ∧ T.Satisfies t g}
  monotone' := by
    intro F G h s r
    rcases r with hq | ⟨hp, ⟨t, ht, hst, htF⟩, hall⟩
    · exact Or.inl hq
    · refine Or.inr ⟨hp, ⟨t, ht, hst, h htF⟩, fun g hg hs => ?_⟩
      obtain ⟨t, ht, hst, htF, htg⟩ := hall g hg hs
      exact ⟨t, ht, hst, h htF, htg⟩

/-- What makes a state stay when `X` is pruned. -/
structure Survives (X : Set (State T.elementary)) (s : State T.elementary) : Prop where
  mem : s ∈ X
  /-- It has a successor. -/
  succeeded : ∃ t ∈ X, T.Follows s t
  /-- It has a successor for every "some next" formula that it satisfies. -/
  promised : ∀ g, .ex g ∈ T.elementary → T.Satisfies s (.ex g) →
    ∃ t ∈ X, T.Follows s t ∧ T.Satisfies t g
  /-- The "until" formulas that it passes on are met on a path. -/
  met : ∀ p q, .ex (.eu p q) ∈ T.elementary → T.Satisfies s (.ex (.eu p q)) → T.Satisfies s p →
    s ∈ (T.pathStep X p q).lfp
  /-- Where it denies to pass on a "release", the "until" of the negations is met in a tree. -/
  everywhere : ∀ p q, .ex (.er p q) ∈ T.elementary → ¬ T.Satisfies s (.ex (.er p q)) →
    ¬ T.Satisfies s p → s ∈ (T.treeStep X p.negate q.negate).lfp

/-- The states of a set that stay. -/
def prune (X : Set (State T.elementary)) : Set (State T.elementary) := {s | T.Survives X s}

theorem prune_subset (X : Set (State T.elementary)) : T.prune X ⊆ X := fun _ h => h.mem

/-- How often the sets of a round grow, all "until" formulas taken together. -/
noncomputable def effort (X : Set (State T.elementary)) : Nat :=
  (T.untils.map fun r => stage (T.pathStep X r.1 r.2)).sum +
    (T.releases.map fun r => stage (T.treeStep X r.1.negate r.2.negate)).sum

/-- The loops of a round. -/
def loops : Nat := T.untils.length + T.releases.length

end Tableau

end CtlTableau
