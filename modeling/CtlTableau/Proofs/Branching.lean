import CtlTableau.Proofs.Expansion
import Mathlib.Logic.Function.Iterate
import Mathlib.Tactic.ByContra
import Mathlib.Tactic.Choose

/-!
# Branching time

Formulas without quantifiers speak about the states of a Kripke structure in which every state has a
successor, by way of the infinite paths that start at a state. There may be any number of states, and
of successors of a state.

Main statements:

* "until" on some path and "until" on all paths are least solutions of their expansion laws
  (`someUntil_iff`, `someUntil_least`, `everyUntil_iff`, `everyUntil_least`); for the second this
  takes a path that avoids the solution forever, as one state may have infinitely many successors;
* "release" is the dual of "until" (`someRelease_iff`, `everyRelease_iff`);
* writing derived operators out and moving negations down keeps the truth (`holds_normalize_iff`,
  `holds_negate_iff`).
-/

namespace CtlTableau

universe u

/-- States with a relation between them that never ends, and the names that are true at each. -/
structure Kripke where
  State : Type u
  /-- The second state may follow the first. -/
  next : State → State → Prop
  /-- Every state has a successor. -/
  total : ∀ m, ∃ m', next m m'
  /-- The name is true at the state. -/
  label : State → String → Prop

namespace Kripke

/-! ## 1. Paths -/

/-- The first predicate holds until the second does, which it does at some time. -/
def Until {S : Type u} (P Q : S → Prop) (π : Nat → S) : Prop :=
  ∃ n, Q (π n) ∧ ∀ i < n, P (π i)

/-- The second predicate holds up to and including the first time at which the first one does, or
    forever. -/
def Release {S : Type u} (P Q : S → Prop) (π : Nat → S) : Prop :=
  ∀ n, Q (π n) ∨ ∃ i < n, P (π i)

theorem not_until_iff {S : Type u} (P Q : S → Prop) (π : Nat → S) :
    ¬ Until P Q π ↔ Release (fun m => ¬ P m) (fun m => ¬ Q m) π := by
  simp only [Until, Release, not_exists, not_and]
  refine forall_congr' fun n => ?_
  by_cases hq : Q (π n)
  · simp [hq]
  · simp [hq]

/-- "Until" from the first state on is "until" now, or from the second state on. -/
theorem until_iff {S : Type u} (P Q : S → Prop) (π : Nat → S) :
    Until P Q π ↔ Q (π 0) ∨ P (π 0) ∧ Until P Q (fun i => π (i + 1)) := by
  constructor
  · intro h
    obtain ⟨n, hq, hp⟩ := h
    cases n with
    | zero => exact Or.inl hq
    | succ n =>
      refine Or.inr ⟨hp 0 (Nat.succ_pos n), n, hq, fun i hi => ?_⟩
      exact hp (i + 1) (Nat.succ_lt_succ hi)
  · intro h
    rcases h with hq | ⟨hp, n, hq, hp'⟩
    · exact ⟨0, hq, fun i hi => absurd hi (Nat.not_lt_zero i)⟩
    · refine ⟨n + 1, hq, fun i hi => ?_⟩
      cases i with
      | zero => exact hp
      | succ i => exact hp' i (Nat.lt_of_succ_lt_succ hi)

variable (K : Kripke.{u})

/-- An infinite path from a state. -/
structure IsPath (m : K.State) (π : Nat → K.State) : Prop where
  start : π 0 = m
  step : ∀ i, K.next (π i) (π (i + 1))

variable {K}

theorem IsPath.tail {m : K.State} {π : Nat → K.State} (h : K.IsPath m π) :
    K.next m (π 1) ∧ K.IsPath (π 1) (fun i => π (i + 1)) :=
  ⟨h.start ▸ h.step 0, rfl, fun i => h.step (i + 1)⟩

theorem IsPath.cons {m m' : K.State} {π : Nat → K.State} (hm : K.next m m')
    (h : K.IsPath m' π) : K.IsPath m (fun i => i.casesOn m π) where
  start := rfl
  step i := by
    cases i with
    | zero =>
      show K.next m (π 0)
      rw [h.start]
      exact hm
    | succ i => exact h.step i

/-- A way to choose successors makes a path from every state. -/
theorem isPath_iterate {f : K.State → K.State} (h : ∀ m, K.next m (f m)) (m : K.State) :
    K.IsPath m (fun i => f^[i] m) where
  start := rfl
  step i := by
    rw [Function.iterate_succ_apply']
    exact h _

theorem exists_isPath (m : K.State) : ∃ π, K.IsPath m π :=
  ⟨_, isPath_iterate (fun m => (K.total m).choose_spec) m⟩

/-! ## 2. "Until" on some path and on all paths -/

variable (K)

/-- "Until" on some path. -/
def SomeUntil (P Q : K.State → Prop) (m : K.State) : Prop := ∃ π, K.IsPath m π ∧ Until P Q π

/-- "Until" on all paths. -/
def EveryUntil (P Q : K.State → Prop) (m : K.State) : Prop := ∀ π, K.IsPath m π → Until P Q π

/-- "Release" on some path. -/
def SomeRelease (P Q : K.State → Prop) (m : K.State) : Prop := ∃ π, K.IsPath m π ∧ Release P Q π

/-- "Release" on all paths. -/
def EveryRelease (P Q : K.State → Prop) (m : K.State) : Prop :=
  ∀ π, K.IsPath m π → Release P Q π

variable {K} {P Q Z : K.State → Prop}

theorem someUntil_iff {m : K.State} :
    K.SomeUntil P Q m ↔ Q m ∨ P m ∧ ∃ m', K.next m m' ∧ K.SomeUntil P Q m' := by
  constructor
  · intro h
    obtain ⟨π, hπ, h⟩ := h
    rw [until_iff, hπ.start] at h
    refine h.imp_right fun ⟨hp, h⟩ => ⟨hp, π 1, hπ.tail.1, _, hπ.tail.2, h⟩
  · intro h
    rcases h with hq | ⟨hp, m', hm, π, hπ, h⟩
    · obtain ⟨π, hπ⟩ := exists_isPath m
      refine ⟨π, hπ, (until_iff P Q π).2 (Or.inl ?_)⟩
      rw [hπ.start]
      exact hq
    · exact ⟨_, hπ.cons hm, (until_iff P Q _).2 (Or.inr ⟨hp, h⟩)⟩

/-- "Until" on some path is the least solution of its expansion law. -/
theorem someUntil_least (hq : ∀ m, Q m → Z m) (hp : ∀ m m', P m → K.next m m' → Z m' → Z m)
    {m : K.State} (h : K.SomeUntil P Q m) : Z m := by
  obtain ⟨π, hπ, n, hn, hlt⟩ := h
  -- backwards along the path from where `Q` holds
  have back : ∀ i, i ≤ n → Z (π (n - i)) := by
    intro i
    induction i with
    | zero => exact fun _ => hq _ hn
    | succ i ih =>
      intro hi
      have e : n - i = n - (i + 1) + 1 := by omega
      refine hp _ _ (hlt _ (by omega)) (hπ.step _) ?_
      rw [← e]
      exact ih (by omega)
  have h0 := back n (Nat.le_refl n)
  rwa [Nat.sub_self, hπ.start] at h0

theorem everyUntil_iff {m : K.State} :
    K.EveryUntil P Q m ↔ Q m ∨ P m ∧ ∀ m', K.next m m' → K.EveryUntil P Q m' := by
  constructor
  · intro h
    by_cases hq : Q m
    · exact Or.inl hq
    · have hnow : ∀ π, K.IsPath m π → P m ∧ Until P Q (fun i => π (i + 1)) := by
        intro π hπ
        have h' := h π hπ
        rw [until_iff, hπ.start] at h'
        exact h'.resolve_left hq
      obtain ⟨π, hπ⟩ := exists_isPath m
      exact Or.inr ⟨(hnow π hπ).1, fun m' hm π' hπ' => (hnow _ (hπ'.cons hm)).2⟩
  · intro h π hπ
    rw [until_iff, hπ.start]
    refine h.imp_right fun ⟨hp, h⟩ => ⟨hp, h _ hπ.tail.1 _ hπ.tail.2⟩

/-- "Until" on all paths is the least solution of its expansion law. -/
theorem everyUntil_least (hq : ∀ m, Q m → Z m)
    (hp : ∀ m, P m → (∀ m', K.next m m' → Z m') → Z m) {m : K.State}
    (h : K.EveryUntil P Q m) : Z m := by
  by_contra hz
  -- outside of `Z` and as long as `P` holds there is always a successor outside of `Z`
  have out : ∀ m, ∃ m', K.next m m' ∧ (P m → ¬ Z m → ¬ Z m') := by
    intro m
    by_cases hm : ∃ m', K.next m m' ∧ ¬ Z m'
    · obtain ⟨m', h1, h2⟩ := hm
      exact ⟨m', h1, fun _ _ => h2⟩
    · obtain ⟨m', h1⟩ := K.total m
      refine ⟨m', h1, fun hpm hzm => absurd (hp m hpm fun m'' h2 => ?_) hzm⟩
      by_contra h3
      exact hm ⟨m'', h2, h3⟩
  choose f hf hout using out
  obtain ⟨n, hn, hlt⟩ := h _ (isPath_iterate hf m)
  have stay : ∀ i, i ≤ n → ¬ Z (f^[i] m) := by
    intro i
    induction i with
    | zero => exact fun _ => hz
    | succ i ih =>
      intro hi
      rw [Function.iterate_succ_apply']
      exact hout _ (hlt i hi) (ih (Nat.le_of_succ_le hi))
  exact stay n (Nat.le_refl n) (hq _ hn)

theorem someRelease_iff {m : K.State} :
    K.SomeRelease P Q m ↔ ¬ K.EveryUntil (fun m => ¬ P m) (fun m => ¬ Q m) m := by
  simp only [EveryUntil, SomeRelease, not_forall, not_until_iff, not_not, exists_prop]

theorem everyRelease_iff {m : K.State} :
    K.EveryRelease P Q m ↔ ¬ K.SomeUntil (fun m => ¬ P m) (fun m => ¬ Q m) m := by
  simp only [SomeUntil, EveryRelease, not_exists, not_and, not_until_iff, not_not]

/-- "Release" on some path now and from some successor on. -/
theorem someRelease_expand {m : K.State} :
    K.SomeRelease P Q m ↔ Q m ∧ (P m ∨ ∃ m', K.next m m' ∧ K.SomeRelease P Q m') := by
  rw [someRelease_iff, everyUntil_iff, not_or, not_not, not_and, or_iff_not_imp_left]
  simp only [someRelease_iff, not_forall, exists_prop]

/-- "Release" on all paths now and from all successors on. -/
theorem everyRelease_expand {m : K.State} :
    K.EveryRelease P Q m ↔ Q m ∧ (P m ∨ ∀ m', K.next m m' → K.EveryRelease P Q m') := by
  rw [everyRelease_iff, someUntil_iff, not_or, not_not, not_and, or_iff_not_imp_left]
  simp only [everyRelease_iff, not_exists, not_and]

/-! ## 3. Truth at a state -/

variable (K)

/-- The truth of a formula at a state. Formulas of branching time use no quantifier; a quantified
    formula counts as false. -/
def Holds : Formula → K.State → Prop
  | .atom x, m => x = Formula.trueName ∨ K.label m x
  | .unary .not p, m => ¬ Holds p m
  | .unary .ex p, m => ∃ m', K.next m m' ∧ Holds p m'
  | .unary .ax p, m => ∀ m', K.next m m' → Holds p m'
  | .unary .ef p, m => ∃ π, K.IsPath m π ∧ ∃ n, Holds p (π n)
  | .unary .af p, m => ∀ π, K.IsPath m π → ∃ n, Holds p (π n)
  | .unary .eg p, m => ∃ π, K.IsPath m π ∧ ∀ n, Holds p (π n)
  | .unary .ag p, m => ∀ π, K.IsPath m π → ∀ n, Holds p (π n)
  | .binary .and p q, m => Holds p m ∧ Holds q m
  | .binary .or p q, m => Holds p m ∨ Holds q m
  | .binary .imp p q, m => Holds p m → Holds q m
  | .binary .eu p q, m => K.SomeUntil (Holds p) (Holds q) m
  | .binary .au p q, m => K.EveryUntil (Holds p) (Holds q) m
  | .binary .er p q, m => K.SomeRelease (Holds p) (Holds q) m
  | .binary .ar p q, m => K.EveryRelease (Holds p) (Holds q) m
  | .quant _ _ _, _ => False

variable {K}

@[simp] theorem holds_truth (m : K.State) : K.Holds .truth m := Or.inl rfl

theorem until_truth_iff (P : K.State → Prop) (π : Nat → K.State) :
    Until (K.Holds .truth) P π ↔ ∃ n, P (π n) := by
  simp [Until]

theorem release_falsity_iff (P : K.State → Prop) (π : Nat → K.State) :
    Release (K.Holds .falsity) P π ↔ ∀ n, P (π n) := by
  simp [Release, Holds]

/-- Derived operators are abbreviations. -/
theorem holds_core_iff {f : Formula} (h : f.isTemporal = true) (m : K.State) :
    K.Holds f.core m ↔ K.Holds f m := by
  induction f generalizing m with
  | atom x => exact Iff.rfl
  | unary op p ih =>
    have e : K.Holds p.core = K.Holds p := funext fun m => propext (ih h m)
    cases op with
    | ef =>
      show K.SomeUntil (K.Holds .truth) (K.Holds p.core) m ↔ _
      rw [e]
      exact exists_congr fun π => and_congr_right fun _ => until_truth_iff _ π
    | af =>
      show K.EveryUntil (K.Holds .truth) (K.Holds p.core) m ↔ _
      rw [e]
      exact forall_congr' fun π => imp_congr_right fun _ => until_truth_iff _ π
    | eg =>
      show K.SomeRelease (K.Holds .falsity) (K.Holds p.core) m ↔ _
      rw [e]
      exact exists_congr fun π => and_congr_right fun _ => release_falsity_iff _ π
    | ag =>
      show K.EveryRelease (K.Holds .falsity) (K.Holds p.core) m ↔ _
      rw [e]
      exact forall_congr' fun π => imp_congr_right fun _ => release_falsity_iff _ π
    | _ => simp only [Formula.core, Holds, e]
  | binary op p q ihp ihq =>
    simp only [Formula.isTemporal, Bool.and_eq_true] at h
    have ep : K.Holds p.core = K.Holds p := funext fun m => propext (ihp h.1 m)
    have eq : K.Holds q.core = K.Holds q := funext fun m => propext (ihq h.2 m)
    cases op with
    | imp => simp only [Formula.core, Holds, ep, eq, imp_iff_not_or]
    | _ => simp only [Formula.core, Holds, ep, eq]
  | quant k x p ih => exact Iff.rfl

/-- Moving negations down keeps the truth, or turns it over, at every state. -/
theorem holds_signed_iff {f : Formula} (h : f.isTemporal = true) (b : Bool) (m : K.State) :
    K.Holds (f.signed b) m ↔ (b = true ↔ K.Holds f m) := by
  induction f generalizing b m with
  | atom x => cases b <;> simp [Formula.signed, Holds]
  | unary op p ih =>
    have e1 : K.Holds (p.signed true) = K.Holds p := funext fun m => by simp [ih h true m]
    have e2 : K.Holds (p.signed false) = fun m => ¬ K.Holds p m :=
      funext fun m => by simp [ih h false m]
    cases op <;> cases b <;> simp [Formula.signed, UnaryOp.dual, Holds, e1, e2]
  | binary op p q ihp ihq =>
    simp only [Formula.isTemporal, Bool.and_eq_true] at h
    have e1 : K.Holds (p.signed true) = K.Holds p := funext fun m => by simp [ihp h.1 true m]
    have e2 : K.Holds (p.signed false) = fun m => ¬ K.Holds p m :=
      funext fun m => by simp [ihp h.1 false m]
    have e3 : K.Holds (q.signed true) = K.Holds q := funext fun m => by simp [ihq h.2 true m]
    have e4 : K.Holds (q.signed false) = fun m => ¬ K.Holds q m :=
      funext fun m => by simp [ihq h.2 false m]
    cases op <;> cases b <;>
      simp [Formula.signed, BinaryOp.dual, Holds, e1, e2, e3, e4, someRelease_iff,
        everyRelease_iff, imp_iff_not_or]
  | quant k x p ih => cases h

theorem holds_negate_iff {f : Formula} (h : f.isTemporal = true) (m : K.State) :
    K.Holds f.negate m ↔ ¬ K.Holds f m := by
  simp [Formula.negate, holds_signed_iff h]

theorem holds_normalize_iff {f : Formula} (h : f.isTemporal = true) (m : K.State) :
    K.Holds f.normalize m ↔ K.Holds f m := by
  have hc : f.core.isTemporal = true := by rw [Formula.isTemporal_core, h]
  simp [Formula.normalize, Formula.nnf, holds_signed_iff hc, holds_core_iff h]

/-- **The expansion laws hold**: the truth of a normal formula at a state follows from the truth of
    elementary formulas there. -/
theorem holdsBy_holds_iff {g : Formula} (h : g.IsNormal) (m : K.State) :
    g.HoldsBy (K.Holds · m) ↔ K.Holds g m := by
  induction h with
  | atom x => simp [Formula.HoldsBy, Holds]
  | not x => simp [Formula.HoldsBy, Holds]
  | ex _ _ => exact Iff.rfl
  | ax hp _ => simp [Formula.HoldsBy, Holds, holds_negate_iff hp.isTemporal]
  | and _ _ ihp ihq => exact and_congr ihp ihq
  | or _ _ ihp ihq => exact or_congr ihp ihq
  | eu _ _ ihp ihq =>
    simp only [Formula.HoldsBy, ihp, ihq]
    exact someUntil_iff.symm
  | @au p q hp hq ihp ihq =>
    -- no successor releases the negations, so "until" goes on at all of them
    have next : ¬ K.Holds (.ex (.er p.negate q.negate)) m ↔
        ∀ m', K.next m m' → K.Holds (.au p q) m' := by
      show (¬ ∃ m', K.next m m' ∧ K.Holds (Formula.au p q).negate m') ↔ _
      simp only [holds_negate_iff (hp.au hq).isTemporal, not_exists, not_and, not_not]
    simp only [Formula.HoldsBy, ihp, ihq, next]
    exact everyUntil_iff.symm
  | er _ _ ihp ihq =>
    simp only [Formula.HoldsBy, ihp, ihq]
    exact someRelease_expand.symm
  | @ar p q hp hq ihp ihq =>
    have next : ¬ K.Holds (.ex (.eu p.negate q.negate)) m ↔
        ∀ m', K.next m m' → K.Holds (.ar p q) m' := by
      show (¬ ∃ m', K.next m m' ∧ K.Holds (Formula.ar p q).negate m') ↔ _
      simp only [holds_negate_iff (hp.ar hq).isTemporal, not_exists, not_and, not_not]
    simp only [Formula.HoldsBy, ihp, ihq, next]
    exact everyRelease_expand.symm

end Kripke

end CtlTableau
