import CtlTableau.Proofs.Pruning
import CtlTableau.Proofs.Transfer

/-!
# Successors in formulas

What runs build out of formulas that stand for sets of states. The states that were found so far are
spoken of over the variables of the current state; a successor has variables with a new number, which
are quantified away again.

* `exists_transfer`: moving a formula to a successor with a new number keeps its set, although the
  formula binds variables of older successors;
* `exists_transition`: the transition formula says which state may follow;
* `describes_exist`: quantifying a successor away leaves the states that have one;
* `isExistentialQuery_quantify`, `isValid_quantify_iff`: quantifying over the current state makes a
  query, which asks whether the set has a member.
-/

namespace CtlTableau

namespace Tableau

open SymbolicState

variable {T : Tableau} {k n : Nat} {f step : Formula} {fs : List Formula}
  {X Y : Set (State T.elementary)}

/-! ## 1. Names of the current state and of successors -/

theorem same_elementary (n : Nat) : T.current.elementary = (T.successor n).elementary := rfl

theorem current_disjoint (n : Nat) {x : String} (h : x ∈ T.current.names) :
    x ∉ (T.successor n).names :=
  disjoint_names (Ne.symm (successorName_ne_stateStem n)) h

theorem isBelow_of_mem {x : String} (h : x ∈ (T.successor n).names) :
    Formula.IsBelow (n + 1) x := by
  obtain ⟨i, _, rfl⟩ := mem_names.1 h
  exact ⟨n, Nat.lt_succ_self n, i, rfl⟩

/-- A variable of an older successor is none of the current state, and none of a newer one. -/
theorem not_mem_of_isBelow {x : String} (h : Formula.IsBelow k x) (hk : k ≤ n) :
    x ∉ T.current.names ∧ x ∉ (T.successor n).names := by
  obtain ⟨m, hm, i, rfl⟩ := h
  constructor
  · intro hx
    obtain ⟨j, _, e⟩ := mem_names.1 hx
    exact successorName_ne_stateStem m
      (varName_inj (successorName_valid m).2 T.current.stem_valid.2 e).1
  · intro hx
    obtain ⟨j, _, e⟩ := mem_names.1 hx
    have hmn := successorName_inj
      (varName_inj (successorName_valid m).2 (successorName_valid n).2 e).1
    omega

theorem prime_not_mem_of_isBelow {x : String} (h : Formula.IsBelow k x) : '\'' ∉ x.toList := by
  obtain ⟨m, _, i, rfl⟩ := h
  exact prime_not_mem_varName (prime_not_mem_successorName m) i

/-! ## 2. Moving to a successor -/

/-- No variable of a new successor occurs in a formula about the current state, bound or free. -/
theorem not_mem_successor (hk : k ≤ n) (h : f.Speaks (· ∈ T.current.names) k) {x : String}
    (hx : x ∈ f.names) (hxc : x ∉ T.current.names) : x ∉ (T.successor n).names := by
  rcases h.names x hx with e | hx | hx
  · rw [e]
    exact true_not_mem_names _
  · exact absurd hx hxc
  · exact (not_mem_of_isBelow hx hk).2

/-- Where moving to a successor takes a variable of the current state. -/
theorem moved_mem {x : String} (hx : x ∈ T.current.names) :
    T.current.transferred (T.successor n) x ∈ (T.successor n).names :=
  transferred_mem_names (same_elementary n) hx

/-- So no two names of a formula fall together that has no variable of the successor besides those of
    the current state, and no quantifier captures a name that is moved. -/
theorem moved_inj (new : ∀ x ∈ f.names, x ∉ T.current.names → x ∉ (T.successor n).names)
    {x y : String} (hx : x ∈ f.names) (hy : y ∈ f.names)
    (e : T.current.transferred (T.successor n) x = T.current.transferred (T.successor n) y) :
    x = y :=
  transferred_injOn (same_elementary n) new x hx y hy e

/-- The name of the constant is not moved, and no other name is moved there. -/
theorem moved_eq_true_iff (x : String) :
    T.current.transferred (T.successor n) x = Formula.trueName ↔ x = Formula.trueName :=
  transferred_eq_true_iff (same_elementary n) x

/-- A valuation reads the same before and after moving. -/
theorem read_moved (ρ : String → Bool) :
    T.current.read (ρ ∘ T.current.transferred (T.successor n)) = (T.successor n).read ρ :=
  funext fun e => congrArg ρ (transferred_nameFor (T.successor n) e.2)

/-- **Moving a formula to a new successor keeps its set**, whatever quantifiers the formula holds. -/
theorem exists_transfer (hk : k ≤ n) (h : T.current.Describes k f X) :
    ∃ f', T.current.transfer (T.successor n) f = .ok f' ∧ (T.successor n).Describes n f' X := by
  have inj : ∀ x ∈ f.names, ∀ y ∈ f.names,
      T.current.transferred (T.successor n) x = T.current.transferred (T.successor n) y →
        x = y := fun x hx y hy => moved_inj (fun x => not_mem_successor hk h.speaks) hx hy
  refine ⟨_, transfer_eq (same_elementary n) f, ⟨?_, ?_, ?_, ?_⟩, fun ρ => ?_⟩
  · rw [Formula.isExistential_mapNames]
    exact h.speaks.existential
  · intro z hz
    obtain ⟨x, hx, e⟩ := Formula.mem_freeNames_mapNames inj hz
    rw [e, moved_eq_true_iff]
    exact (h.speaks.free x hx).imp_right moved_mem
  · intro z hz
    rw [Formula.boundNames_mapNames] at hz
    obtain ⟨x, hx, e⟩ := List.mem_map.1 hz
    rw [← e]
    rcases h.speaks.bound x hx with hx | hx
    · exact Or.inl (moved_mem hx)
    · rw [transferred_of_not_mem _ (not_mem_of_isBelow hx hk).1]
      exact Or.inr (hx.mono hk)
  · intro z hz
    rw [Formula.names_mapNames] at hz
    obtain ⟨x, hx, e⟩ := List.mem_map.1 hz
    rw [← e, moved_eq_true_iff]
    rcases h.speaks.names x hx with hx | hx | hx
    · exact Or.inl hx
    · exact Or.inr (Or.inl (moved_mem hx))
    · rw [transferred_of_not_mem _ (not_mem_of_isBelow hx hk).1]
      exact Or.inr (Or.inr (hx.mono hk))
  · rw [Formula.eval_mapNames inj (fun x _ => moved_eq_true_iff x), h.means, read_moved]

/-- The value of a formula in a successor stands for the states that satisfy the formula. -/
theorem exists_successor_value {g : Formula} (h : T.Decides g) (n : Nat) :
    ∃ a, (T.successor n).value g = .ok a ∧
      (T.successor n).Describes n a {s | T.Satisfies s g} := by
  obtain ⟨a, ha, hd⟩ := SymbolicState.exists_value (u := T.successor n) h.within n
  exact ⟨a, ha, hd.congr fun s => (satisfies_iff h s).symm⟩

/-! ## 3. Transitions -/

/-- What a list is filtered for by the shape of its members. -/
theorem mem_filterMap_iff {α β : Type} {h : α → Option β} {k : β → α}
    (hk : ∀ a b, h a = some b ↔ a = k b) {l : List α} {b : β} : b ∈ l.filterMap h ↔ k b ∈ l := by
  rw [List.mem_filterMap]
  constructor
  · intro ⟨a, ha, e⟩
    rwa [← (hk a b).1 e]
  · exact fun hb => ⟨k b, hb, (hk _ b).2 rfl⟩

theorem mem_promises {E : OrderedSet Formula} {g : Formula} :
    g ∈ SymbolicState.promises E ↔ .ex g ∈ E := by
  refine mem_filterMap_iff (k := Formula.ex) fun e g => ?_
  split <;> simp_all

theorem mem_untils {p q : Formula} : (p, q) ∈ T.untils ↔ .ex (.eu p q) ∈ T.elementary := by
  rw [← mem_promises, untils, promises]
  refine mem_filterMap_iff (k := fun r : Formula × Formula => Formula.eu r.1 r.2) fun g r => ?_
  split <;> simp_all [Prod.ext_iff]

theorem mem_releases {p q : Formula} : (p, q) ∈ T.releases ↔ .ex (.er p q) ∈ T.elementary := by
  rw [← mem_promises, releases, promises]
  refine mem_filterMap_iff (k := fun r : Formula × Formula => Formula.er r.1 r.2) fun g r => ?_
  split <;> simp_all [Prod.ext_iff]

/-- A computation that succeeds on every member of a list succeeds on the list. -/
theorem exists_mapM {α β ε : Type} {m : α → Except ε β} {R : α → β → Prop} {as : List α}
    (h : ∀ a ∈ as, ∃ b, m a = .ok b ∧ R a b) : ∃ bs, as.mapM m = .ok bs ∧ List.Forall₂ R as bs := by
  induction as with
  | nil => exact ⟨[], rfl, .nil⟩
  | cons a as ih =>
    obtain ⟨b, hb, hR⟩ := h a List.mem_cons_self
    obtain ⟨bs, hbs, hRs⟩ := ih fun a' ha' => h a' (List.mem_cons_of_mem _ ha')
    refine ⟨b :: bs, ?_, .cons hR hRs⟩
    rw [List.mapM_cons, hb, hbs]
    rfl

/-- The names of the current state and of a successor. -/
def Between (T : Tableau) (n : Nat) (x : String) : Prop :=
  x ∈ T.current.names ∨ x ∈ (T.successor n).names

/-- The transition formula speaks of both states, and says that the one may follow the other. -/
theorem exists_transition (hT : T.Saturated) (n : Nat) :
    ∃ f, transition T.elementary T.current (T.successor n) = .ok f ∧
      f.Says (T.Between n) n fun ρ => T.Follows (T.current.read ρ) ((T.successor n).read ρ) := by
  have terms : ∀ g ∈ SymbolicState.promises T.elementary, ∃ f,
      (do return .or (← T.current.value (.ex g)) (.not (← (T.successor n).value g))) =
        (.ok f : Except Fault Formula) ∧
      f.Says (T.Between n) n fun ρ => T.Satisfies (T.current.read ρ) (.ex g) ∨
        ¬ T.Satisfies ((T.successor n).read ρ) g := by
    intro g hg
    have hex := mem_promises.1 hg
    obtain ⟨a, ha, da⟩ := exists_value (hT.next hex) n
    obtain ⟨b, hb, db⟩ := exists_successor_value (hT.keeps g hex) n
    refine ⟨.or a (.not b), by simp [ha, hb, bind, Except.bind, pure, Except.pure], ?_⟩
    exact (da.mono (fun _ => Or.inl) (Nat.le_refl n)).or
      (db.mono (fun _ => Or.inr) (Nat.le_refl n)).not
  obtain ⟨fs, hfs, hsays⟩ := exists_mapM terms
  refine ⟨.conj fs, ?_, (Formula.sayAll_of_forall₂ hsays).conj.congr fun ρ => ?_⟩
  · rw [transition, hfs]
    rfl
  · unfold Follows
    constructor
    · intro h g hg hs
      exact (h g (mem_promises.2 hg)).resolve_left hs
    · intro h g hg
      by_cases hs : T.Satisfies (T.current.read ρ) (.ex g)
      · exact Or.inl hs
      · exact Or.inr (h g (mem_promises.1 hg) hs)

/-! ## 4. Quantifying over a successor -/

/-- What is left to say when the variables of a successor are quantified away. -/
theorem says_quantify {P : (String → Bool) → Prop} (h : f.Says (T.Between n) n P) :
    ((T.successor n).quantify .existential f).Says (· ∈ T.current.names) (n + 1) fun ρ =>
      ∃ σ, (∀ x, x ∉ (T.successor n).names → σ x = ρ x) ∧ P σ := by
  refine ⟨⟨?_, ?_, ?_, ?_⟩, fun ρ => ?_⟩
  · rw [quantify, Formula.isExistential_bindAll]
    exact h.speaks.existential
  · intro x hx
    obtain ⟨hx, hn⟩ := Formula.mem_freeNames_bindAll.1 hx
    exact (h.speaks.free x hx).imp_right fun hb => hb.resolve_right hn
  · intro x hx
    rw [quantify, Formula.boundNames_bindAll, List.mem_append] at hx
    rcases hx with hx | hx
    · exact Or.inr (isBelow_of_mem hx)
    · rcases h.speaks.bound x hx with (hx | hx) | hx
      · exact Or.inl hx
      · exact Or.inr (isBelow_of_mem hx)
      · exact Or.inr (hx.mono (Nat.le_succ n))
  · intro x hx
    rw [quantify, Formula.names_bindAll, List.mem_append] at hx
    rcases hx with hx | hx
    · exact Or.inr (Or.inr (isBelow_of_mem hx))
    · rcases h.speaks.names x hx with hx | (hx | hx) | hx
      · exact Or.inl hx
      · exact Or.inr (Or.inl hx)
      · exact Or.inr (Or.inr (isBelow_of_mem hx))
      · exact Or.inr (Or.inr (hx.mono (Nat.le_succ n)))
  · rw [quantify, Formula.eval_bindAll_existential]
    exact exists_congr fun σ => and_congr_right fun _ => h.means σ

/-- To change the variables of a successor, and no others, is to choose a state for it. -/
theorem exists_changed_iff {R : State T.elementary → State T.elementary → Prop}
    (ρ : String → Bool) :
    (∃ σ : String → Bool, (∀ x, x ∉ (T.successor n).names → σ x = ρ x) ∧
      R (T.current.read σ) ((T.successor n).read σ)) ↔ ∃ t, R (T.current.read ρ) t := by
  -- the variables of the successor are free to change, and the current state does not read them
  have same : ∀ σ : String → Bool, (∀ x, x ∉ (T.successor n).names → σ x = ρ x) →
      T.current.read σ = T.current.read ρ := fun σ h =>
    read_congr fun x hx => h x (current_disjoint n hx)
  constructor
  · intro h
    obtain ⟨σ, hσ, h⟩ := h
    rw [same σ hσ] at h
    exact ⟨_, h⟩
  · intro h
    obtain ⟨t, h⟩ := h
    have hσ : ∀ x, x ∉ (T.successor n).names → (T.successor n).write ρ t x = ρ x :=
      fun x hx => write_of_not_mem hx ρ t
    refine ⟨(T.successor n).write ρ t, hσ, ?_⟩
    rw [same _ hσ, read_write]
    exact h

/-- **Quantifying a successor away leaves the states that have such a successor.** -/
theorem describes_exist
    (hstep : step.Says (T.Between n) n fun ρ =>
      T.Follows (T.current.read ρ) ((T.successor n).read ρ))
    (hfs : (T.successor n).DescribeAll n fs Y) :
    T.current.Describes (n + 1) ((T.successor n).quantify .existential (.conj (step :: fs)))
      {s | ∃ t ∈ Y, T.Follows s t} := by
  have hbody := (hstep.cons (hfs.mono fun _ => Or.inr)).conj
  refine (says_quantify hbody).congr fun ρ => ?_
  rw [exists_changed_iff (R := fun s t => T.Follows s t ∧ t ∈ Y)]
  exact exists_congr fun t => and_comm

/-! ## 5. Queries -/

/-- Quantifying over the current state leaves no name free. -/
theorem isExistentialQuery_quantify (h : f.Speaks (· ∈ T.current.names) k) :
    (T.current.quantify .existential f).IsExistentialQuery where
  existential := by
    rw [quantify, Formula.isExistential_bindAll]
    exact h.existential
  closed x hx := by
    obtain ⟨hx, hn⟩ := Formula.mem_freeNames_bindAll.1 hx
    exact (h.free x hx).resolve_right hn
  binders hx := by
    rw [quantify, Formula.boundNames_bindAll, List.mem_append] at hx
    rcases hx with hx | hx
    · exact true_not_mem_names _ hx
    · rcases h.bound _ hx with hx | ⟨n, _, i, e⟩
      · exact true_not_mem_names _ hx
      · exact varName_ne_true _ i e.symm
  plain x hx := by
    have own : ∀ x ∈ T.current.names, '\'' ∉ x.toList :=
      fun x => prime_not_mem_names (show '\'' ∉ stateStem.toList by decide)
    rw [quantify, Formula.names_bindAll, List.mem_append] at hx
    rcases hx with hx | hx
    · exact own x hx
    · rcases h.names x hx with rfl | hx | hx
      · decide
      · exact own x hx
      · exact prime_not_mem_of_isBelow hx

/-- The query asks whether the set has a member. -/
theorem isValid_quantify_iff (h : ∀ ρ, f.eval ρ = true ↔ T.current.read ρ ∈ X) :
    (T.current.quantify .existential f).isValid = true ↔ X.Nonempty := by
  rw [Formula.isValid, quantify, Formula.eval_bindAll_existential]
  constructor
  · intro ⟨σ, _, hσ⟩
    exact ⟨_, (h σ).1 hσ⟩
  · intro ⟨s, hs⟩
    refine ⟨T.current.write (fun _ => false) s, fun x hx => write_of_not_mem hx _ s, (h _).2 ?_⟩
    rwa [read_write]

end Tableau

end CtlTableau
