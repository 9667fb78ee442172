import CtlTableau.Clausal.Encoder
import CtlTableau.Proofs.Boolean

/-!
# Quantifier prefixes

A list of quantifiers in front of a matrix, where the matrix is any property of valuations: it may
be the truth of a formula, whose names are strings, or that of a set of clauses, whose names are
numbers. `truthUnder` is the truth of such a statement.

Main statements: what a prefix binds does not matter before it (`truthUnder_congr`), names may be
renamed injectively (`truthUnder_rename`), binders that a later one shadows or that the matrix does
not read may be dropped (`truthUnder_filter_innermost`), and a block of "some" asks for values of its
names (`truthUnder_existential`). Seen as a game, "all" may play any values it likes
(`exists_of_truthUnder`), and "some" plays a value that it has to (`truthUnder_force`).
-/

namespace CtlTableau

/-! ## 1. Quantifiers -/

/-- What a quantifier makes of the truth for one value of its variable and for the other. -/
def Quantifier.join : Quantifier → Bool → Bool → Bool
  | .existential, a, b => a || b
  | .universal, a, b => a && b

@[simp] theorem Quantifier.join_self (k : Quantifier) (a : Bool) : k.join a a = a := by
  cases k <;> simp [join]

theorem Formula.eval_quant (k : Quantifier) (x : String) (p : Formula) (ρ : String → Bool) :
    (quant k x p).eval ρ =
      k.join (p.eval (Function.update ρ x false)) (p.eval (Function.update ρ x true)) := by
  cases k <;> rfl

/-! ## 2. Prefixes -/

section

variable {ι κ : Type} [DecidableEq ι] [DecidableEq κ]

/-- The truth of a matrix under quantifiers, the first one outermost. The valuation gives the values
    of the names that are not bound. -/
def truthUnder : List (Quantifier × ι) → ((ι → Bool) → Bool) → (ι → Bool) → Bool
  | [], m, ρ => m ρ
  | b :: bs, m, ρ =>
    b.1.join (truthUnder bs m (Function.update ρ b.2 false))
      (truthUnder bs m (Function.update ρ b.2 true))

theorem truthUnder_append (bs cs : List (Quantifier × ι)) (m : (ι → Bool) → Bool) (ρ : ι → Bool) :
    truthUnder (bs ++ cs) m ρ = truthUnder bs (truthUnder cs m) ρ := by
  induction bs generalizing ρ with
  | nil => rfl
  | cons b bs ih => simp only [List.cons_append, truthUnder, ih]

theorem Formula.eval_bindAll (bs : List (Quantifier × String)) (f : Formula) (ρ : String → Bool) :
    (bindAll bs f).eval ρ = truthUnder bs (fun σ => f.eval σ) ρ := by
  induction bs generalizing ρ with
  | nil => rfl
  | cons b bs ih =>
    have e : bindAll (b :: bs) f = .quant b.1 b.2 (bindAll bs f) := rfl
    rw [e, eval_quant, ih, ih, truthUnder]

/-! ## 3. What a matrix reads -/

/-- The matrix depends on the values of names in `N` only. -/
def Reads (N : ι → Prop) (m : (ι → Bool) → Bool) : Prop :=
  ∀ ρ σ, (∀ x, N x → ρ x = σ x) → m ρ = m σ

variable {N : ι → Prop} {m : (ι → Bool) → Bool}

/-- Before a prefix only names matter that the matrix reads and that are not bound. -/
theorem truthUnder_congr (hm : Reads N m) {bs : List (Quantifier × ι)} {ρ σ : ι → Bool}
    (h : ∀ x, N x → (∀ b ∈ bs, b.2 ≠ x) → ρ x = σ x) : truthUnder bs m ρ = truthUnder bs m σ := by
  induction bs generalizing ρ σ with
  | nil => exact hm ρ σ fun x hx => h x hx fun b hb => absurd hb List.not_mem_nil
  | cons b bs ih =>
    have step : ∀ v, truthUnder bs m (Function.update ρ b.2 v) =
        truthUnder bs m (Function.update σ b.2 v) := by
      intro v
      refine ih fun x hx hbs => ?_
      by_cases e : x = b.2
      · subst e
        simp
      · rw [Function.update_of_ne e, Function.update_of_ne e]
        refine h x hx fun c hc => ?_
        rcases List.mem_cons.1 hc with rfl | hc
        · exact Ne.symm e
        · exact hbs c hc
    rw [truthUnder, truthUnder, step, step]

/-- A binder whose name is not read, or is bound again, says nothing. -/
theorem truthUnder_cons_of_unread (hm : Reads N m) {b : Quantifier × ι}
    {bs : List (Quantifier × ι)} (h : N b.2 → ∃ c ∈ bs, c.2 = b.2) (ρ : ι → Bool) :
    truthUnder (b :: bs) m ρ = truthUnder bs m ρ := by
  have drop : ∀ v, truthUnder bs m (Function.update ρ b.2 v) = truthUnder bs m ρ := by
    intro v
    refine truthUnder_congr hm fun x hx hbs => ?_
    rw [Function.update_of_ne]
    rintro rfl
    obtain ⟨c, hc, e⟩ := h hx
    exact hbs c hc e
  rw [truthUnder, drop, drop, Quantifier.join_self]

/-- Only valuations matter that agree with the given one at the names that are not bound. -/
theorem truthUnder_congr_matrix {m m' : (ι → Bool) → Bool} {bs : List (Quantifier × ι)}
    {ρ : ι → Bool} (h : ∀ τ, (∀ x, (∀ b ∈ bs, b.2 ≠ x) → τ x = ρ x) → m τ = m' τ) :
    truthUnder bs m ρ = truthUnder bs m' ρ := by
  induction bs generalizing ρ with
  | nil => exact h ρ fun _ _ => rfl
  | cons b bs ih =>
    have step : ∀ v, truthUnder bs m (Function.update ρ b.2 v) =
        truthUnder bs m' (Function.update ρ b.2 v) := by
      refine fun v => ih fun τ hτ => h τ fun x hx => ?_
      rw [hτ x fun c hc => hx c (List.mem_cons_of_mem _ hc),
        Function.update_of_ne (hx b List.mem_cons_self).symm]
    rw [truthUnder, truthUnder, step, step]

theorem truthUnder_const (bs : List (Quantifier × ι)) (v : Bool) (ρ : ι → Bool) :
    truthUnder bs (fun _ => v) ρ = v := by
  induction bs generalizing ρ with
  | nil => rfl
  | cons b bs ih => rw [truthUnder, ih, ih, Quantifier.join_self]

/-! ## 4. Prefixes as games -/

/-- What is true holds for some valuation whatever values "all" takes. -/
theorem exists_of_truthUnder {m : (ι → Bool) → Bool} {bs : List (Quantifier × ι)}
    (nodup : (bs.map (·.2)).Nodup) (choice : ι → Bool) {ρ : ι → Bool}
    (h : truthUnder bs m ρ = true) :
    ∃ τ, (∀ x, (∀ b ∈ bs, b.2 ≠ x) → τ x = ρ x) ∧
      (∀ b ∈ bs, b.1 = .universal → τ b.2 = choice b.2) ∧ m τ = true := by
  induction bs generalizing ρ with
  | nil => exact ⟨ρ, fun _ _ => rfl, fun b hb => absurd hb List.not_mem_nil, h⟩
  | cons b bs ih =>
    rw [List.map_cons, List.nodup_cons] at nodup
    -- one of the two branches that are true is the one that "all" chooses
    have branch : ∃ v, truthUnder bs m (Function.update ρ b.2 v) = true ∧
        (b.1 = .universal → v = choice b.2) := by
      obtain ⟨k, x⟩ := b
      cases k with
      | existential =>
        rw [truthUnder, Quantifier.join, Bool.or_eq_true] at h
        rcases h with h | h
        · exact ⟨false, h, fun e => by cases e⟩
        · exact ⟨true, h, fun e => by cases e⟩
      | universal =>
        rw [truthUnder, Quantifier.join, Bool.and_eq_true] at h
        refine ⟨choice x, ?_, fun _ => rfl⟩
        cases choice x with
        | false => exact h.1
        | true => exact h.2
    obtain ⟨v, h, hv⟩ := branch
    obtain ⟨τ, hτ, chosen, h⟩ := ih nodup.2 h
    refine ⟨τ, fun x hx => ?_, fun c hc hk => ?_, h⟩
    · rw [hτ x fun c hc => hx c (List.mem_cons_of_mem _ hc),
        Function.update_of_ne (hx b List.mem_cons_self).symm]
    · rcases List.mem_cons.1 hc with rfl | hc
      · rw [hτ c.2 fun d hd e => nodup.1 (List.mem_map.2 ⟨d, hd, e⟩), Function.update_self, hv hk]
      · exact chosen c hc hk

/-- "Some" takes the value without which the matrix is false. -/
theorem truthUnder_force {m : (ι → Bool) → Bool} {bs : List (Quantifier × ι)}
    (nodup : (bs.map (·.2)).Nodup) {x : ι} {v : Bool} (hx : (.existential, x) ∈ bs)
    (hm : ∀ τ, m τ = true → τ x = v) (ρ : ι → Bool) :
    truthUnder bs m ρ = truthUnder bs (fun τ => m (Function.update τ x v)) ρ := by
  induction bs generalizing ρ with
  | nil => exact absurd hx List.not_mem_nil
  | cons b bs ih =>
    rw [List.map_cons, List.nodup_cons] at nodup
    rcases List.mem_cons.1 hx with rfl | hx
    · have fixed : ∀ (w : Bool) (τ : ι → Bool),
          (∀ y, (∀ c ∈ bs, c.2 ≠ y) → τ y = Function.update ρ x w y) → τ x = w := by
        intro w τ hτ
        rw [hτ x fun d hd e => nodup.1 (List.mem_map.2 ⟨d, hd, e⟩), Function.update_self]
      have own : truthUnder bs (fun τ => m (Function.update τ x v)) (Function.update ρ x v) =
          truthUnder bs m (Function.update ρ x v) := by
        refine truthUnder_congr_matrix fun τ hτ => ?_
        rw [← fixed v τ hτ, Function.update_eq_self]
      have other : truthUnder bs m (Function.update ρ x (!v)) = false := by
        rw [← truthUnder_const bs false (Function.update ρ x (!v))]
        refine truthUnder_congr_matrix fun τ hτ => Bool.eq_false_iff.2 fun h => ?_
        have e := (fixed _ τ hτ).symm.trans (hm τ h)
        revert e
        cases v <;> decide
      have blind : ∀ w, truthUnder bs (fun τ => m (Function.update τ x v)) (Function.update ρ x w) =
          truthUnder bs (fun τ => m (Function.update τ x v)) (Function.update ρ x v) := by
        intro w
        refine truthUnder_congr (N := (· ≠ x)) (fun τ τ' h => congrArg m (funext fun y => ?_))
          fun y hy _ => ?_
        · by_cases e : y = x
          · subst e
            simp
          · rw [Function.update_of_ne e, Function.update_of_ne e, h y e]
        · rw [Function.update_of_ne hy, Function.update_of_ne hy]
      rw [truthUnder, truthUnder, blind false, blind true, own, Quantifier.join_self]
      cases v with
      | false => rw [Quantifier.join, show truthUnder bs m (Function.update ρ x true) = false
          from other, Bool.or_false]
      | true => rw [Quantifier.join, show truthUnder bs m (Function.update ρ x false) = false
          from other, Bool.false_or]
    · rw [truthUnder, truthUnder, ih nodup.2 hx, ih nodup.2 hx]

/-! ## 5. Renaming -/

/-- Names may be renamed along a function that keeps those apart that matter. -/
theorem truthUnder_rename {r : ι → κ} (inj : ∀ x y, N x → N y → r x = r y → x = y)
    {m : (ι → Bool) → Bool} {m' : (κ → Bool) → Bool}
    (hm : ∀ τ ρ, (∀ x, N x → τ x = ρ (r x)) → m τ = m' ρ) {bs : List (Quantifier × ι)}
    (hbs : ∀ b ∈ bs, N b.2) {τ : ι → Bool} {ρ : κ → Bool} (h : ∀ x, N x → τ x = ρ (r x)) :
    truthUnder bs m τ = truthUnder (bs.map fun b => (b.1, r b.2)) m' ρ := by
  induction bs generalizing τ ρ with
  | nil => exact hm τ ρ h
  | cons b bs ih =>
    have hb := hbs b List.mem_cons_self
    have step : ∀ v, truthUnder bs m (Function.update τ b.2 v) =
        truthUnder (bs.map fun b => (b.1, r b.2)) m' (Function.update ρ (r b.2) v) := by
      intro v
      refine ih (fun c hc => hbs c (List.mem_cons_of_mem _ hc)) fun x hx => ?_
      by_cases e : x = b.2
      · subst e
        simp
      · have e' : r x ≠ r b.2 := fun h' => e (inj x b.2 hx hb h')
        rw [Function.update_of_ne e, Function.update_of_ne e', h x hx]
    rw [truthUnder, List.map_cons, truthUnder, step, step]

/-! ## 6. Blocks of "some" -/

/-- A block of "some" quantifiers asks for values of its names. -/
theorem truthUnder_existential {xs : List ι} {m : (ι → Bool) → Bool} {ρ : ι → Bool} :
    truthUnder (xs.map (Quantifier.existential, ·)) m ρ = true ↔
      ∃ σ, (∀ x, x ∉ xs → σ x = ρ x) ∧ m σ = true := by
  induction xs generalizing ρ with
  | nil =>
    constructor
    · exact fun h => ⟨ρ, fun _ _ => rfl, h⟩
    · rintro ⟨σ, hσ, h⟩
      have e : σ = ρ := funext fun x => hσ x List.not_mem_nil
      exact e ▸ h
  | cons y xs ih =>
    rw [List.map_cons, truthUnder, Quantifier.join, Bool.or_eq_true, ih, ih]
    constructor
    · intro h
      have some : ∃ v σ, (∀ x, x ∉ xs → σ x = Function.update ρ y v x) ∧ m σ = true := by
        rcases h with h | h
        · exact ⟨false, h⟩
        · exact ⟨true, h⟩
      obtain ⟨v, σ, hσ, h⟩ := some
      refine ⟨σ, fun x hx => ?_, h⟩
      rw [List.mem_cons, not_or] at hx
      rw [hσ x hx.2, Function.update_of_ne hx.1]
    · rintro ⟨σ, hσ, h⟩
      have own : ∀ x, x ∉ xs → σ x = Function.update ρ y (σ y) x := by
        intro x hx
        by_cases e : x = y
        · subst e
          simp
        · rw [Function.update_of_ne e]
          exact hσ x (by simp [e, hx])
      cases hv : σ y with
      | false => exact Or.inl ⟨σ, hv ▸ own, h⟩
      | true => exact Or.inr ⟨σ, hv ▸ own, h⟩

end

/-! ## 7. Shadowed and unused binders -/

namespace Formula

theorem mem_of_mem_innermost {b : Quantifier × String} {bs : List (Quantifier × String)}
    (h : b ∈ innermost bs) : b ∈ bs := by
  induction bs with
  | nil => exact h
  | cons c bs ih =>
    rw [innermost] at h
    split at h
    · exact List.mem_cons_of_mem _ (ih h)
    · rcases List.mem_cons.1 h with rfl | h
      · exact List.mem_cons_self
      · exact List.mem_cons_of_mem _ (ih h)

/-- Every bound name keeps a binder. -/
theorem exists_mem_innermost {b : Quantifier × String} {bs : List (Quantifier × String)}
    (h : b ∈ bs) : ∃ c ∈ innermost bs, c.2 = b.2 := by
  induction bs generalizing b with
  | nil => exact absurd h List.not_mem_nil
  | cons c bs ih =>
    rw [innermost]
    split
    · next again =>
      rcases List.mem_cons.1 h with rfl | h
      · obtain ⟨c, hc, e⟩ := List.any_eq_true.1 again
        obtain ⟨d, hd, e'⟩ := ih hc
        exact ⟨d, hd, e'.trans (by simpa using e)⟩
      · exact ih h
    · rcases List.mem_cons.1 h with rfl | h
      · exact ⟨b, List.mem_cons_self, rfl⟩
      · obtain ⟨d, hd, e⟩ := ih h
        exact ⟨d, List.mem_cons_of_mem _ hd, e⟩

/-- No name keeps two binders. -/
theorem nodup_innermost (bs : List (Quantifier × String)) :
    ((innermost bs).map (·.2)).Nodup := by
  induction bs with
  | nil => exact List.nodup_nil
  | cons c bs ih =>
    rw [innermost]
    split
    · exact ih
    · next last =>
      rw [List.map_cons, List.nodup_cons]
      refine ⟨fun h => last ?_, ih⟩
      obtain ⟨d, hd, e⟩ := List.mem_map.1 h
      exact List.any_eq_true.2 ⟨d, mem_of_mem_innermost hd, by simpa using e⟩

/-- **Shadowed and unused binders may be dropped**: what is left are the innermost binders of the
    names that the matrix reads. -/
theorem truthUnder_filter_innermost {N : String → Prop} {m : (String → Bool) → Bool}
    (hm : Reads N m) {keep : Quantifier × String → Bool}
    (hkeep : ∀ b, N b.2 → keep b = true) (bs : List (Quantifier × String)) (ρ : String → Bool) :
    truthUnder ((innermost bs).filter keep) m ρ = truthUnder bs m ρ := by
  induction bs generalizing ρ with
  | nil => rfl
  | cons b bs ih =>
    rw [innermost]
    split
    · next again =>
      obtain ⟨c, hc, e⟩ := List.any_eq_true.1 again
      rw [ih, truthUnder_cons_of_unread hm fun _ => ⟨c, hc, by simpa using e⟩]
    · rw [List.filter_cons]
      split
      · simp only [truthUnder, ih]
      · next unread =>
        rw [ih, truthUnder_cons_of_unread hm fun hb => absurd (hkeep b hb) unread]

end Formula

end CtlTableau
