import CtlTableau.Formula.Names
import Mathlib.Logic.Function.Basic

/-!
# Truth of quantified boolean formulas

A formula without path operators has a truth value as soon as its names have one; the name `TRUE`
stands for the truth whatever a valuation or a quantifier says. Three facts carry what is said about
queries elsewhere:

* `eval_congr` -- the truth of a formula depends on its free names only;
* `eval_mapNames` -- renaming all names, at atoms and at quantifiers alike, moves a valuation as long
  as no two names of the formula fall together;
* `eval_bindAll_existential` -- a block of "some" quantifiers asks for a valuation that differs from
  the given one at the names of the block only.
-/

namespace CtlTableau.Formula

/-! ## 1. Truth -/

/-- The truth of a boolean formula. Path operators have no truth value and count as false. -/
def eval (ρ : String → Bool) : Formula → Bool
  | .atom x => x == trueName || ρ x
  | .unary .not p => !p.eval ρ
  | .unary _ _ => false
  | .binary .and p q => p.eval ρ && q.eval ρ
  | .binary .or p q => p.eval ρ || q.eval ρ
  | .binary .imp p q => !p.eval ρ || q.eval ρ
  | .binary _ _ _ => false
  | .quant .existential x p =>
    p.eval (Function.update ρ x false) || p.eval (Function.update ρ x true)
  | .quant .universal x p =>
    p.eval (Function.update ρ x false) && p.eval (Function.update ρ x true)

/-- Whether a formula uses no path operator. -/
def isBoolean : Formula → Bool
  | .atom _ => true
  | .unary op p => op == .not && p.isBoolean
  | .binary op p q => (op == .and || op == .or || op == .imp) && (p.isBoolean && q.isBoolean)
  | .quant _ _ p => p.isBoolean

/-- Whether a formula is built from atoms by negation, conjunction, disjunction and "some" alone. -/
def isExistential : Formula → Bool
  | .atom _ => true
  | .unary op p => op == .not && p.isExistential
  | .binary op p q => (op == .and || op == .or) && (p.isExistential && q.isExistential)
  | .quant k _ p => k == .existential && p.isExistential

/-- The names that quantifiers bind. -/
def boundNames : Formula → List String
  | .atom _ => []
  | .unary _ p => p.boundNames
  | .binary _ p q => p.boundNames ++ q.boundNames
  | .quant _ x p => x :: p.boundNames

theorem isBoolean_of_isExistential {f : Formula} (h : f.isExistential = true) :
    f.isBoolean = true := by
  induction f with
  | atom x => rfl
  | unary op p ih =>
    simp only [isExistential, isBoolean, Bool.and_eq_true] at h ⊢
    exact ⟨h.1, ih h.2⟩
  | binary op p q ihp ihq =>
    simp only [isExistential, isBoolean, Bool.and_eq_true, Bool.or_eq_true] at h ⊢
    exact ⟨Or.inl h.1, ihp h.2.1, ihq h.2.2⟩
  | quant k x p ih =>
    simp only [isExistential, isBoolean, Bool.and_eq_true] at h ⊢
    exact ih h.2

@[simp] theorem eval_truth (ρ : String → Bool) : truth.eval ρ = true := by simp [eval]

@[simp] theorem eval_not (ρ : String → Bool) (p : Formula) : (not p).eval ρ = !p.eval ρ := rfl

@[simp] theorem eval_and (ρ : String → Bool) (p q : Formula) :
    (and p q).eval ρ = (p.eval ρ && q.eval ρ) := rfl

@[simp] theorem eval_or (ρ : String → Bool) (p q : Formula) :
    (or p q).eval ρ = (p.eval ρ || q.eval ρ) := rfl

theorem eval_atom {ρ : String → Bool} {x : String} (h : x ≠ trueName) :
    (atom x).eval ρ = ρ x := by simp [eval, h]

theorem eval_exist_iff (ρ : String → Bool) (x : String) (p : Formula) :
    (exist x p).eval ρ = true ↔ ∃ b, p.eval (Function.update ρ x b) = true := by
  simp only [eval, Bool.or_eq_true]
  constructor
  · intro h
    rcases h with h | h
    · exact ⟨false, h⟩
    · exact ⟨true, h⟩
  · intro h
    obtain ⟨b, h⟩ := h
    cases b with
    | false => exact Or.inl h
    | true => exact Or.inr h

/-! ## 2. Conjunctions of lists -/

theorem foldl_binary_induction {P : Formula → Prop} {op : BinaryOp}
    (hop : ∀ p q, P p → P q → P (.binary op p q)) {fs : List Formula} {f : Formula}
    (hf : P f) (hfs : ∀ g ∈ fs, P g) : P (fs.foldl (.binary op) f) := by
  induction fs generalizing f with
  | nil => exact hf
  | cons g fs ih =>
    refine ih (hop f g hf (hfs g List.mem_cons_self)) fun g' hg' => ?_
    exact hfs g' (List.mem_cons_of_mem g hg')

/-- What holds of the neutral element and of all members, and passes from operands to the operator,
    holds of the joined list. -/
theorem joinLeft_induction {P : Formula → Prop} {op : BinaryOp} {unit : Formula}
    (hunit : P unit) (hop : ∀ p q, P p → P q → P (.binary op p q)) {fs : List Formula}
    (hfs : ∀ g ∈ fs, P g) : P (joinLeft op unit fs) := by
  cases fs with
  | nil => exact hunit
  | cons f fs =>
    refine foldl_binary_induction hop (hfs f List.mem_cons_self) fun g hg => ?_
    exact hfs g (List.mem_cons_of_mem f hg)

theorem eval_foldl_and (ρ : String → Bool) (fs : List Formula) (f : Formula) :
    (fs.foldl (.binary .and) f).eval ρ = true ↔ f.eval ρ = true ∧ ∀ g ∈ fs, g.eval ρ = true := by
  induction fs generalizing f with
  | nil => simp
  | cons g fs ih => simp [List.foldl_cons, ih, eval_and, and_assoc]

theorem eval_conj_iff (ρ : String → Bool) (fs : List Formula) :
    (conj fs).eval ρ = true ↔ ∀ f ∈ fs, f.eval ρ = true := by
  cases fs with
  | nil => simp [conj, joinLeft]
  | cons f fs => simp [conj, joinLeft, eval_foldl_and]

/-! ## 3. Dependence on names -/

/-- The truth of a formula depends on its free names only, and not on `TRUE`. -/
theorem eval_congr {f : Formula} {ρ σ : String → Bool}
    (h : ∀ x ∈ f.freeNames, x ≠ trueName → ρ x = σ x) : f.eval ρ = f.eval σ := by
  induction f generalizing ρ σ with
  | atom x =>
    by_cases hx : x = trueName
    · simp [eval, hx]
    · rw [eval_atom hx, eval_atom hx]
      exact h x (List.mem_singleton_self x) hx
  | unary op p ih =>
    have hp : p.eval ρ = p.eval σ := ih h
    cases op <;> simp [eval, hp]
  | binary op p q ihp ihq =>
    have hp : p.eval ρ = p.eval σ := ihp fun x hx => h x (List.mem_append_left _ hx)
    have hq : q.eval ρ = q.eval σ := ihq fun x hx => h x (List.mem_append_right _ hx)
    cases op <;> simp [eval, hp, hq]
  | quant k x p ih =>
    have hp : ∀ b, p.eval (Function.update ρ x b) = p.eval (Function.update σ x b) := by
      intro b
      refine ih fun y hy hy' => ?_
      by_cases e : y = x
      · subst e
        simp
      · rw [Function.update_of_ne e, Function.update_of_ne e]
        refine h y ?_ hy'
        simp [freeNames, hy, e]
    cases k <;> simp [eval, hp]

/-- Renames all names by one function, at atoms and at quantifiers alike. -/
def mapNames (r : String → String) : Formula → Formula
  | .atom x => .atom (r x)
  | .unary op p => .unary op (p.mapNames r)
  | .binary op p q => .binary op (p.mapNames r) (q.mapNames r)
  | .quant k x p => .quant k (r x) (p.mapNames r)

theorem names_mapNames (r : String → String) (f : Formula) :
    (f.mapNames r).names = f.names.map r := by
  induction f with
  | atom x => rfl
  | unary _ p ih => exact ih
  | binary _ p q ihp ihq => simp [mapNames, names, ihp, ihq]
  | quant _ x p ih => simp [mapNames, names, ih]

theorem mapNames_congr {r r' : String → String} {f : Formula} (h : ∀ x ∈ f.names, r x = r' x) :
    f.mapNames r = f.mapNames r' := by
  induction f with
  | atom x => rw [mapNames, mapNames, h x List.mem_cons_self]
  | unary _ p ih => rw [mapNames, mapNames, ih h]
  | binary _ p q ihp ihq =>
    rw [mapNames, mapNames, ihp fun x hx => h x (List.mem_append_left _ hx),
      ihq fun x hx => h x (List.mem_append_right _ hx)]
  | quant _ x p ih =>
    rw [mapNames, mapNames, h x List.mem_cons_self, ih fun y hy => h y (List.mem_cons_of_mem _ hy)]

theorem mapNames_mapNames (r r' : String → String) (f : Formula) :
    (f.mapNames r).mapNames r' = f.mapNames (r' ∘ r) := by
  induction f with
  | atom x => rfl
  | unary _ p ih => simp only [mapNames, ih]
  | binary _ p q ihp ihq => simp only [mapNames, ihp, ihq]
  | quant _ x p ih => simp only [mapNames, ih, Function.comp]

theorem mapNames_id (f : Formula) : f.mapNames id = f := by
  induction f with
  | atom x => rfl
  | unary _ p ih => rw [mapNames, ih]
  | binary _ p q ihp ihq => rw [mapNames, ihp, ihq]
  | quant _ x p ih => rw [mapNames, ih, id]

theorem boundNames_mapNames (r : String → String) (f : Formula) :
    (f.mapNames r).boundNames = f.boundNames.map r := by
  induction f with
  | atom x => rfl
  | unary _ p ih => exact ih
  | binary _ p q ihp ihq => simp [mapNames, boundNames, ihp, ihq]
  | quant _ x p ih => simp [mapNames, boundNames, ih]

theorem isExistential_mapNames (r : String → String) (f : Formula) :
    (f.mapNames r).isExistential = f.isExistential := by
  induction f with
  | atom x => rfl
  | unary _ p ih => simp [mapNames, isExistential, ih]
  | binary _ p q ihp ihq => simp [mapNames, isExistential, ihp, ihq]
  | quant _ x p ih => simp [mapNames, isExistential, ih]

/-- Renaming moves the free occurrences, one by one, if no two names of the formula fall together. -/
theorem freeNames_mapNames {r : String → String} {f : Formula}
    (inj : ∀ x ∈ f.names, ∀ y ∈ f.names, r x = r y → x = y) :
    (f.mapNames r).freeNames = f.freeNames.map r := by
  induction f with
  | atom x => rfl
  | unary _ p ih => exact ih inj
  | binary _ p q ihp ihq =>
    rw [mapNames, freeNames, freeNames, List.map_append]
    rw [ihp fun x hx y hy => inj x (List.mem_append_left _ hx) y (List.mem_append_left _ hy),
      ihq fun x hx y hy => inj x (List.mem_append_right _ hx) y (List.mem_append_right _ hy)]
  | quant _ z p ih =>
    rw [mapNames, freeNames, freeNames, ih fun x hx y hy =>
      inj x (List.mem_cons_of_mem _ hx) y (List.mem_cons_of_mem _ hy), List.filter_map]
    -- an occurrence is bound after the renaming if and only if it was bound before
    refine congrArg (List.map r) (List.filter_congr fun x hx => ?_)
    rw [Function.comp_apply, Bool.eq_iff_iff, bne_iff_ne, bne_iff_ne]
    refine not_congr ⟨fun e => ?_, congrArg r⟩
    exact inj x (List.mem_cons_of_mem _ (mem_names_of_mem_freeNames hx)) z List.mem_cons_self e

/-- No binder captures or loses a name if no two names of the formula fall together. -/
theorem mem_freeNames_mapNames {r : String → String} {f : Formula}
    (inj : ∀ x ∈ f.names, ∀ y ∈ f.names, r x = r y → x = y) {z : String}
    (hz : z ∈ (f.mapNames r).freeNames) : ∃ x ∈ f.freeNames, z = r x := by
  rw [freeNames_mapNames inj] at hz
  obtain ⟨x, hx, e⟩ := List.mem_map.1 hz
  exact ⟨x, hx, e.symm⟩

/-- Renaming moves the valuation if no two names of the formula fall together. -/
theorem eval_mapNames {r : String → String} {f : Formula}
    (inj : ∀ x ∈ f.names, ∀ y ∈ f.names, r x = r y → x = y)
    (true_iff : ∀ x ∈ f.names, r x = trueName ↔ x = trueName) (ρ : String → Bool) :
    (f.mapNames r).eval ρ = f.eval (ρ ∘ r) := by
  induction f generalizing ρ with
  | atom x =>
    have e : (r x == trueName) = (x == trueName) := by
      rw [Bool.eq_iff_iff, beq_iff_eq, beq_iff_eq]
      exact true_iff x (List.mem_singleton_self x)
    simp [mapNames, eval, e]
  | unary op p ih =>
    have hp := ih inj true_iff ρ
    cases op <;> simp [mapNames, eval, hp]
  | binary op p q ihp ihq =>
    have hp := ihp (fun x hx y hy => inj x (List.mem_append_left _ hx) y
      (List.mem_append_left _ hy)) (fun x hx => true_iff x (List.mem_append_left _ hx)) ρ
    have hq := ihq (fun x hx y hy => inj x (List.mem_append_right _ hx) y
      (List.mem_append_right _ hy)) (fun x hx => true_iff x (List.mem_append_right _ hx)) ρ
    cases op <;> simp [mapNames, eval, hp, hq]
  | quant k y p ih =>
    have key : ∀ b, (p.mapNames r).eval (Function.update ρ (r y) b) =
        p.eval (Function.update (ρ ∘ r) y b) := by
      intro b
      rw [ih (fun x hx y hy => inj x (List.mem_cons_of_mem _ hx) y (List.mem_cons_of_mem _ hy))
        (fun x hx => true_iff x (List.mem_cons_of_mem _ hx))]
      -- the two valuations agree on the names of the body, since none but `y` goes to `r y`
      refine eval_congr fun x hx _ => ?_
      by_cases e : x = y
      · subst e
        simp
      · have hr : r x ≠ r y := fun h => e (inj x (List.mem_cons_of_mem _
          (mem_names_of_mem_freeNames hx)) y List.mem_cons_self h)
        simp [Function.update_of_ne e, Function.update_of_ne hr]
    cases k <;> simp [mapNames, eval, key]

/-! ## 4. Blocks of quantifiers -/

theorem mem_freeNames_bindAll {k : Quantifier} {xs : List String} {f : Formula} {x : String} :
    x ∈ (bindAll (xs.map (k, ·)) f).freeNames ↔ x ∈ f.freeNames ∧ x ∉ xs := by
  induction xs with
  | nil => simp [bindAll]
  | cons y xs ih =>
    have e : bindAll ((y :: xs).map (k, ·)) f = .quant k y (bindAll (xs.map (k, ·)) f) := rfl
    rw [e]
    simp only [freeNames, List.mem_filter, bne_iff_ne, ih, List.mem_cons, not_or]
    constructor
    · intro h
      obtain ⟨⟨h1, h2⟩, h3⟩ := h
      exact ⟨h1, h3, h2⟩
    · intro h
      obtain ⟨h1, h3, h2⟩ := h
      exact ⟨⟨h1, h2⟩, h3⟩

theorem names_bindAll (k : Quantifier) (xs : List String) (f : Formula) :
    (bindAll (xs.map (k, ·)) f).names = xs ++ f.names := by
  induction xs with
  | nil => rfl
  | cons y xs ih =>
    have e : bindAll ((y :: xs).map (k, ·)) f = .quant k y (bindAll (xs.map (k, ·)) f) := rfl
    rw [e, names, ih]
    rfl

theorem boundNames_bindAll (k : Quantifier) (xs : List String) (f : Formula) :
    (bindAll (xs.map (k, ·)) f).boundNames = xs ++ f.boundNames := by
  induction xs with
  | nil => rfl
  | cons y xs ih =>
    have e : bindAll ((y :: xs).map (k, ·)) f = .quant k y (bindAll (xs.map (k, ·)) f) := rfl
    rw [e, boundNames, ih]
    rfl

theorem isExistential_bindAll (xs : List String) (f : Formula) :
    (bindAll (xs.map (Quantifier.existential, ·)) f).isExistential = f.isExistential := by
  induction xs with
  | nil => rfl
  | cons y xs ih =>
    have e : bindAll ((y :: xs).map (Quantifier.existential, ·)) f =
        .exist y (bindAll (xs.map (Quantifier.existential, ·)) f) := rfl
    rw [e]
    simpa [isExistential] using ih

/-- A block of "some" quantifiers leaves the valuation free at its names and nowhere else. -/
theorem eval_bindAll_existential {xs : List String} {f : Formula} {ρ : String → Bool} :
    (bindAll (xs.map (Quantifier.existential, ·)) f).eval ρ = true ↔
      ∃ σ : String → Bool, (∀ x, x ∉ xs → σ x = ρ x) ∧ f.eval σ = true := by
  induction xs generalizing ρ with
  | nil =>
    constructor
    · intro h
      exact ⟨ρ, fun _ _ => rfl, h⟩
    · intro h
      obtain ⟨σ, hσ, h⟩ := h
      have e : σ = ρ := funext fun x => hσ x List.not_mem_nil
      exact e ▸ h
  | cons y xs ih =>
    have e : bindAll ((y :: xs).map (Quantifier.existential, ·)) f =
        .exist y (bindAll (xs.map (Quantifier.existential, ·)) f) := rfl
    rw [e, eval_exist_iff]
    constructor
    · intro h
      obtain ⟨b, h⟩ := h
      obtain ⟨σ, hσ, h⟩ := ih.1 h
      refine ⟨σ, fun x hx => ?_, h⟩
      rw [List.mem_cons, not_or] at hx
      rw [hσ x hx.2, Function.update_of_ne hx.1]
    · intro h
      obtain ⟨σ, hσ, h⟩ := h
      refine ⟨σ y, ih.2 ⟨σ, fun x hx => ?_, h⟩⟩
      by_cases exy : x = y
      · subst exy
        simp
      · rw [Function.update_of_ne exy]
        exact hσ x (by simp [exy, hx])

/-! ## 5. Queries -/

/-- What can be put to an engine: a closed boolean formula whose names hold no prime, as primes are
    kept for the names that engines invent. -/
structure IsQuery (f : Formula) : Prop where
  boolean : f.isBoolean = true
  closed : ∀ x ∈ f.freeNames, x = trueName
  plain : ∀ x ∈ f.names, '\'' ∉ x.toList

/-- What a check asks: a closed formula made by negation, conjunction, disjunction and "some", which
    does not bind the constant and holds no prime. -/
structure IsExistentialQuery (f : Formula) : Prop where
  existential : f.isExistential = true
  closed : ∀ x ∈ f.freeNames, x = trueName
  binders : trueName ∉ f.boundNames
  plain : ∀ x ∈ f.names, '\'' ∉ x.toList

theorem IsExistentialQuery.isQuery {f : Formula} (h : f.IsExistentialQuery) : f.IsQuery :=
  ⟨isBoolean_of_isExistential h.existential, h.closed, h.plain⟩

/-- The truth of a closed boolean formula. -/
def isValid (f : Formula) : Bool := f.eval fun _ => false

end CtlTableau.Formula
