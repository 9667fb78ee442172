import CtlTableau.Proofs.Circuits

/-!
# Encoding keeps the truth

A prenex formula and its clause form have the same truth. The way there: binders that are shadowed or
not used say nothing, names are numbered one to one, and what is left innermost is a block of "some"
over the constant and the gates, whose only choice of values is the one that the definitions force
(`Numbering.innermost_matrix`). The clause form is proper besides, with the variables `1, 2, ...` in
the order of their quantifiers (`Numbering.proper_form`).

`toClauseForm_of_bound` and `toClauseForm_of_unbound` say which formulas have a clause form: the ones
whose names are all bound, and else the least name that is not is reported.
-/

namespace CtlTableau.Formula

/-! ## 1. The matrix as a circuit -/

/-- Whether a formula is built from atoms by negation, conjunction and disjunction. -/
def isPropositional : Formula → Bool
  | .atom _ => true
  | .unary op p => op == .not && p.isPropositional
  | .binary op p q => (op == .and || op == .or) && (p.isPropositional && q.isPropositional)
  | .quant _ _ _ => false

theorem freeNames_of_isPropositional {f : Formula} (h : f.isPropositional = true) :
    f.freeNames = f.names := by
  induction f with
  | atom x => rfl
  | unary op p ih =>
    simp only [isPropositional, Bool.and_eq_true] at h
    exact ih h.2
  | binary op p q ihp ihq =>
    simp only [isPropositional, Bool.and_eq_true] at h
    rw [freeNames, names, ihp h.2.1, ihq h.2.2]
  | quant k x p => cases h

theorem binders_of_isPropositional {f : Formula} (h : f.isPropositional = true) :
    f.binders = [] ∧ f.matrix = f := by
  cases f with
  | quant k x p => cases h
  | _ => exact ⟨rfl, rfl⟩

theorem binders_bindAll {f : Formula} (h : f.isPropositional = true)
    (bs : List (Quantifier × String)) :
    (bindAll bs f).binders = bs ∧ (bindAll bs f).matrix = f := by
  induction bs with
  | nil => exact binders_of_isPropositional h
  | cons b bs ih =>
    have e : bindAll (b :: bs) f = .quant b.1 b.2 (bindAll bs f) := rfl
    rw [e, binders, matrix, ih.1, ih.2]
    exact ⟨rfl, rfl⟩

/-- A propositional formula is a circuit over the numbers of its names, with its value under
    valuations that agree. -/
theorem exists_circuit {f : Formula} (h : f.isPropositional = true) (idOf : String → Nat) :
    ∃ c, f.circuit idOf = .ok c ∧ (∀ i ∈ c.inputs, ∃ x ∈ f.names, i = idOf x) ∧
      ∀ τ : String → Bool, ∀ ρ : Nat → Bool,
        (∀ x ∈ f.names, (x == trueName || τ x) = ρ (idOf x)) → f.eval τ = c.eval ρ := by
  induction f with
  | atom x =>
    refine ⟨.input (idOf x), rfl, fun i hi => ⟨x, List.mem_singleton_self x, ?_⟩, fun τ ρ hx => ?_⟩
    · exact List.mem_singleton.1 hi
    · exact hx x (List.mem_singleton_self x)
  | unary op p ih =>
    simp only [isPropositional, Bool.and_eq_true, beq_iff_eq] at h
    obtain ⟨rfl, hp⟩ := h
    obtain ⟨c, hc, inputs, value⟩ := ih hp
    refine ⟨.not c, ?_, inputs, fun τ ρ hx => ?_⟩
    · rw [circuit, if_pos rfl, hc]
      rfl
    · rw [eval_not, value τ ρ hx, Circuit.eval]
  | binary op p q ihp ihq =>
    simp only [isPropositional, Bool.and_eq_true] at h
    obtain ⟨c, hc, inputs, value⟩ := ihp h.2.1
    obtain ⟨d, hd, inputs', value'⟩ := ihq h.2.2
    have values : ∀ τ : String → Bool, ∀ ρ : Nat → Bool,
        (∀ x ∈ (binary op p q).names, (x == trueName || τ x) = ρ (idOf x)) →
          p.eval τ = c.eval ρ ∧ q.eval τ = d.eval ρ := fun τ ρ hx =>
      ⟨value τ ρ fun x hm => hx x (List.mem_append_left _ hm),
        value' τ ρ fun x hm => hx x (List.mem_append_right _ hm)⟩
    have both : ∀ i ∈ c.inputs ++ d.inputs, ∃ x ∈ (binary op p q).names, i = idOf x := by
      intro i hi
      rcases List.mem_append.1 hi with hi | hi
      · obtain ⟨x, hx, e⟩ := inputs i hi
        exact ⟨x, List.mem_append_left _ hx, e⟩
      · obtain ⟨x, hx, e⟩ := inputs' i hi
        exact ⟨x, List.mem_append_right _ hx, e⟩
    have connective : op = .and ∨ op = .or := by simpa using h.1
    rcases connective with rfl | rfl
    · refine ⟨.and c d, by simp [circuit, hc, hd], both, fun τ ρ hx => ?_⟩
      obtain ⟨e, e'⟩ := values τ ρ hx
      rw [eval_and, e, e', Circuit.eval]
    · refine ⟨.or c d, by simp [circuit, hc, hd], both, fun τ ρ hx => ?_⟩
      obtain ⟨e, e'⟩ := values τ ρ hx
      rw [eval_or, e, e', Circuit.eval]
  | quant k x p => cases h

/-! ## 2. The numbering -/

namespace Numbering

section

variable {bs : List (Quantifier × String)} {f : Formula}

theorem mem_bound {b : Quantifier × String} :
    b ∈ (make bs f).bound ↔ b ∈ innermost bs ∧ b.2 ≠ trueName ∧ b.2 ∈ f.names := by
  simp [make, List.mem_filter, ← OrderedSet.mem_def]

theorem usesTrue_iff : (make bs f).usesTrue = true ↔ trueName ∈ f.names := by
  simp [make, ← OrderedSet.mem_def]

theorem nodup_bound : ((make bs f).bound.map (·.2)).Nodup :=
  (nodup_innermost bs).sublist (List.filter_sublist.map _)

theorem idOf_true (n : Numbering) : n.idOf trueName = n.bound.length + 1 := if_pos rfl

/-- Bound names are counted from one. -/
theorem idOf_bound {place : Nat} {b : Quantifier × String} (h : (make bs f).bound[place]? = some b) :
    (make bs f).idOf b.2 = place + 1 := by
  have hb := mem_bound.1 (List.mem_of_getElem? h)
  rw [idOf, if_neg hb.2.1]
  refine Std.HashMap.getD_ofList_of_mem (beq_self_eq_true _) ?_
    (List.mem_map.2 ⟨(b, place), List.mem_zipIdx_iff_getElem?.2 h, rfl⟩)
  have apart : (((make bs f).bound.zipIdx.map fun c => (c.1.2, c.2 + 1)).map (·.1)).Nodup := by
    have e : ((make bs f).bound.zipIdx.map fun c => (c.1.2, c.2 + 1)).map (·.1) =
        ((make bs f).bound.zipIdx.map Prod.fst).map (·.2) := by
      simp only [List.map_map]
      rfl
    rw [e, List.zipIdx_map_fst]
    exact nodup_bound
  exact (List.pairwise_map.1 apart).imp fun h => beq_eq_false_iff_ne.2 h

theorem binders_eq : (make bs f).bound.zipIdx.map (fun (b, place) => (b.1, place + 1)) =
    (make bs f).bound.map fun b => (b.1, (make bs f).idOf b.2) := by
  have e : (make bs f).bound.zipIdx.map (fun (b, place) => (b.1, place + 1)) =
      (make bs f).bound.zipIdx.map fun c => (c.1.1, (make bs f).idOf c.1.2) := by
    refine List.map_congr_left fun c hc => ?_
    rw [idOf_bound (List.mem_zipIdx_iff_getElem?.1 hc)]
  have e' : (make bs f).bound.zipIdx.map (fun c => (c.1.1, (make bs f).idOf c.1.2)) =
      ((make bs f).bound.zipIdx.map Prod.fst).map fun b => (b.1, (make bs f).idOf b.2) := by
    rw [List.map_map]
    rfl
  rw [e, e', List.zipIdx_map_fst]

theorem exists_mem_bound {x : String} (hx : x ∈ f.names) (h : x ≠ trueName)
    (hb : ∃ b ∈ bs, b.2 = x) :
    ∃ (place : Nat) (b : Quantifier × String), (make bs f).bound[place]? = some b ∧ b.2 = x := by
  obtain ⟨b, hb, rfl⟩ := hb
  obtain ⟨c, hc, e⟩ := exists_mem_innermost hb
  rw [← e] at hx h
  obtain ⟨place, hp⟩ := List.getElem?_of_mem (mem_bound.2 ⟨hc, h, hx⟩)
  exact ⟨place, c, hp, e⟩

/-- The bound names come first. -/
theorem idOf_le {x : String} (hx : x ∈ f.names) (h : x ≠ trueName) (hb : ∃ b ∈ bs, b.2 = x) :
    1 ≤ (make bs f).idOf x ∧ (make bs f).idOf x ≤ (make bs f).bound.length := by
  obtain ⟨place, b, hp, rfl⟩ := exists_mem_bound hx h hb
  have hlt := (List.getElem?_eq_some_iff.1 hp).1
  rw [idOf_bound hp]
  omega

/-- No two bound names have the same number. -/
theorem idOf_inj {x y : String} (hx : x ∈ f.names) (hy : y ∈ f.names) (hx' : x ≠ trueName)
    (hy' : y ≠ trueName) (hbx : ∃ b ∈ bs, b.2 = x) (hby : ∃ b ∈ bs, b.2 = y)
    (e : (make bs f).idOf x = (make bs f).idOf y) : x = y := by
  obtain ⟨place, b, hp, rfl⟩ := exists_mem_bound hx hx' hbx
  obtain ⟨place', c, hp', rfl⟩ := exists_mem_bound hy hy' hby
  rw [idOf_bound hp, idOf_bound hp', Nat.add_right_cancel_iff] at e
  rw [e, hp'] at hp
  cases hp
  rfl

theorem mem_ids {x : String} (hx : x ∈ f.names) (h : x ≠ trueName) :
    (make bs f).ids.contains x = true ↔ ∃ b ∈ bs, b.2 = x := by
  have e : (make bs f).ids.contains x =
      (((make bs f).bound.zipIdx.map fun c => (c.1.2, c.2 + 1)).map Prod.fst).contains x :=
    Std.HashMap.contains_ofList
  rw [e, List.contains_iff_mem, List.map_map, List.mem_map]
  constructor
  · rintro ⟨⟨b, place⟩, hp, rfl⟩
    have hb := mem_bound.1 (List.mem_of_getElem? (List.mem_zipIdx_iff_getElem?.1 hp))
    exact ⟨b, mem_of_mem_innermost hb.1, rfl⟩
  · intro hb
    obtain ⟨place, b, hp, rfl⟩ := exists_mem_bound hx h hb
    exact ⟨(b, place), List.mem_zipIdx_iff_getElem?.2 hp, rfl⟩

theorem unbound?_eq_none : (make bs f).unbound? f = none ↔
    ∀ x ∈ f.names, x ≠ trueName → ∃ b ∈ bs, b.2 = x := by
  rw [unbound?, List.find?_eq_none]
  refine forall_congr' fun x => ?_
  rw [← OrderedSet.mem_def, mem_nameSet]
  refine forall_congr' fun hx => ?_
  by_cases h : x = trueName
  · simp [h]
  · simp [h, ← mem_ids hx h]

/-- The name that is reported is the least that is not bound. -/
theorem unbound?_eq_some {x : String} : (make bs f).unbound? f = some x ↔
    (x ∈ f.names ∧ x ≠ trueName ∧ ∀ b ∈ bs, b.2 ≠ x) ∧
      ∀ y ∈ f.names, y ≠ trueName → (∀ b ∈ bs, b.2 ≠ y) → (compare x y).isLE = true := by
  have unbound : ∀ y ∈ f.nameSet,
      ((y != trueName && !(make bs f).ids.contains y) = true ↔
        y ≠ trueName ∧ ∀ b ∈ bs, b.2 ≠ y) := by
    intro y hy
    rw [mem_nameSet] at hy
    rw [Bool.and_eq_true, bne_iff_ne, Bool.not_eq_true', ← Bool.not_eq_true]
    refine and_congr_right fun h => ?_
    rw [mem_ids hy h, not_exists]
    exact forall_congr' fun b => not_and
  rw [unbound?, OrderedSet.find?_eq_some_iff]
  constructor
  · rintro ⟨hx, hp, least⟩
    refine ⟨⟨mem_nameSet.1 hx, (unbound x hx).1 hp⟩, fun y hy h h' => ?_⟩
    have hy := mem_nameSet.2 hy
    exact least y hy ((unbound y hy).2 ⟨h, h'⟩)
  · rintro ⟨⟨hx, hp⟩, least⟩
    have hx := mem_nameSet.2 hx
    refine ⟨hx, (unbound x hx).2 hp, fun y hy h => ?_⟩
    obtain ⟨h, h'⟩ := (unbound y hy).1 h
    exact least y (mem_nameSet.1 hy) h h'

/-! ## 3. The clause form -/

/-- The gates of a circuit over numbered names, and the literal for the whole. -/
def named (n : Numbering) (c : Circuit) : Int × Definitions := c.define (.empty n.size)

/-- The numbers of the constant and of the gates. -/
def innermostIds (n : Numbering) (c : Circuit) : List Nat :=
  List.range' (n.bound.length + 1) (n.usesTrue.toNat + (n.named c).2.gates.size)

/-- The clause form of a circuit over numbered names. -/
def form (n : Numbering) (c : Circuit) : ClauseForm :=
  .ofLists
    (n.bound.zipIdx.map (fun (b, place) => (b.1, place + 1)) ++
      (n.innermostIds c).map (Quantifier.existential, ·))
    ((n.named c).2.clauses ++
      [(n.named c).1] :: if n.usesTrue then [[(n.idOf trueName : Int)]] else [])
    (n.size + (n.named c).2.gates.size)

theorem toClauseForm_of_bound {c : Circuit} (hf : f.isPropositional = true)
    (hc : f.circuit (make bs f).idOf = .ok c)
    (hb : ∀ x ∈ f.names, x ≠ trueName → ∃ b ∈ bs, b.2 = x) :
    (bindAll bs f).toClauseForm = .ok ((make bs f).form c) := by
  obtain ⟨e, e'⟩ := binders_bindAll hf bs
  simp only [toClauseForm, e, e', hc, unbound?_eq_none.2 hb]
  rfl

theorem toClauseForm_of_unbound {x : String} (hf : f.isPropositional = true)
    (hx : x ∈ f.names ∧ x ≠ trueName ∧ ∀ b ∈ bs, b.2 ≠ x)
    (least : ∀ y ∈ f.names, y ≠ trueName → (∀ b ∈ bs, b.2 ≠ y) → (compare x y).isLE = true) :
    (bindAll bs f).toClauseForm = .error (.freeVariable x) := by
  obtain ⟨e, e'⟩ := binders_bindAll hf bs
  obtain ⟨c, hc, -⟩ := exists_circuit hf (make bs f).idOf
  simp only [toClauseForm, e, e', hc, unbound?_eq_some.2 ⟨hx, least⟩]

end

variable {n : Numbering} {c : Circuit}

theorem namedBy_named (hc : ∀ i ∈ c.inputs, 1 ≤ i ∧ i ≤ n.size) :
    c.NamedBy (.empty n.size) (n.named c) :=
  Circuit.names_define (Definitions.proper_empty n.size) hc

/-- The variables are counted in the order of their quantifiers. -/
theorem variables_form (n : Numbering) (c : Circuit) :
    (n.form c).binders.map (·.2) = List.range' 1 (n.form c).numVars := by
  have places : (n.bound.zipIdx.map fun (b, place) => (b.1, place + 1)).map (·.2) =
      List.range' 1 n.bound.length := by
    rw [List.map_map, List.range'_succ_left, ← List.zipIdx_map_snd 0 n.bound, List.map_map]
    rfl
  have block : ((n.innermostIds c).map (Quantifier.existential, ·)).map (·.2) =
      n.innermostIds c := by
    rw [List.map_map]
    exact List.map_id _
  have next : List.range' 1 n.bound.length ++ n.innermostIds c =
      List.range' 1 (n.size + (n.named c).2.gates.size) := by
    have append := @List.range'_append 1 n.bound.length
      (n.usesTrue.toNat + (n.named c).2.gates.size) 1
    rwa [Nat.one_mul, Nat.add_comm 1, ← Nat.add_assoc] at append
  simp only [form, ClauseForm.ofLists, List.map_append, places, block]
  exact next

/-- The values of the numbers with the constant's set. -/
def withTrue (n : Numbering) (ρ : Nat → Bool) : Nat → Bool :=
  if n.usesTrue then Function.update ρ (n.idOf trueName) true else ρ

theorem withTrue_of_ne {ρ : Nat → Bool} {i : Nat} (h : i ≠ n.bound.length + 1) :
    n.withTrue ρ i = ρ i := by
  unfold withTrue
  split
  · rw [idOf_true, Function.update_of_ne h]
  · rfl

theorem withTrue_true {ρ : Nat → Bool} (h : n.usesTrue = true) :
    n.withTrue ρ (n.idOf trueName) = true := by
  rw [withTrue, if_pos h, Function.update_self]

/-- The clauses ask that the gates have their values, that the circuit is true and that the constant
    is. -/
theorem matrix_form (hc : ∀ i ∈ c.inputs, 1 ≤ i ∧ i ≤ n.size) {σ : Nat → Bool} :
    (n.form c).matrix σ = true ↔ (n.named c).2.Respects σ ∧ c.eval σ = true ∧
      (n.usesTrue = true → σ (n.idOf trueName) = true) := by
  have h := namedBy_named hc
  have constant : clausesTrue σ (if n.usesTrue then [[(n.idOf trueName : Int)]] else []) = true ↔
      (n.usesTrue = true → σ (n.idOf trueName) = true) := by
    have pos : 0 < n.idOf trueName := n.idOf_true ▸ Nat.succ_pos _
    split
    · next used => simp [clausesTrue, clauseTrue, litTrue_natCast pos, used]
    · next unused => simp [clausesTrue, unused]
  have whole : clauseTrue σ [(n.named c).1] = litTrue σ (n.named c).1 := Bool.or_false _
  rw [form, ClauseForm.matrix_ofLists, clausesTrue_append, Bool.and_eq_true,
    Definitions.clauses_iff h.proper]
  refine and_congr_right fun hr => ?_
  rw [← h.value σ hr, ← whole, ← constant, ← Bool.and_eq_true]
  rfl

/-- The constant and the gates, innermost, leave no choice: the clauses can be met exactly where the
    circuit is true. -/
theorem innermost_matrix (hc : ∀ i ∈ c.inputs, 1 ≤ i ∧ i ≤ n.size) (ρ : Nat → Bool) :
    truthUnder ((n.innermostIds c).map (Quantifier.existential, ·)) (n.form c).matrix ρ =
      c.eval (n.withTrue ρ) := by
  have offset : (n.named c).2.offset = n.bound.length + n.usesTrue.toNat :=
    (namedBy_named hc).grows.offset
  rw [Bool.eq_iff_iff, truthUnder_existential]
  constructor
  · rintro ⟨σ, hσ, h⟩
    obtain ⟨-, h, constant⟩ := (matrix_form hc).1 h
    rw [← h]
    refine Circuit.eval_congr fun i hi => ?_
    have hi := (hc i hi).2
    by_cases e : i = n.bound.length + 1
    · have used : n.usesTrue = true := by
        cases hu : n.usesTrue with
        | true => rfl
        | false =>
          rw [Numbering.size, hu, e] at hi
          exact absurd hi (Nat.not_succ_le_self _)
      rw [e, ← idOf_true, withTrue_true used, constant used]
    · rw [withTrue_of_ne e, hσ]
      rw [innermostIds, List.mem_range'_1]
      have := Bool.toNat_le n.usesTrue
      unfold Numbering.size at hi
      omega
  · intro h
    obtain ⟨σ, hσ, hr⟩ := Definitions.exists_respects (namedBy_named hc).proper (n.withTrue ρ)
    rw [offset] at hσ
    refine ⟨σ, fun i hi => ?_, (matrix_form hc).2 ⟨hr, ?_, fun used => ?_⟩⟩
    · rw [innermostIds, List.mem_range'_1] at hi
      rw [hσ i (by omega)]
      cases hu : n.usesTrue with
      | true =>
        refine withTrue_of_ne ?_
        rw [hu] at hi
        simp only [Bool.toNat_true] at hi
        omega
      | false => rw [withTrue, hu, if_neg Bool.false_ne_true]
    · rw [← h]
      exact Circuit.eval_congr fun i hi => hσ i (Or.inl (hc i hi).2)
    · rw [hσ _ (Or.inl ?_), withTrue_true used]
      rw [idOf_true, used]
      exact Nat.le_refl _

/-- **The clause form of a circuit is proper.** -/
theorem proper_form (hc : ∀ i ∈ c.inputs, 1 ≤ i ∧ i ≤ n.size) : (n.form c).Proper := by
  have h := namedBy_named hc
  have offset : (n.named c).2.offset = n.size := h.grows.offset
  have counted : (n.form c).numVars = n.size + (n.named c).2.gates.size := rfl
  have literals : ∀ d ∈ (n.form c).lists, ∀ l ∈ d,
      l ≠ 0 ∧ l.natAbs ≤ (n.form c).numVars ∧ -l ∉ d := by
    intro d hd l hl
    obtain ⟨d, hmem, rfl⟩ := ClauseForm.mem_lists_ofLists.1 hd
    rw [← OrderedSet.mem_def, OrderedSet.mem_ofList] at hl ⊢
    rw [counted, ← offset]
    rcases List.mem_append.1 hmem with hmem | hmem
    · exact Definitions.clauses_proper h.proper hmem hl
    · rcases List.mem_cons.1 hmem with rfl | hmem
      · have hn := h.names
        unfold Definitions.Names at hn
        rw [List.mem_singleton] at hl ⊢
        rw [hl, offset]
        change 0 < (n.named c).1 ∧ (n.named c).1 ≤ ((n.size : Nat) : Int) + _ at hn
        omega
      · split at hmem
        · next used =>
          rw [List.mem_singleton.1 hmem, List.mem_singleton] at hl
          rw [List.mem_singleton.1 hmem, List.mem_singleton, hl, offset, idOf_true, Numbering.size,
            used]
          simp only [Bool.toNat_true]
          omega
        · exact absurd hmem List.not_mem_nil
  have mem : ∀ i, i ∈ (n.form c).binders.map (·.2) ↔ 1 ≤ i ∧ i ≤ (n.form c).numVars := by
    intro i
    rw [variables_form, List.mem_range'_1]
    omega
  exact {
    nodup := by
      rw [variables_form]
      exact List.nodup_range'
    counted := fun b hb => (mem b.2).1 (List.mem_map_of_mem hb)
    nonzero := fun d hd l hl => (literals d hd l hl).1
    bound := fun d hd l hl => by
      obtain ⟨h, hle, -⟩ := literals d hd l hl
      exact List.mem_map.1 ((mem l.natAbs).2 ⟨by omega, hle⟩)
    oneSign := fun d hd l hl => (literals d hd l hl).2.2 }

/-! ## 4. Truth -/

variable {bs : List (Quantifier × String)} {f : Formula}

/-- The circuit of a matrix whose names are bound. -/
theorem exists_circuit_bound (hf : f.isPropositional = true)
    (hb : ∀ x ∈ f.names, x ≠ trueName → ∃ b ∈ bs, b.2 = x) :
    ∃ c, f.circuit (make bs f).idOf = .ok c ∧
      (∀ i ∈ c.inputs, 1 ≤ i ∧ i ≤ (make bs f).size) ∧
      ∀ τ ρ, (∀ x, x ∈ f.names ∧ x ≠ trueName → τ x = ρ ((make bs f).idOf x)) →
        f.eval τ = c.eval ((make bs f).withTrue ρ) := by
  obtain ⟨c, hc, inputs, value⟩ := exists_circuit hf (make bs f).idOf
  refine ⟨c, hc, fun i hi => ?_, fun τ ρ h => value τ _ fun x hx => ?_⟩
  · obtain ⟨x, hx, rfl⟩ := inputs i hi
    by_cases e : x = trueName
    · rw [e] at hx
      rw [e, idOf_true, size, usesTrue_iff.2 hx, Bool.toNat_true]
      omega
    · have := idOf_le hx e (hb x hx e)
      unfold size
      omega
  · by_cases e : x = trueName
    · rw [e] at hx
      rw [e, withTrue_true (usesTrue_iff.2 hx)]
      rfl
    · have := idOf_le hx e (hb x hx e)
      rw [withTrue_of_ne (by omega), ← h x ⟨hx, e⟩, beq_eq_false_iff_ne.2 e, Bool.false_or]

/-- The clause form has the truth of the formula. -/
theorem isTrue_form {c : Circuit} (hf : f.isPropositional = true)
    (hb : ∀ x ∈ f.names, x ≠ trueName → ∃ b ∈ bs, b.2 = x)
    (hc : ∀ i ∈ c.inputs, 1 ≤ i ∧ i ≤ (make bs f).size)
    (value : ∀ τ ρ, (∀ x, x ∈ f.names ∧ x ≠ trueName → τ x = ρ ((make bs f).idOf x)) →
      f.eval τ = c.eval ((make bs f).withTrue ρ)) :
    ((make bs f).form c).isTrue = (bindAll bs f).isValid := by
  have reads : Reads (fun x => x ∈ f.names ∧ x ≠ trueName) fun τ => f.eval τ := fun τ τ' h =>
    eval_congr fun x hx e => h x ⟨freeNames_of_isPropositional hf ▸ hx, e⟩
  have kept : ∀ b : Quantifier × String, b.2 ∈ f.names ∧ b.2 ≠ trueName →
      (b.2 != trueName && f.nameSet.toList.contains b.2) = true := by
    intro b hb
    simp [hb.2, ← OrderedSet.mem_def, hb.1]
  have bound : ∀ b ∈ (make bs f).bound, b.2 ∈ f.names ∧ b.2 ≠ trueName := fun b hb =>
    ⟨(mem_bound.1 hb).2.2, (mem_bound.1 hb).2.1⟩
  calc ((make bs f).form c).isTrue
      = truthUnder ((make bs f).bound.map fun b => (b.1, (make bs f).idOf b.2))
          (fun ρ => c.eval ((make bs f).withTrue ρ)) fun _ => false := by
        rw [← binders_eq, ← funext (innermost_matrix hc), ← truthUnder_append]
        rfl
    _ = truthUnder (make bs f).bound (fun τ => f.eval τ) fun _ => false := by
        refine (truthUnder_rename (fun x y hx hy e => ?_) value bound fun _ _ => rfl).symm
        exact idOf_inj hx.1 hy.1 hx.2 hy.2 (hb x hx.1 hx.2) (hb y hy.1 hy.2) e
    _ = truthUnder bs (fun τ => f.eval τ) fun _ => false :=
        truthUnder_filter_innermost reads kept bs _
    _ = (bindAll bs f).isValid := (eval_bindAll bs f _).symm

end Numbering

/-- **Encoding keeps the truth.** A propositional formula under quantifiers, of which some may bind a
    name again or bind one that is not used, has a clause form as soon as each of its names is bound
    or the constant, and the clause form is true exactly if the formula is. -/
theorem exists_clauseForm_isTrue {bs : List (Quantifier × String)} {body : Formula}
    (hbody : body.isPropositional = true)
    (hbound : ∀ x ∈ body.names, x ≠ trueName → ∃ b ∈ bs, b.2 = x) :
    ∃ form, (bindAll bs body).toClauseForm = .ok form ∧
      form.isTrue = (bindAll bs body).isValid := by
  obtain ⟨c, hc, inputs, value⟩ := Numbering.exists_circuit_bound hbody hbound
  exact ⟨_, Numbering.toClauseForm_of_bound hbody hc hbound,
    Numbering.isTrue_form hbody hbound inputs value⟩

/-- `A x. E x. A u. E y. ((x | ~y) & (y | TRUE))`: one name bound twice and one that is not used. -/
theorem exists_clauseForm_shadowed :
    ((Formula.and (.or (.atom "x") (.not (.atom "y"))) (.or (.atom "y") truth)).isPropositional =
        true ∧
      ∀ x ∈ (Formula.and (.or (.atom "x") (.not (.atom "y"))) (.or (.atom "y") truth)).names,
        x ≠ trueName → ∃ b ∈ [(Quantifier.universal, "x"), (.existential, "x"), (.universal, "u"),
          (.existential, "y")], b.2 = x) ∧
    ∃ form, (bindAll [(.universal, "x"), (.existential, "x"), (.universal, "u"), (.existential, "y")]
        (.and (.or (.atom "x") (.not (.atom "y"))) (.or (.atom "y") truth))).toClauseForm =
          .ok form ∧
      form.isTrue =
        (bindAll [(.universal, "x"), (.existential, "x"), (.universal, "u"), (.existential, "y")]
          (.and (.or (.atom "x") (.not (.atom "y"))) (.or (.atom "y") truth))).isValid := by
  refine ⟨⟨by decide, by decide⟩, exists_clauseForm_isTrue (by decide) (by decide)⟩

end CtlTableau.Formula
