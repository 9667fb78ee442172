import CtlTableau.Proofs.Rounds

/-!
# Sets of states as boolean formulas

A check builds formulas of a simple shape (`Speaks`). Its steps do the same to any other boolean
formula about the current state, universal quantifiers and quantifiers over foreign names included,
as long as no quantifier binds a variable that a successor will have (`Regards`). Such a formula
stands for the states that make it true (`members`); moved to a new successor it stands for the same
states (`exists_moved`), a successor can be quantified away (`Regards.quantify`), and what is asked
about the formula is a query (`Regards.isQuery`).

An engine may have trouble with binders of the constant, which change nothing. Whether there may be
any is the parameter `rebinds`.
-/

namespace CtlTableau

/-! ## 1. Names of boolean formulas -/

namespace Formula

theorem free_or_bound {f : Formula} {x : String} (h : x ∈ f.names) :
    x ∈ f.freeNames ∨ x ∈ f.boundNames := by
  induction f with
  | atom y => exact Or.inl h
  | unary op p ih => exact ih h
  | binary op p q ihp ihq =>
    rcases List.mem_append.1 h with h | h
    · exact (ihp h).imp (List.mem_append_left _) (List.mem_append_left _)
    · exact (ihq h).imp (List.mem_append_right _) (List.mem_append_right _)
  | quant k y p ih =>
    by_cases e : x = y
    · exact Or.inr (e ▸ List.mem_cons_self)
    · refine (ih ((List.mem_cons.1 h).resolve_left e)).imp (fun h => ?_) (List.mem_cons_of_mem _)
      exact List.mem_filter.2 ⟨h, bne_iff_ne.2 e⟩

theorem isBoolean_mapNames (r : String → String) (f : Formula) :
    (f.mapNames r).isBoolean = f.isBoolean := by
  induction f with
  | atom x => rfl
  | unary op p ih => rw [mapNames, isBoolean, isBoolean, ih]
  | binary op p q ihp ihq => rw [mapNames, isBoolean, isBoolean, ihp, ihq]
  | quant k x p ih => exact ih

theorem isBoolean_bindAll (bs : List (Quantifier × String)) (f : Formula) :
    (bindAll bs f).isBoolean = f.isBoolean := by
  induction bs with
  | nil => rfl
  | cons b bs ih => exact ih

end Formula

namespace Tableau

open Formula SymbolicState

variable {T : Tableau} {rebinds : Prop} {own own' : String → Prop} {k k' n : Nat} {x : String}
  {f p q : Formula} {fs : List Formula}

/-! ## 2. Formulas that leave the variables of later successors alone -/

/-- A name that may be bound when the numbers from `k` on are left: it holds no prime and is no
    variable of a successor that is still to be made, and if it is the constant, then this may be
    bound. -/
structure Binds (T : Tableau) (rebinds : Prop) (k : Nat) (x : String) : Prop where
  plain : '\'' ∉ x.toList
  unused : ∀ n, k ≤ n → x ∉ (T.successor n).names
  constant : x = trueName → rebinds

/-- The formula is a quantified boolean formula about the own names, and it binds what may be
    bound. -/
structure Regards (T : Tableau) (rebinds : Prop) (own : String → Prop) (k : Nat) (f : Formula) :
    Prop where
  boolean : f.isBoolean = true
  free : ∀ x ∈ f.freeNames, x = trueName ∨ own x
  bound : ∀ x ∈ f.boundNames, T.Binds rebinds k x

/-- A quantified boolean formula for a set of states, when the numbers from `k` on are left: what it
    leaves free are variables of the current state and the constant, and what it binds holds no prime
    and is no variable of a successor that is still to be made. -/
structure StateSet (T : Tableau) (k : Nat) (f : Formula) : Prop where
  boolean : f.isBoolean = true
  free : ∀ x ∈ f.freeNames, x = trueName ∨ x ∈ T.current.names
  plain : ∀ x ∈ f.boundNames, '\'' ∉ x.toList
  unused : ∀ x ∈ f.boundNames, ∀ n, k ≤ n → x ∉ (T.successor n).names

/-- Variables of states hold an underscore, so other names may be bound anywhere. -/
theorem stateSet_of_no_underscore (boolean : f.isBoolean = true)
    (free : ∀ x ∈ f.freeNames, x = trueName ∨ x ∈ T.current.names)
    (bound : ∀ x ∈ f.boundNames, '\'' ∉ x.toList ∧ '_' ∉ x.toList) (k : Nat) : T.StateSet k f where
  boolean := boolean
  free := free
  plain x hx := (bound x hx).1
  unused x hx n _ hn := by
    obtain ⟨i, -, rfl⟩ := mem_names.1 hn
    exact (bound _ hx).2 (by simp [toList_varName])

theorem StateSet.regards (h : T.StateSet k f) :
    T.Regards (trueName ∈ f.boundNames) (· ∈ T.current.names) k f where
  boolean := h.boolean
  free := h.free
  bound x hx := ⟨h.plain x hx, h.unused x hx, fun e => e ▸ hx⟩

theorem Binds.later (h : T.Binds rebinds k x) (hk : k ≤ k') : T.Binds rebinds k' x :=
  ⟨h.plain, fun n hn => h.unused n (Nat.le_trans hk hn), h.constant⟩

theorem binds_of_isBelow (h : IsBelow k x) : T.Binds rebinds k x where
  plain := prime_not_mem_of_isBelow h
  unused _ hn := (not_mem_of_isBelow h hn).2
  constant e := by
    obtain ⟨m, -, i, rfl⟩ := h
    exact absurd e (varName_ne_true _ i)

theorem binds_of_mem_current (h : x ∈ T.current.names) : T.Binds rebinds k x where
  plain := prime_not_mem_names (show '\'' ∉ stateStem.toList by decide) h
  unused n _ := current_disjoint n h
  constant e := absurd (e ▸ h) (true_not_mem_names _)

theorem binds_of_mem_successor (h : x ∈ (T.successor n).names) : T.Binds rebinds (n + 1) x :=
  binds_of_isBelow (isBelow_of_mem h)

theorem binds_of_between (h : T.Between n x) : T.Binds rebinds (n + 1) x :=
  h.elim binds_of_mem_current binds_of_mem_successor

namespace Regards

theorem mono (h : T.Regards rebinds own k f) (hown : ∀ x, own x → own' x) (hk : k ≤ k') :
    T.Regards rebinds own' k' f :=
  ⟨h.boolean, fun x hx => (h.free x hx).imp_right (hown x), fun x hx => (h.bound x hx).later hk⟩

theorem later (h : T.Regards rebinds own k f) (hk : k ≤ k') : T.Regards rebinds own k' f :=
  h.mono (fun _ => id) hk

/-- What a check builds is of this kind. -/
theorem of_speaks (h : f.Speaks own k) (hown : ∀ x, own x → T.Binds rebinds k' x) (hk : k ≤ k') :
    T.Regards rebinds own k' f where
  boolean := isBoolean_of_isExistential h.existential
  free := h.free
  bound x hx := (h.bound x hx).elim (hown x) fun hb => (binds_of_isBelow hb).later hk

theorem atom (h : x = trueName ∨ own x) : T.Regards rebinds own k (.atom x) where
  boolean := rfl
  free y hy := by
    rw [List.mem_singleton.1 hy]
    exact h
  bound y hy := absurd hy List.not_mem_nil

theorem not (h : T.Regards rebinds own k p) : T.Regards rebinds own k (.not p) :=
  ⟨h.boolean, h.free, h.bound⟩

theorem binary {op : BinaryOp} (hop : op = .and ∨ op = .or) (hp : T.Regards rebinds own k p)
    (hq : T.Regards rebinds own k q) : T.Regards rebinds own k (.binary op p q) where
  boolean := by
    rcases hop with rfl | rfl <;> simp [isBoolean, hp.boolean, hq.boolean]
  free x hx := (List.mem_append.1 hx).elim (hp.free x) (hq.free x)
  bound x hx := (List.mem_append.1 hx).elim (hp.bound x) (hq.bound x)

theorem and (hp : T.Regards rebinds own k p) (hq : T.Regards rebinds own k q) :
    T.Regards rebinds own k (.and p q) := .binary (Or.inl rfl) hp hq

theorem or (hp : T.Regards rebinds own k p) (hq : T.Regards rebinds own k q) :
    T.Regards rebinds own k (.or p q) := .binary (Or.inr rfl) hp hq

theorem conj (h : ∀ f ∈ fs, T.Regards rebinds own k f) : T.Regards rebinds own k (.conj fs) :=
  joinLeft_induction (atom (Or.inl rfl)) (fun _ _ => .and) h

end Regards

/-! ## 3. Their sets -/

/-- The states that make the formula true. -/
def members (T : Tableau) (f : Formula) : Set (State T.elementary) :=
  {s | f.eval (T.current.write (fun _ => false) s) = true}

/-- A formula about the current state is true where this is a member. -/
theorem Regards.eval_iff (h : T.Regards rebinds (· ∈ T.current.names) k f) (ρ : String → Bool) :
    f.eval ρ = true ↔ T.current.read ρ ∈ T.members f := by
  rw [members, Set.mem_ofPred_eq, eval_write_read h.free]

theorem Regards.eval_write_iff (h : T.Regards rebinds (· ∈ T.current.names) k f)
    (ρ : String → Bool) (s : State T.elementary) :
    f.eval (T.current.write ρ s) = true ↔ s ∈ T.members f := by
  rw [h.eval_iff, read_write]

/-- The states that make such a formula true, whatever the values of other names. -/
theorem StateSet.setOf_eval (h : T.StateSet k f) (ρ : String → Bool) :
    {s | f.eval (T.current.write ρ s) = true} = T.members f :=
  Set.ext fun s => h.regards.eval_write_iff ρ s

variable {s : State T.elementary}

theorem not_mem_members_falsity : s ∉ T.members .falsity := by simp [members]

theorem mem_members_not : s ∈ T.members (.not p) ↔ s ∉ T.members p := by simp [members]

theorem mem_members_and : s ∈ T.members (.and p q) ↔ s ∈ T.members p ∧ s ∈ T.members q := by
  simp [members]

theorem mem_members_or : s ∈ T.members (.or p q) ↔ s ∈ T.members p ∨ s ∈ T.members q := by
  simp [members]

theorem mem_members_conj : s ∈ T.members (.conj fs) ↔ ∀ f ∈ fs, s ∈ T.members f :=
  eval_conj_iff _ fs

/-- The value of a formula that the current state decides. -/
theorem exists_regards_value {g : Formula} (h : T.Decides g) : ∃ a, T.current.value g = .ok a ∧
    (∀ rebinds k, T.Regards rebinds (· ∈ T.current.names) k a) ∧
      ∀ s, s ∈ T.members a ↔ T.Satisfies s g := by
  obtain ⟨a, ha, da⟩ := exists_value h 0
  refine ⟨a, ha, fun rebinds k => ?_, fun s => da.eval_write _ s⟩
  exact .of_speaks da.speaks (fun _ => binds_of_mem_current) (Nat.zero_le k)

/-! ## 4. Moving to a successor -/

/-- **Moving a formula to a new successor keeps its set**, whatever quantifiers the formula holds. -/
theorem Regards.exists_moved (h : T.Regards rebinds (· ∈ T.current.names) k f) (hk : k ≤ n) :
    ∃ f', T.current.transfer (T.successor n) f = .ok f' ∧
      T.Regards rebinds (· ∈ (T.successor n).names) (n + 1) f' ∧
      ∀ ρ, f'.eval ρ = true ↔ (T.successor n).read ρ ∈ T.members f := by
  have new : ∀ x ∈ f.names, x ∉ T.current.names → x ∉ (T.successor n).names := by
    intro x hx hxc
    rcases free_or_bound hx with hx | hx
    · rw [(h.free x hx).resolve_right hxc]
      exact true_not_mem_names _
    · exact (h.bound x hx).unused n hk
  have inj : ∀ x ∈ f.names, ∀ y ∈ f.names,
      T.current.transferred (T.successor n) x = T.current.transferred (T.successor n) y →
        x = y := fun x hx y hy => moved_inj new hx hy
  refine ⟨_, transfer_eq (same_elementary n) f, ⟨?_, fun z hz => ?_, fun z hz => ?_⟩, fun ρ => ?_⟩
  · rw [isBoolean_mapNames]
    exact h.boolean
  · obtain ⟨x, hx, rfl⟩ := mem_freeNames_mapNames inj hz
    rw [moved_eq_true_iff]
    exact (h.free x hx).imp_right moved_mem
  · rw [boundNames_mapNames] at hz
    obtain ⟨x, hx, rfl⟩ := List.mem_map.1 hz
    by_cases hxc : x ∈ T.current.names
    · exact binds_of_mem_successor (moved_mem hxc)
    · rw [transferred_of_not_mem _ hxc]
      exact (h.bound x hx).later (Nat.le_succ_of_le hk)
  · rw [eval_mapNames inj fun x _ => moved_eq_true_iff x, h.eval_iff, read_moved]

/-! ## 5. Quantifying -/

/-- What is left of a formula about a state and its successor when the successor is quantified
    away. -/
theorem Regards.quantify (h : T.Regards rebinds (T.Between n) (n + 1) f) :
    T.Regards rebinds (· ∈ T.current.names) (n + 1)
      ((T.successor n).quantify .existential f) where
  boolean := by
    rw [SymbolicState.quantify, isBoolean_bindAll]
    exact h.boolean
  free x hx := by
    obtain ⟨hx, hn⟩ := mem_freeNames_bindAll.1 hx
    exact (h.free x hx).imp_right fun hb => hb.resolve_right hn
  bound x hx := by
    rw [SymbolicState.quantify, boundNames_bindAll, List.mem_append] at hx
    exact hx.elim binds_of_mem_successor (h.bound x)

/-- Some successor is what is left to ask for. -/
theorem eval_quantify_iff {R : State T.elementary → State T.elementary → Prop}
    (h : ∀ ρ, f.eval ρ = true ↔ R (T.current.read ρ) ((T.successor n).read ρ))
    (ρ : String → Bool) : ((T.successor n).quantify .existential f).eval ρ = true ↔
      ∃ t, R (T.current.read ρ) t := by
  rw [SymbolicState.quantify, eval_bindAll_existential, ← exists_changed_iff ρ]
  exact exists_congr fun σ => and_congr_right fun _ => h σ

/-- Whether the set of a formula has a member is a query, and it binds the constant only if the
    formula may. -/
theorem Regards.isQuery (h : T.Regards rebinds (· ∈ T.current.names) k f) :
    (T.current.quantify .existential f).IsQuery ∧
      (trueName ∈ (T.current.quantify .existential f).boundNames → rebinds) := by
  have bound : ∀ x ∈ (T.current.quantify .existential f).boundNames, T.Binds rebinds k x := by
    intro x hx
    rw [SymbolicState.quantify, boundNames_bindAll, List.mem_append] at hx
    exact hx.elim binds_of_mem_current (h.bound x)
  have closed : ∀ x ∈ (T.current.quantify .existential f).freeNames, x = trueName := by
    intro x hx
    obtain ⟨hx, hn⟩ := mem_freeNames_bindAll.1 hx
    exact (h.free x hx).resolve_right hn
  refine ⟨⟨?_, closed, fun x hx => ?_⟩, fun hx => (bound _ hx).constant rfl⟩
  · rw [SymbolicState.quantify, isBoolean_bindAll]
    exact h.boolean
  · rcases free_or_bound hx with hx | hx
    · rw [closed x hx]
      decide
    · exact (bound x hx).plain

end Tableau

end CtlTableau
