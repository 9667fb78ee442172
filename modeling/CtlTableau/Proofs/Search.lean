import CtlTableau.Clausal.Expansion
import CtlTableau.Proofs.Clauses

/-!
# Expansion finds the truth

The search for the truth of a clause form works on one assignment. Where the assignment leaves a
variable open, the truth of the clauses depends on a valuation (`Assignment.fill`); a call of the
search is right if it gives the truth of the open quantifiers over that. A clause that stands as lost
makes this false, since "all" can play against all of its open literals at once, and a unit clause
asks "some" for a value (`propagates`). With this, `expand` is right by induction on the
quantifiers, and `expansion_eq_isTrue` says so for proper clause forms.
-/

namespace CtlTableau

/-! ## 1. Assignments -/

namespace Assignment

variable {σ : Assignment} {x y : Nat} {v : Bool} {ρ : Nat → Bool}

/-- The values of the variables, with those of a valuation for the open ones. -/
def fill (σ : Assignment) (ρ : Nat → Bool) (x : Nat) : Bool := (σ[x]?.join).getD (ρ x)

theorem isOpen_iff : σ.isOpen x = true ↔ σ[x]? = some none := beq_iff_eq

theorem fill_of_isOpen (h : σ.isOpen x = true) : σ.fill ρ x = ρ x := by
  rw [fill, isOpen_iff.1 h]
  rfl

theorem fill_of_some (h : σ[x]? = some (some v)) : σ.fill ρ x = v := by
  rw [fill, h]
  rfl

theorem lt_size_of_isOpen (h : σ.isOpen x = true) : x < σ.size :=
  (Array.getElem?_eq_some_iff.1 (isOpen_iff.1 h)).1

theorem getElem?_put (hx : x < σ.size) (w : Option Bool) :
    (σ.put x w)[y]? = if y = x then some w else σ[y]? := by
  rw [put, Array.getElem?_setIfInBounds]
  by_cases e : x = y
  · simp [e, e ▸ hx]
  · simp [e, Ne.symm e]

@[simp] theorem size_put (w : Option Bool) : (σ.put x w).size = σ.size :=
  Array.size_setIfInBounds

/-- Opening what was open before gives the assignment back. -/
theorem put_none_put (h : σ.isOpen x = true) : (σ.put x (some v)).put x none = σ := by
  refine Array.ext_getElem? fun y => ?_
  rw [getElem?_put (by rw [size_put]; exact lt_size_of_isOpen h), getElem?_put (lt_size_of_isOpen h)]
  split
  · next e => rw [e, isOpen_iff.1 h]
  · rfl

theorem isOpen_put (h : σ.isOpen x = true) :
    (σ.put x (some v)).isOpen y = true ↔ σ.isOpen y = true ∧ y ≠ x := by
  rw [isOpen_iff, getElem?_put (lt_size_of_isOpen h), isOpen_iff]
  by_cases e : y = x <;> simp [e]

/-- A value that is assigned might as well come from the valuation. -/
theorem fill_put (h : σ.isOpen x = true) :
    (σ.put x (some v)).fill ρ = σ.fill (Function.update ρ x v) := by
  funext y
  rw [fill, getElem?_put (lt_size_of_isOpen h)]
  by_cases e : y = x
  · subst e
    rw [if_pos rfl, fill_of_isOpen h, Function.update_self]
    rfl
  · rw [if_neg e, fill, Function.update_of_ne e]

end Assignment

namespace ClauseForm

variable {u : Array Bool} {σ : Assignment} {cs : List (List Int)} {bs : List (Quantifier × Nat)}

/-! ## 2. How a clause stands -/

/-- Without further literals the open ones decide. -/
theorem standing_nil (u : Array Bool) (σ : Assignment) (opens : List Int) :
    (standing u σ opens [] = .lost ∧ ∀ l ∈ opens, u.getD l.natAbs false = true) ∨
      (∃ l, standing u σ opens [] = .unit l ∧ opens = [l] ∧ u.getD l.natAbs false = false) ∨
      (standing u σ opens [] = .undecided ∧ ∃ l, l ∈ opens) := by
  have step := standing.eq_def u σ opens []
  dsimp only at step
  cases hf : opens.filter (fun l => !u.getD l.natAbs false) with
  | nil =>
    refine Or.inl ⟨by rw [step, hf], fun l hl => ?_⟩
    simpa using List.filter_eq_nil_iff.1 hf l hl
  | cons l ls =>
    have hl := List.mem_filter.1 (hf ▸ List.mem_cons_self : l ∈ opens.filter _)
    have existential : u.getD l.natAbs false = false := by simpa using hl.2
    by_cases alone : opens = [l]
    · refine Or.inr (Or.inl ⟨l, ?_, alone, existential⟩)
      have only : [l].filter (fun l => !u.getD l.natAbs false) = [l] :=
        List.filter_cons_of_pos hl.2
      rw [step, alone, only]
    · refine Or.inr (Or.inr ⟨?_, l, hl.1⟩)
      rw [step, hf]
      match ls, opens, alone, hl.1 with
      | [], [l'], alone, hl => exact absurd (List.mem_singleton.1 hl ▸ rfl) alone
      | [], _ :: _ :: _, _, _ => rfl
      | _ :: _, _, _, _ => rfl

/-- A clause has a true literal, or its open literals are collected. -/
theorem standing_collects (u : Array Bool) {c : List Int} (hc : ∀ l ∈ c, l.natAbs < σ.size)
    (opens : List Int) :
    (standing u σ opens c = .satisfied ∧ ∀ ρ, clauseTrue (σ.fill ρ) c = true) ∨
      (standing u σ opens c =
          standing u σ (opens ++ c.filter fun l => σ.isOpen l.natAbs) [] ∧
        ∀ ρ, clauseTrue (σ.fill ρ) c = clauseTrue ρ (c.filter fun l => σ.isOpen l.natAbs)) := by
  induction c generalizing opens with
  | nil => exact Or.inr ⟨by rw [List.filter_nil, List.append_nil], fun _ => rfl⟩
  | cons l c ih =>
    have hc' : ∀ l ∈ c, l.natAbs < σ.size := fun l hl => hc l (List.mem_cons_of_mem _ hl)
    have cons : ∀ ρ, clauseTrue (σ.fill ρ) (l :: c) =
        (litTrue (σ.fill ρ) l || clauseTrue (σ.fill ρ) c) := fun _ => rfl
    have step := standing.eq_def u σ opens (l :: c)
    dsimp only at step
    rw [step]
    split
    · next v hv =>
      have value : ∀ ρ, litTrue (σ.fill ρ) l = (v == decide (0 < l)) := by
        intro ρ
        rw [litTrue, Assignment.fill_of_some hv]
      have closed : σ.isOpen l.natAbs = false := by
        rw [Assignment.isOpen, hv]
        rfl
      rw [List.filter_cons_of_neg (by simp [closed])]
      split
      · next e => exact Or.inl ⟨rfl, fun ρ => by rw [cons, value, e]; simp⟩
      · next e =>
        have untrue : ∀ ρ, litTrue (σ.fill ρ) l = false := fun ρ => by
          rw [value, beq_eq_false_iff_ne]
          exact e
        simpa only [cons, untrue, Bool.false_or] using ih hc' opens
    · next undefined =>
      have opened : σ.isOpen l.natAbs = true := by
        have hlt := hc l List.mem_cons_self
        rw [Assignment.isOpen_iff, Array.getElem?_eq_getElem hlt]
        cases hv : σ[l.natAbs] with
        | none => rfl
        | some v => exact absurd (by rw [Array.getElem?_eq_getElem hlt, hv]) (undefined v)
      have value : ∀ ρ, litTrue (σ.fill ρ) l = litTrue ρ l := by
        intro ρ
        rw [litTrue, Assignment.fill_of_isOpen opened, litTrue]
      rw [List.filter_cons_of_pos (by simpa using opened)]
      rcases ih hc' (opens ++ [l]) with ⟨h, sat⟩ | ⟨h, rest⟩
      · exact Or.inl ⟨h, fun ρ => by rw [cons, sat, Bool.or_true]⟩
      · refine Or.inr ⟨?_, fun ρ => ?_⟩
        · rw [h, List.append_assoc]
          rfl
        · rw [cons, value, rest]
          rfl

/-- What the standing of a clause says about its open literals. -/
structure Judges (u : Array Bool) (σ : Assignment) (c : List Int) (s : Standing) : Prop where
  satisfied : s = .satisfied → ∀ ρ, clauseTrue (σ.fill ρ) c = true
  lost : s = .lost → (∀ l ∈ c, σ.isOpen l.natAbs = true → u.getD l.natAbs false = true) ∧
    ∀ ρ, clauseTrue (σ.fill ρ) c = true → ∃ l ∈ c, σ.isOpen l.natAbs = true ∧ litTrue ρ l = true
  unit : ∀ l, s = .unit l → l ∈ c ∧ σ.isOpen l.natAbs = true ∧ u.getD l.natAbs false = false ∧
    ∀ ρ, clauseTrue (σ.fill ρ) c = true → litTrue ρ l = true
  undecided : s = .undecided → ∃ l ∈ c, σ.isOpen l.natAbs = true

theorem judges_standing (u : Array Bool) {c : List Int} (hc : ∀ l ∈ c, l.natAbs < σ.size) :
    Judges u σ c (standing u σ [] c) := by
  rcases standing_collects u hc [] with ⟨h, sat⟩ | ⟨h, rest⟩
  · rw [h]
    exact ⟨fun _ => sat, fun e => (by cases e), fun l e => (by cases e), fun e => (by cases e)⟩
  · rw [h, List.nil_append]
    rcases standing_nil u σ (c.filter fun l => σ.isOpen l.natAbs) with
      ⟨h, universal⟩ | ⟨l, h, alone, existential⟩ | ⟨h, l, hl⟩
    · rw [h]
      refine ⟨fun e => (by cases e), fun _ => ⟨fun l hl ho => ?_, fun ρ hρ => ?_⟩,
        fun l e => (by cases e), fun e => (by cases e)⟩
      · exact universal l (List.mem_filter.2 ⟨hl, ho⟩)
      · rw [rest] at hρ
        obtain ⟨l, hl, ht⟩ := clauseTrue_iff.1 hρ
        exact ⟨l, (List.mem_filter.1 hl).1, (List.mem_filter.1 hl).2, ht⟩
    · rw [h]
      refine ⟨fun e => (by cases e), fun e => (by cases e), fun l' e => ?_, fun e => (by cases e)⟩
      cases e
      have hl : l ∈ c.filter fun l => σ.isOpen l.natAbs := alone ▸ List.mem_singleton_self l
      refine ⟨(List.mem_filter.1 hl).1, (List.mem_filter.1 hl).2, existential, fun ρ hρ => ?_⟩
      rw [rest, alone] at hρ
      obtain ⟨l', hl', ht⟩ := clauseTrue_iff.1 hρ
      rwa [List.mem_singleton.1 hl'] at ht
    · rw [h]
      exact ⟨fun e => (by cases e), fun e => (by cases e), fun l' e => (by cases e), fun _ =>
        ⟨l, (List.mem_filter.1 hl).1, (List.mem_filter.1 hl).2⟩⟩

/-! ## 3. How all clauses stand -/

theorem of_outlook_won {sofar : Outlook} (h : outlook u σ sofar cs = .won) :
    sofar = .won ∧ ∀ c ∈ cs, standing u σ [] c = .satisfied := by
  fun_induction outlook u σ sofar cs <;> grind

theorem of_outlook_lost {sofar : Outlook} (h : outlook u σ sofar cs = .lost) :
    sofar = .lost ∨ ∃ c ∈ cs, standing u σ [] c = .lost := by
  fun_induction outlook u σ sofar cs <;> grind

theorem of_outlook_forced {sofar : Outlook} {l : Int} (h : outlook u σ sofar cs = .forced l) :
    sofar = .forced l ∨ ∃ c ∈ cs, standing u σ [] c = .unit l := by
  fun_induction outlook u σ sofar cs <;> grind

theorem of_outlook_choice {sofar : Outlook} (h : outlook u σ sofar cs = .choice) :
    sofar = .choice ∨ ∃ c ∈ cs, standing u σ [] c = .undecided := by
  fun_induction outlook u σ sofar cs <;> grind

/-! ## 4. Propagation -/

/-- The truth of the clauses where an assignment is completed by a valuation. -/
def truthFrom (cs : List (List Int)) (σ : Assignment) (ρ : Nat → Bool) : Bool :=
  clausesTrue (σ.fill ρ) cs

/-- The truth once an open variable has a value. -/
theorem truthFrom_put {x : Nat} {v : Bool} (hx : σ.isOpen x = true) (ρ : Nat → Bool) :
    truthFrom cs (σ.put x (some v)) ρ = truthFrom cs σ (Function.update ρ x v) := by
  rw [truthFrom, Assignment.fill_put hx, truthFrom]

/-- What the search relies on: the open variables of the clauses are bound, once each and as the
    table of universal variables has it, and no clause takes a variable in both signs. -/
structure Ready (u : Array Bool) (cs : List (List Int)) (bs : List (Quantifier × Nat))
    (σ : Assignment) : Prop where
  nodup : (bs.map (·.2)).Nodup
  kinds : ∀ b ∈ bs, u.getD b.2 false = (b.1 == .universal)
  within : ∀ c ∈ cs, ∀ l ∈ c, l.natAbs < σ.size
  oneSign : ∀ c ∈ cs, ∀ l ∈ c, -l ∉ c
  bound : ∀ c ∈ cs, ∀ l ∈ c, σ.isOpen l.natAbs = true → ∃ b ∈ bs, b.2 = l.natAbs

namespace Ready

variable {x : Nat} {v : Bool}

/-- Another value leaves the search ready. -/
theorem put (h : Ready u cs bs σ) (hx : σ.isOpen x = true) : Ready u cs bs (σ.put x (some v)) where
  nodup := h.nodup
  kinds := h.kinds
  within := fun c hc l hl => by
    rw [Assignment.size_put]
    exact h.within c hc l hl
  oneSign := h.oneSign
  bound := fun c hc l hl ho => h.bound c hc l hl ((Assignment.isOpen_put hx).1 ho).1

/-- A lost clause is false whatever "some" plays. -/
theorem truthUnder_of_lost (h : Ready u cs bs σ) {c : List Int} (hc : c ∈ cs)
    (hl : standing u σ [] c = .lost) (ρ : Nat → Bool) : truthUnder bs (truthFrom cs σ) ρ = false := by
  have judged := judges_standing u (h.within c hc)
  rw [hl] at judged
  obtain ⟨universal, stands⟩ := judged.lost rfl
  refine Bool.eq_false_iff.2 fun ht => ?_
  -- "all" makes every open literal of the clause false
  obtain ⟨τ, -, played, ht⟩ := exists_of_truthUnder h.nodup (fun x => decide (-(x : Int) ∈ c)) ht
  obtain ⟨l, hl, ho, hlt⟩ := stands τ (clausesTrue_iff.1 ht c hc)
  obtain ⟨b, hb, e⟩ := h.bound c hc l hl ho
  have hk : b.1 = .universal := by
    have := h.kinds b hb
    rw [e, universal l hl ho] at this
    simpa using this
  have hp := played b hb hk
  rw [e] at hp
  rw [litTrue, hp, beq_iff_eq, decide_eq_decide] at hlt
  rcases Int.lt_or_le 0 l with pos | neg
  · have e : -(l.natAbs : Int) = -l := by omega
    exact h.oneSign c hc l hl (e ▸ hlt.2 pos)
  · have e : -(l.natAbs : Int) = l := by omega
    rw [e] at hlt
    exact absurd (hlt.1 hl) (by omega)

/-- A unit clause asks "some" for the value that it gets. -/
theorem truthUnder_put_unit (h : Ready u cs bs σ) {c : List Int} (hc : c ∈ cs) {l : Int}
    (hl : standing u σ [] c = .unit l) : σ.isOpen l.natAbs = true ∧
      ∀ ρ, truthUnder bs (truthFrom cs (σ.put l.natAbs (some (decide (0 < l))))) ρ =
        truthUnder bs (truthFrom cs σ) ρ := by
  have judged := judges_standing u (h.within c hc)
  rw [hl] at judged
  obtain ⟨hmem, ho, hk, needed⟩ := judged.unit l rfl
  obtain ⟨b, hb, e⟩ := h.bound c hc l hmem ho
  have existential : b.1 = .existential := by
    have := h.kinds b hb
    rw [e, hk] at this
    cases hb1 : b.1 with
    | existential => rfl
    | universal => simp [hb1] at this
  have hb : (.existential, l.natAbs) ∈ bs := by
    rw [← existential, ← e]
    exact hb
  refine ⟨ho, fun ρ => ?_⟩
  have asks : ∀ τ, truthFrom cs σ τ = true → τ l.natAbs = decide (0 < l) := fun τ hτ =>
    beq_iff_eq.1 (needed τ (clausesTrue_iff.1 hτ c hc))
  rw [truthUnder_force h.nodup hb asks]
  exact congrArg (truthUnder bs · ρ) (funext (truthFrom_put ho))

end Ready

/-- What propagation comes to: the same truth from an assignment that leads back to the first one, and
    an outlook that tells the truth. -/
structure Propagates (u : Array Bool) (cs : List (List Int)) (bs : List (Quantifier × Nat))
    (σ : Assignment) (trail : List Nat) (r : Outlook × List Nat × Assignment) : Prop where
  ready : Ready u cs bs r.2.2
  back : release r.2.1 r.2.2 = release trail σ
  same : ∀ ρ, truthUnder bs (truthFrom cs r.2.2) ρ = truthUnder bs (truthFrom cs σ) ρ
  won : r.1 = .won → ∀ ρ, truthFrom cs r.2.2 ρ = true
  lost : r.1 = .lost → ∀ ρ, truthUnder bs (truthFrom cs r.2.2) ρ = false
  other : r.1 ≠ .won → r.1 ≠ .lost → ∃ c ∈ cs, ∃ l ∈ c, r.2.2.isOpen l.natAbs = true

theorem propagates (h : Ready u cs bs σ) (trail : List Nat) :
    Propagates u cs bs σ trail (propagate u cs σ trail) := by
  fun_induction propagate u cs σ trail with
  | case1 σ trail l hl ho ih =>
    obtain e | ⟨c, hc, hs⟩ := of_outlook_forced hl
    · cases e
    have unit := (h.truthUnder_put_unit hc hs).2
    have ih := ih (h.put ho)
    refine ⟨ih.ready, ih.back.trans ?_, fun ρ => (ih.same ρ).trans (unit ρ), ih.won, ih.lost,
      ih.other⟩
    rw [release, List.foldl_cons, Assignment.put_none_put ho]
    rfl
  | case2 σ trail l hl ho =>
    obtain e | ⟨c, hc, hs⟩ := of_outlook_forced hl
    · cases e
    exact absurd (h.truthUnder_put_unit hc hs).1 ho
  | case3 σ trail hforced =>
    refine ⟨h, rfl, fun _ => rfl, fun hw => ?_, fun hl => ?_, fun hw hl => ?_⟩
    · have sat := (of_outlook_won hw).2
      exact fun ρ => clausesTrue_iff.2 fun c hc =>
        (judges_standing u (h.within c hc)).satisfied (sat c hc) ρ
    · obtain e | ⟨c, hc, hs⟩ := of_outlook_lost hl
      · cases e
      exact h.truthUnder_of_lost hc hs
    · have choice : outlook u σ .won cs = .choice := by
        cases ho : outlook u σ .won cs with
        | won => exact absurd ho hw
        | lost => exact absurd ho hl
        | forced l => exact absurd ho (hforced l)
        | choice => rfl
      obtain e | ⟨c, hc, hs⟩ := of_outlook_choice choice
      · cases e
      obtain ⟨l, hl, ho⟩ := (judges_standing u (h.within c hc)).undecided hs
      exact ⟨c, hc, l, hl, ho⟩

/-! ## 5. The search -/

namespace Ready

variable {b : Quantifier × Nat}

/-- A variable that has a value needs no quantifier. -/
theorem skip (h : Ready u cs (b :: bs) σ) (ho : σ.isOpen b.2 = false) : Ready u cs bs σ where
  nodup := (List.nodup_cons.1 h.nodup).2
  kinds := fun c hc => h.kinds c (List.mem_cons_of_mem _ hc)
  within := h.within
  oneSign := h.oneSign
  bound := fun c hc l hl hlo => by
    obtain ⟨d, hd, e⟩ := h.bound c hc l hl hlo
    rcases List.mem_cons.1 hd with rfl | hd
    · rw [e, hlo] at ho
      cases ho
    · exact ⟨d, hd, e⟩

/-- The truth does not depend on the values of variables without a quantifier. -/
theorem reads (h : Ready u cs bs σ) :
    Reads (fun x => ∃ b ∈ bs, b.2 = x) (truthFrom cs σ) := by
  intro ρ τ hρ
  refine clausesTrue_congr fun c hc l hl => ?_
  by_cases ho : σ.isOpen l.natAbs = true
  · rw [Assignment.fill_of_isOpen ho, Assignment.fill_of_isOpen ho, hρ _ (h.bound c hc l hl ho)]
  · have hlt := h.within c hc l hl
    cases hv : σ[l.natAbs] with
    | none => exact absurd (Assignment.isOpen_iff.2 (hv ▸ Array.getElem?_eq_getElem hlt)) ho
    | some v =>
      have hv : σ[l.natAbs]? = some (some v) := hv ▸ Array.getElem?_eq_getElem hlt
      rw [Assignment.fill_of_some hv, Assignment.fill_of_some hv]

/-- Choosing a value for the outermost variable. -/
theorem truthUnder_update (h : Ready u cs (b :: bs) σ) (ho : σ.isOpen b.2 = true) (v : Bool)
    (ρ : Nat → Bool) : truthUnder bs (truthFrom cs σ) (Function.update ρ b.2 v) =
      truthUnder bs (truthFrom cs (σ.put b.2 (some v))) (Function.update ρ b.2 v) := by
  have other := (List.nodup_cons.1 h.nodup).1
  refine truthUnder_congr_matrix fun τ hτ => ?_
  have e : τ b.2 = v := by
    rw [hτ b.2 fun c hc e => other (List.mem_map.2 ⟨c, hc, e⟩), Function.update_self]
  rw [truthFrom_put ho, ← e, Function.update_eq_self]

theorem choose_value (h : Ready u cs (b :: bs) σ) (ho : σ.isOpen b.2 = true) (v : Bool) :
    Ready u cs bs (σ.put b.2 (some v)) := by
  have closed : (σ.put b.2 (some v)).isOpen b.2 = false := by
    rw [Bool.eq_false_iff, ne_eq, Assignment.isOpen_put ho]
    exact fun h => h.2 rfl
  exact (h.put ho).skip closed

end Ready

/-- Choosing is right if the search under fewer quantifiers is. -/
theorem choose_eq {bs : List (Quantifier × Nat)}
    (ih : ∀ inner : List (Quantifier × Nat), inner.length < bs.length → ∀ {σ}, Ready u cs inner σ →
      ∀ ρ, expand u cs inner σ = (truthUnder inner (truthFrom cs σ) ρ, σ))
    (h : Ready u cs bs σ) (opened : ∃ c ∈ cs, ∃ l ∈ c, σ.isOpen l.natAbs = true) (ρ : Nat → Bool) :
    choose u cs bs σ = (truthUnder bs (truthFrom cs σ) ρ, σ) := by
  induction bs with
  | nil =>
    obtain ⟨c, hc, l, hl, ho⟩ := opened
    obtain ⟨b, hb, -⟩ := h.bound c hc l hl ho
    exact absurd hb List.not_mem_nil
  | cons b bs step =>
    obtain ⟨k, x⟩ := b
    rw [choose.eq_def]
    dsimp only
    cases ho : σ.isOpen x with
    | false =>
      have unread : (∃ b ∈ bs, b.2 = x) → ∃ b ∈ bs, b.2 = x := id
      rw [if_neg Bool.false_ne_true, truthUnder_cons_of_unread (h.skip ho).reads unread]
      exact step (fun inner hlt => ih inner (Nat.lt_succ_of_lt hlt)) (h.skip ho)
    | true =>
      have value : ∀ v, expand u cs bs (σ.put x (some v)) =
          (truthUnder bs (truthFrom cs σ) (Function.update ρ x v), σ.put x (some v)) := by
        intro v
        rw [h.truthUnder_update ho]
        exact ih bs (Nat.lt_succ_self _) (h.choose_value ho v) _
      simp only [if_true, value, Assignment.put_none_put ho, truthUnder]
      cases k with
      | existential =>
        cases truthUnder bs (truthFrom cs σ) (Function.update ρ x true) <;>
          simp [Quantifier.join]
      | universal =>
        cases truthUnder bs (truthFrom cs σ) (Function.update ρ x true) <;>
          simp [Quantifier.join]

/-- **The search finds the truth** and hands the assignment back. -/
theorem expand_eq {bs : List (Quantifier × Nat)} {σ : Assignment} (h : Ready u cs bs σ)
    (ρ : Nat → Bool) : expand u cs bs σ = (truthUnder bs (truthFrom cs σ) ρ, σ) := by
  induction hn : bs.length using Nat.strongRecOn generalizing bs σ ρ with
  | _ n ih =>
    have p := propagates h []
    have back : release (propagate u cs σ []).2.1 (propagate u cs σ []).2.2 = σ := p.back
    rw [expand.eq_def]
    split
    · next trail τ e =>
      rw [e] at p back
      rw [back, ← p.same, truthUnder_congr_matrix fun τ _ => p.won rfl τ, truthUnder_const]
    · next trail τ e =>
      rw [e] at p back
      rw [back, ← p.same, p.lost rfl]
    · next o trail τ hw hl e =>
      rw [e] at p back
      have chosen := choose_eq (fun inner hlt σ hr ρ => ih inner.length (hn ▸ hlt) hr ρ rfl) p.ready
        (p.other hw hl) ρ
      rw [chosen]
      exact Prod.ext (p.same ρ) back

/-! ## 6. Whole clause forms -/

/-- Entries that are not written stay. -/
theorem getElem?_foldl_set {x : Nat} (bs : List (Quantifier × Nat)) (a : Array Bool)
    (h : ∀ b ∈ bs, b.2 ≠ x) :
    (bs.foldl (fun a b => a.setIfInBounds b.2 (b.1 == .universal)) a)[x]? = a[x]? := by
  induction bs generalizing a with
  | nil => rfl
  | cons b bs ih =>
    rw [List.foldl_cons, ih _ fun c hc => h c (List.mem_cons_of_mem _ hc),
      Array.getElem?_setIfInBounds_ne (h b List.mem_cons_self)]

/-- The table has room for every variable. -/
theorem lt_foldl_max (bs : List (Quantifier × Nat)) (n : Nat) :
    n ≤ bs.foldl (fun n b => max n (b.2 + 1)) n ∧
      ∀ b ∈ bs, b.2 < bs.foldl (fun n b => max n (b.2 + 1)) n := by
  induction bs generalizing n with
  | nil => exact ⟨Nat.le_refl n, fun b hb => absurd hb List.not_mem_nil⟩
  | cons c bs ih =>
    obtain ⟨h, h'⟩ := ih (max n (c.2 + 1))
    rw [List.foldl_cons]
    refine ⟨by omega, fun b hb => ?_⟩
    rcases List.mem_cons.1 hb with rfl | hb
    · omega
    · exact h' b hb

/-- The table tells which quantifier a variable has. -/
theorem universals_getD {form : ClauseForm} (nodup : (form.binders.map (·.2)).Nodup)
    {b : Quantifier × Nat} (hb : b ∈ form.binders) :
    form.universals.getD b.2 false = (b.1 == .universal) := by
  have fold : ∀ (bs : List (Quantifier × Nat)) (a : Array Bool), (bs.map (·.2)).Nodup → b ∈ bs →
      b.2 < a.size → (bs.foldl (fun a b => a.setIfInBounds b.2 (b.1 == .universal)) a)[b.2]? =
        some (b.1 == .universal) := by
    intro bs
    induction bs with
    | nil => exact fun a _ hb => absurd hb List.not_mem_nil
    | cons c bs ih =>
      intro a nodup hb hlt
      rw [List.map_cons, List.nodup_cons] at nodup
      rw [List.foldl_cons]
      rcases List.mem_cons.1 hb with rfl | hb
      · rw [getElem?_foldl_set bs _ fun d hd e => nodup.1 (List.mem_map.2 ⟨d, hd, e⟩),
          Array.getElem?_setIfInBounds_self_of_lt hlt]
      · exact ih _ nodup.2 hb (by rwa [Array.size_setIfInBounds])
  rw [Array.getD_eq_getD_getElem?, universals, fold form.binders _ nodup hb]
  · rfl
  · rw [Array.size_replicate]
    exact (lt_foldl_max form.binders 0).2 b hb

namespace Proper

variable {form : ClauseForm}

/-- The variables of a proper clause form are counted. -/
theorem natAbs_le (h : form.Proper) {c : List Int} (hc : c ∈ form.lists) {l : Int} (hl : l ∈ c) :
    l.natAbs ≤ form.numVars := by
  obtain ⟨b, hb, e⟩ := h.bound c hc l hl
  exact e ▸ (h.counted b hb).2

/-- A proper clause form is ready for the search. -/
theorem ready (h : form.Proper) :
    Ready form.universals form.lists form.binders (.allOpen form.numVars) where
  nodup := h.nodup
  kinds := fun b hb => universals_getD h.nodup hb
  within := fun c hc l hl => by
    rw [Assignment.allOpen, Array.size_replicate]
    exact Nat.lt_succ_of_le (h.natAbs_le hc hl)
  oneSign := h.oneSign
  bound := fun c hc l hl _ => h.bound c hc l hl

/-- Before the search the truth of the clauses is the matrix. -/
theorem truthFrom_allOpen (h : form.Proper) :
    truthFrom form.lists (.allOpen form.numVars) = form.matrix := by
  funext ρ
  refine clausesTrue_congr fun c hc l hl => Assignment.fill_of_isOpen ?_
  rw [Assignment.isOpen_iff, Assignment.allOpen,
    Array.getElem?_replicate, if_pos (Nat.lt_succ_of_le (h.natAbs_le hc hl))]

end Proper

/-- **Expansion decides proper clause forms.** -/
theorem expansion_eq_isTrue {form : ClauseForm} (h : form.Proper) :
    form.expansion = form.isTrue := by
  have e := expand_eq h.ready fun _ => false
  rw [h.truthFrom_allOpen] at e
  exact congrArg Prod.fst e

end ClauseForm

end CtlTableau
