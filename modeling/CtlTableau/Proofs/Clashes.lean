import CtlTableau.Proofs.NormalForms
import CtlTableau.Proofs.Variables

/-!
# Names that are made do not clash

Names are made in two ways: drawn by tickets, and numbered by a state. Both put a number behind a
separator, and both numbers can be read off again: digits hold neither a prime nor an underscore, so a
drawn name's ticket stands after its last prime (`Tickets.name_inj`) and a variable's number after its
only underscore (`SymbolicState.varName_inj`).

Tickets may be asked in any way (`Draw`), and a base may well be a name that was drawn before: no
ticket is drawn twice (`next_draw`), so no name is.

Main statement: `names_apart`.
-/

namespace CtlTableau

/-! ## 1. What tickets give -/

namespace Tickets

/-- What tickets are asked for: a number, or a name that is made of a base. -/
inductive Draw where
  | number
  | name (base : String)
  deriving DecidableEq, Repr

/-- What tickets give. -/
inductive Drawn where
  | number (ticket : Nat)
  | name (x : String)
  deriving DecidableEq, Repr

/-- Draws once. -/
def draw : Draw → Tickets → Drawn × Tickets
  | .number, t => (.number t.take.1, t.take.2)
  | .name base, t => (.name (t.freshName base).1, (t.freshName base).2)

/-- Draws again and again. -/
def drawAll : List Draw → Tickets → List Drawn
  | [], _ => []
  | d :: ds, t => (draw d t).1 :: drawAll ds (draw d t).2

/-- The name, if one was drawn. -/
def Drawn.name? : Drawn → Option String
  | .number _ => none
  | .name x => some x

/-- The names among what is drawn. -/
def namesDrawn (ds : List Draw) (t : Tickets) : List String := (drawAll ds t).filterMap Drawn.name?

/-- Every draw uses up the next ticket. -/
theorem next_draw (d : Draw) (t : Tickets) : (draw d t).2.next = t.next + 1 := by
  cases d <;> rfl

/-- A name that is drawn is made of the next ticket. -/
theorem name_of_draw {d : Draw} {t : Tickets} {x : String} (h : (draw d t).1.name? = some x) :
    ∃ base, x = name base t.next := by
  cases d with
  | number => cases h
  | name base => exact ⟨base, (Option.some.inj h).symm⟩

theorem namesDrawn_cons (d : Draw) (ds : List Draw) (t : Tickets) :
    namesDrawn (d :: ds) t = (draw d t).1.name?.toList ++ namesDrawn ds (draw d t).2 := by
  unfold namesDrawn
  rw [drawAll, List.filterMap_cons]
  cases (draw d t).1.name? <;> rfl

variable {ds : List Draw} {t : Tickets} {x : String}

/-- A name that is drawn sooner or later is made of a ticket that is not drawn yet. -/
theorem exists_of_mem_namesDrawn (h : x ∈ namesDrawn ds t) :
    ∃ base n, t.next ≤ n ∧ x = name base n := by
  induction ds generalizing t with
  | nil => exact absurd h List.not_mem_nil
  | cons d ds ih =>
    rw [namesDrawn_cons, List.mem_append, Option.mem_toList] at h
    rcases h with h | h
    · obtain ⟨base, e⟩ := name_of_draw h
      exact ⟨base, t.next, Nat.le_refl _, e⟩
    · obtain ⟨base, n, le, e⟩ := ih h
      rw [next_draw] at le
      exact ⟨base, n, Nat.le_of_succ_le le, e⟩

theorem nodup_namesDrawn (ds : List Draw) (t : Tickets) : (namesDrawn ds t).Nodup := by
  induction ds generalizing t with
  | nil => exact .nil
  | cons d ds ih =>
    rw [namesDrawn_cons]
    cases h : (draw d t).1.name? with
    | none => exact ih _
    | some x =>
      refine List.nodup_cons.2 ⟨fun again => ?_, ih _⟩
      obtain ⟨base, rfl⟩ := name_of_draw h
      obtain ⟨base', n, le, e⟩ := exists_of_mem_namesDrawn again
      rw [next_draw, (name_inj e).2] at le
      exact absurd le (Nat.not_succ_le_self n)

theorem prime_mem_of_mem_namesDrawn (h : x ∈ namesDrawn ds t) : '\'' ∈ x.toList := by
  obtain ⟨base, n, -, rfl⟩ := exists_of_mem_namesDrawn h
  exact prime_mem_name base n

end Tickets

/-! ## 2. What states own -/

namespace SymbolicState

variable {E E' : OrderedSet Formula} {stem stem' x : String} {s s' : SymbolicState}

/-- States are made of the stems that are not empty and hold no underscore. -/
theorem make_eq_ok_iff : make E stem = .ok s ↔
    (stem ≠ "" ∧ '_' ∉ stem.toList) ∧ s.stem = stem ∧ s.elementary = E := by
  unfold make
  constructor
  · intro h
    split at h
    · next valid =>
      cases h
      exact ⟨valid, rfl, rfl⟩
    · cases h
  · rintro ⟨valid, rfl, rfl⟩
    rw [dif_pos valid]

theorem owns_iff : s.owns x = true ↔ x ∈ s.names := List.contains_iff_mem

/-- A name that a state owns is its stem with the place of the name. -/
theorem eq_varName_of_owns (h : s.owns x = true) : x = varName s.stem (s.names.idxOf x) := by
  obtain ⟨i, hi, rfl⟩ := mem_names.1 (owns_iff.1 h)
  have hi' : i < s.names.length := s.length_names ▸ hi
  have place : s.names[i] = varName s.stem i := by simp [names]
  rw [← place, List.Nodup.idxOf_getElem s.nodup_names i hi', place]

/-- What two states own has one stem and one place. -/
theorem same_of_owns (h : s.owns x = true) (h' : s'.owns x = true) :
    s.stem = s'.stem ∧ s.names.idxOf x = s'.names.idxOf x :=
  varName_inj s.stem_valid.2 s'.stem_valid.2
    ((eq_varName_of_owns h).symm.trans (eq_varName_of_owns h'))

end SymbolicState

/-! ## 3. All names -/

open SymbolicState Tickets

/-- **Names that are made do not clash.** Tickets give no name twice and none without a prime, however
    they are asked. A name that two states own has the same stem and the same place in both; it is not
    the constant, and it is not drawn unless the stem holds a prime. -/
theorem names_apart {E E' : OrderedSet Formula} {stem stem' : String} {s s' : SymbolicState}
    (made : make E stem = .ok s) (made' : make E' stem' = .ok s') (ds : List Draw) (t : Tickets) :
    (namesDrawn ds t).Nodup ∧
    (∀ x, '\'' ∉ x.toList → x ∉ namesDrawn ds t) ∧
    ∀ x, s.owns x = true →
      x ≠ Formula.trueName ∧
      ('\'' ∉ stem.toList → x ∉ namesDrawn ds t) ∧
      (s'.owns x = true → stem = stem' ∧ s.names.idxOf x = s'.names.idxOf x) := by
  obtain ⟨-, rfl, -⟩ := make_eq_ok_iff.1 made
  obtain ⟨-, rfl, -⟩ := make_eq_ok_iff.1 made'
  have plain : ∀ x, '\'' ∉ x.toList → x ∉ namesDrawn ds t :=
    fun x hx drawn => hx (prime_mem_of_mem_namesDrawn drawn)
  refine ⟨nodup_namesDrawn ds t, plain, fun x hx => ⟨?_, fun stem => ?_, same_of_owns hx⟩⟩
  · rintro rfl
    exact true_not_mem_names s (owns_iff.1 hx)
  · exact plain x (prime_not_mem_names stem (owns_iff.1 hx))

/-- A state for one formula. -/
def smallState : SymbolicState := ⟨"s", .ofList [.atom "p"], by decide⟩

/-- A state of the same stem for two formulas. -/
def largeState : SymbolicState := ⟨"s", .ofList [.atom "p", .atom "q"], by decide⟩

/-- Names that are drawn are bases of other ones, and two states share a variable. -/
theorem names_apart_fed_back :
    make (.ofList [.atom "p"]) "s" = .ok smallState ∧
    make (.ofList [.atom "p", .atom "q"]) "s" = .ok largeState ∧
    namesDrawn [.name "x", .number, .name "x'1", .name "x'1'3", .name "x"] .start =
      ["x'1", "x'1'3", "x'1'3'4", "x'5"] ∧
    ["x'1", "x'1'3", "x'1'3'4", "x'5"].Nodup ∧
    smallState.owns "s_0" = true ∧ largeState.owns "s_0" = true ∧
    "s_0" ∉ ["x'1", "x'1'3", "x'1'3'4", "x'5"] ∧
    smallState.names.idxOf "s_0" = largeState.names.idxOf "s_0" := by
  have made : make (.ofList [.atom "p"]) "s" = .ok smallState :=
    make_eq_ok_iff.2 ⟨smallState.stem_valid, rfl, rfl⟩
  have made' : make (.ofList [.atom "p", .atom "q"]) "s" = .ok largeState :=
    make_eq_ok_iff.2 ⟨largeState.stem_valid, rfl, rfl⟩
  have drawn : namesDrawn [.name "x", .number, .name "x'1", .name "x'1'3", .name "x"] .start =
      ["x'1", "x'1'3", "x'1'3'4", "x'5"] := by decide +kernel
  have owned : smallState.owns "s_0" = true := by decide +kernel
  have owned' : largeState.owns "s_0" = true := by
    have member : Formula.atom "p" ∈ largeState.elementary := OrderedSet.mem_ofList.2 (by decide)
    exact owns_iff.2 (mem_names.2 ⟨0, List.length_pos_of_mem member, rfl⟩)
  obtain ⟨nodup, -, apart⟩ := names_apart made made'
    [.name "x", .number, .name "x'1", .name "x'1'3", .name "x"] .start
  obtain ⟨-, notDrawn, same⟩ := apart "s_0" owned
  rw [drawn] at nodup notDrawn
  exact ⟨made, made', drawn, nodup, owned, owned', notDrawn (by decide), (same owned').2⟩

end CtlTableau
