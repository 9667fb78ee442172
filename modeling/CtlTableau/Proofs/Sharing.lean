import CtlTableau.Proofs.Encoding
import CtlTableau.Proofs.Matrices
import Mathlib.Data.Int.CharZero

/-!
# Equal subformulas share a label

Naming the gates of a formula gives every compound subformula a label, and equal ones the same:
whatever the formulas that were named before, the labels are a list of formulas without repetitions,
in which a formula stands where its gate stands in the definitions (`Definitions.Labels`). A gate is
found again exactly if its formula is labelled, since the arguments are told by their numbers
(`Known.id_inj`); so one step of naming labels one formula, or none if it has its label
(`Definitions.Labels.name`), and a run labels the compound subformulas and no others
(`exists_labels`).
-/

namespace CtlTableau

open Definitions

namespace Formula

/-! ## 1. Subformulas -/

/-- The formulas right below the root. -/
def arguments : Formula → List Formula
  | .atom _ => []
  | .unary _ p => [p]
  | .binary _ p q => [p, q]
  | .quant _ _ p => [p]

/-- What passes from the arguments to the formula over them holds of all formulas. -/
theorem induction_on_arguments {P : Formula → Prop}
    (step : ∀ f, (∀ a ∈ f.arguments, P a) → P f) (f : Formula) : P f := by
  induction f with
  | atom x => exact step _ fun _ ha => absurd ha List.not_mem_nil
  | unary op p ih => exact step _ (List.forall_mem_singleton.2 ih)
  | binary op p q ihp ihq =>
    exact step _ (List.forall_mem_cons.2 ⟨ihp, List.forall_mem_singleton.2 ihq⟩)
  | quant k x p ih => exact step _ (List.forall_mem_singleton.2 ih)

theorem mem_preorder {f g : Formula} :
    g ∈ f.preorder ↔ g = f ∨ ∃ a ∈ f.arguments, g ∈ a.preorder := by
  cases f <;> simp [preorder, arguments]

/-- Every subformula but the whole is an argument of another. -/
theorem eq_or_mem_arguments {f a : Formula} (ha : a ∈ f.preorder) :
    a = f ∨ ∃ g ∈ f.preorder, a ∈ g.arguments := by
  induction f using induction_on_arguments with
  | step f ih =>
    refine (mem_preorder.1 ha).imp_right fun ⟨b, hb, ha⟩ => ?_
    rcases ih b hb ha with rfl | ⟨g, hg, hag⟩
    · exact ⟨f, mem_preorder_self f, hb⟩
    · exact ⟨g, mem_preorder.2 (.inr ⟨b, hb, hg⟩), hag⟩

/-- The names of the atoms of a propositional formula are all its names. -/
theorem atom_mem_preorder {f : Formula} (h : f.isPropositional = true) {x : String} :
    .atom x ∈ f.preorder ↔ x ∈ f.names := by
  induction f with
  | atom y => simp [preorder, names]
  | unary op p ih =>
    have hp := (Bool.and_eq_true_iff.1 h).2
    simp [preorder, names, ih hp]
  | binary op p q ihp ihq =>
    obtain ⟨hp, hq⟩ := Bool.and_eq_true_iff.1 (Bool.and_eq_true_iff.1 h).2
    simp [preorder, names, ihp hp, ihq hq]
  | quant k x p => cases h

/-! ## 2. Gates of formulas -/

variable {num num' : Formula → Nat} {g g' a b : Formula} {gate : Gate}

/-- The gate of a compound formula over the numbers of its arguments. -/
def gate? (num : Formula → Nat) : Formula → Option Gate
  | .unary .not p => some (.not (num p))
  | .binary .and p q => some (.and (num p) (num q))
  | .binary .or p q => some (.or (num p) (num q))
  | _ => none

theorem gate?_eq_some : g.gate? num = some gate ↔
    (∃ p, g = .not p ∧ gate = .not (num p)) ∨
      (∃ p q, g = .and p q ∧ gate = .and (num p) (num q)) ∨
      ∃ p q, g = .or p q ∧ gate = .or (num p) (num q) := by
  cases g with
  | unary op p => cases op <;> simp [gate?, eq_comm]
  | binary op p q => cases op <;> simp [gate?, eq_comm]
  | _ => simp [gate?]

theorem isAtom_of_gate? (h : g.gate? num = some gate) : g.isAtom = false := by
  obtain ⟨p, rfl, -⟩ | ⟨p, q, rfl, -⟩ | ⟨p, q, rfl, -⟩ := gate?_eq_some.1 h <;> rfl

theorem operands_of_gate? (h : g.gate? num = some gate) :
    gate.operands = g.arguments.map fun a => (num a : Int) := by
  obtain ⟨p, rfl, rfl⟩ | ⟨p, q, rfl, rfl⟩ | ⟨p, q, rfl, rfl⟩ := gate?_eq_some.1 h <;> rfl

/-- The gate depends on the numbers of the arguments. -/
theorem gate?_congr (h : ∀ a ∈ g.arguments, num a = num' a) : g.gate? num = g.gate? num' := by
  cases g with
  | unary op p =>
    have hp := h p List.mem_cons_self
    cases op <;> simp [gate?, hp]
  | binary op p q =>
    have hp := h p List.mem_cons_self
    have hq := h q (List.mem_cons_of_mem _ List.mem_cons_self)
    cases op <;> simp [gate?, hp, hq]
  | _ => rfl

/-- Where numbers tell the arguments apart, gates tell the formulas apart. -/
theorem eq_of_gate? (h : g.gate? num = some gate) (h' : g'.gate? num = some gate)
    (inj : ∀ a ∈ g.arguments, ∀ b ∈ g'.arguments, num a = num b → a = b) : g = g' := by
  obtain ⟨p, rfl, rfl⟩ | ⟨p, q, rfl, rfl⟩ | ⟨p, q, rfl, rfl⟩ := gate?_eq_some.1 h <;>
    obtain ⟨p', rfl, e⟩ | ⟨p', q', rfl, e⟩ | ⟨p', q', rfl, e⟩ := gate?_eq_some.1 h' <;>
    simp_all [arguments]

/-! ## 3. Numbers of formulas -/

/-- The numbers of names, from one up to an offset. -/
structure Numbers (names : List String) (offset : Nat) (idOf : String → Nat) : Prop where
  positive : ∀ x ∈ names, 1 ≤ idOf x
  bounded : ∀ x ∈ names, idOf x ≤ offset
  injective : ∀ x ∈ names, ∀ y ∈ names, idOf x = idOf y → x = y

/-- The number of a formula, if the labels are counted after the names. -/
def number (offset : Nat) (idOf : String → Nat) (labels : List Formula) : Formula → Nat
  | .atom x => idOf x
  | g => offset + labels.idxOf g + 1

/-- A formula that has a number: a name, or a compound formula with a label. -/
inductive Known (names : List String) (labels : List Formula) : Formula → Prop where
  | name {x : String} (hx : x ∈ names) : Known names labels (.atom x)
  | label {g : Formula} (hg : g ∈ labels) (compound : g.isAtom = false) : Known names labels g

variable {names : List String} {offset : Nat} {idOf : String → Nat} {labels more : List Formula}

theorem number_compound (compound : g.isAtom = false) :
    number offset idOf labels g = offset + labels.idxOf g + 1 := by
  cases g with
  | atom x => cases compound
  | _ => rfl

namespace Known

theorem append (h : Known names labels g) : Known names (labels ++ more) g := by
  cases h with
  | name hx => exact .name hx
  | label hg compound => exact .label (List.mem_append_left _ hg) compound

/-- More labels do not change the numbers. -/
theorem number_append (h : Known names labels g) :
    number offset idOf (labels ++ more) g = number offset idOf labels g := by
  cases h with
  | name hx => rfl
  | label hg compound =>
    rw [number_compound compound, number_compound compound, List.idxOf_append_of_mem hg]

theorem number_le (hn : Numbers names offset idOf) (h : Known names labels g) :
    1 ≤ number offset idOf labels g ∧ number offset idOf labels g ≤ offset + labels.length := by
  cases h with
  | name hx => exact ⟨hn.positive _ hx, Nat.le_trans (hn.bounded _ hx) (Nat.le_add_right _ _)⟩
  | label hg compound =>
    have place := List.idxOf_lt_length_of_mem hg
    rw [number_compound compound]
    omega

/-- **Numbers tell formulas apart.** -/
theorem number_inj (hn : Numbers names offset idOf) (ha : Known names labels a)
    (hb : Known names labels b)
    (e : number offset idOf labels a = number offset idOf labels b) : a = b := by
  cases ha with
  | name hx =>
    cases hb with
    | name hy => exact congrArg _ (hn.injective _ hx _ hy e)
    | label hb compound =>
      rw [number_compound compound] at e
      have le := hn.bounded _ hx
      simp only [number] at e
      omega
  | label ha compound =>
    rw [number_compound compound] at e
    cases hb with
    | name hy =>
      have le := hn.bounded _ hy
      simp only [number] at e
      omega
    | label hb compound' =>
      rw [number_compound compound'] at e
      exact (List.idxOf_inj ha).1 (by omega)

end Known

/-! ## 4. Labels -/

/-- The definitions are the gates of these formulas, one for each, over numbered names and over
    formulas that have a label too. -/
structure Labels (names : List String) (offset : Nat) (idOf : String → Nat) (d : Definitions)
    (labels : List Formula) : Prop where
  proper : d.Proper
  offset_eq : d.offset = offset
  numbers : Numbers names offset idOf
  gates : labels.map (gate? (number offset idOf labels)) = d.gates.toList.map some
  nodup : labels.Nodup
  known : ∀ g ∈ labels, ∀ a ∈ g.arguments, Known names labels a

theorem labels_empty (hn : Numbers names offset idOf) :
    Labels names offset idOf (.empty offset) [] where
  proper := proper_empty offset
  offset_eq := rfl
  numbers := hn
  gates := rfl
  nodup := .nil
  known _ hg := absurd hg List.not_mem_nil

namespace Labels

variable {d : Definitions} {place : Nat}

theorem length_eq (h : Labels names offset idOf d labels) : labels.length = d.gates.size := by
  have same := congrArg List.length h.gates
  rwa [List.length_map, List.length_map, Array.length_toList] at same

/-- The gate at a place is that of the formula there. -/
theorem getElem?_gates (h : Labels names offset idOf d labels) : d.gates[place]? = some gate ↔
    ∃ g, labels[place]? = some g ∧ g.gate? (number offset idOf labels) = some gate := by
  have same := congrArg (·[place]?) h.gates
  simp only [List.getElem?_map, Array.getElem?_toList] at same
  cases hl : labels[place]? <;> cases hd : d.gates[place]? <;> simp_all

theorem exists_gate (h : Labels names offset idOf d labels) (hg : g ∈ labels) :
    ∃ gate, g.gate? (number offset idOf labels) = some gate := by
  have mem := List.mem_map_of_mem (f := gate? (number offset idOf labels)) hg
  rw [h.gates, List.mem_map] at mem
  obtain ⟨gate, -, e⟩ := mem
  exact ⟨gate, e.symm⟩

theorem isAtom (h : Labels names offset idOf d labels) (hg : g ∈ labels) : g.isAtom = false :=
  isAtom_of_gate? (h.exists_gate hg).choose_spec

/-- Where a formula stands is its number. -/
theorem nameAt_eq (h : Labels names offset idOf d labels) (hg : labels[place]? = some g) :
    d.nameAt place = number offset idOf labels g := by
  obtain ⟨hlt, rfl⟩ := List.getElem?_eq_some_iff.1 hg
  rw [number_compound (h.isAtom (List.getElem_mem hlt)), h.nodup.idxOf_getElem place hlt, nameAt,
    h.offset_eq]

/-- Formulas that have a number are labelled where their gate is defined. -/
theorem getElem?_of_gate (h : Labels names offset idOf d labels)
    (hg : ∀ a ∈ g.arguments, Known names labels a)
    (hgate : g.gate? (number offset idOf labels) = some gate)
    (hplace : d.gates[place]? = some gate) : labels[place]? = some g := by
  obtain ⟨g', hg', hgate'⟩ := h.getElem?_gates.1 hplace
  rw [hg', eq_of_gate? hgate hgate' fun a ha b hb =>
    (hg a ha).number_inj h.numbers (h.known g' (List.mem_of_getElem? hg') b hb)]

/-- **Naming a gate labels its formula**, unless it has a label. -/
theorem name (h : Labels names offset idOf d labels)
    (hg : ∀ a ∈ g.arguments, Known names labels a)
    (hgate : g.gate? (number offset idOf labels) = some gate) :
    ∃ more, Labels names offset idOf (d.name gate).2 (labels ++ more) ∧
      (d.name gate).1 = number offset idOf (labels ++ more) g ∧
      ∀ x, x ∈ labels ++ more ↔ x ∈ labels ∨ x = g := by
  have named : ∀ a ∈ gate.operands, Names d.offset d.gates.size a := by
    intro a ha
    rw [operands_of_gate? hgate, List.mem_map] at ha
    obtain ⟨b, hb, rfl⟩ := ha
    have bounds := (hg b hb).number_le h.numbers
    rw [Names, ← h.length_eq, h.offset_eq]
    omega
  have proper := (proper_name h.proper named).1
  unfold Definitions.name at proper ⊢
  cases found : d.index[gate]? with
  | some place =>
    have hplace := h.getElem?_of_gate hg hgate ((h.proper.indexed gate place).1 found)
    refine ⟨[], ?_⟩
    rw [List.append_nil]
    refine ⟨h, h.nameAt_eq hplace, fun x => (or_iff_left_of_imp ?_).symm⟩
    rintro rfl
    exact List.mem_of_getElem? hplace
  | none =>
    have new : g ∉ labels := by
      intro hmem
      obtain ⟨place, hplace⟩ := List.getElem?_of_mem hmem
      have old := (h.proper.indexed gate place).2 (h.getElem?_gates.2 ⟨g, hplace, hgate⟩)
      rw [found] at old
      cases old
    have same : ∀ x : Formula, (∀ a ∈ x.arguments, Known names labels a) →
        x.gate? (number offset idOf (labels ++ [g])) =
          x.gate? (number offset idOf labels) := fun x hx =>
      gate?_congr fun a ha => (hx a ha).number_append
    rw [found] at proper
    refine ⟨[g], ⟨proper, h.offset_eq, h.numbers, ?_, ?_, ?_⟩, ?_, fun x => by simp⟩
    · rw [List.map_append, List.map_congr_left fun x hx => same x (h.known x hx), h.gates]
      simp [same g hg, hgate]
    · exact List.nodup_append.2 ⟨h.nodup, List.nodup_singleton g, fun x hx y hy e => by
        rw [e, List.mem_singleton.1 hy] at hx
        exact new hx⟩
    · intro x hx a ha
      rcases List.mem_append.1 hx with hx | hx
      · exact (h.known x hx a ha).append
      · cases List.mem_singleton.1 hx
        exact (hg a ha).append
    · rw [number_compound (isAtom_of_gate? hgate), List.idxOf_append_of_notMem new]
      simp [nameAt, h.length_eq, h.offset_eq]

end Labels

/-! ## 5. Naming a formula -/

theorem circuit_unary {op : UnaryOp} {p : Formula} {c : Circuit}
    (h : (unary op p).circuit idOf = .ok c) :
    op = .not ∧ ∃ c', p.circuit idOf = .ok c' ∧ c = .not c' := by
  rw [circuit] at h
  split at h
  · next e =>
    cases hp : p.circuit idOf with
    | error e => rw [hp] at h; cases h
    | ok c' =>
      rw [hp] at h
      cases h
      exact ⟨e, c', rfl, rfl⟩
  · cases h

theorem circuit_binary {op : BinaryOp} {p q : Formula} {c : Circuit}
    (h : (binary op p q).circuit idOf = .ok c) :
    ∃ c' c'', p.circuit idOf = .ok c' ∧ q.circuit idOf = .ok c'' ∧
      (op = .and ∧ c = .and c' c'' ∨ op = .or ∧ c = .or c' c'') := by
  rw [circuit] at h
  split at h
  · next hop =>
    cases hp : p.circuit idOf with
    | error e => rw [hp] at h; cases h
    | ok c' =>
      cases hq : q.circuit idOf with
      | error e => rw [hp, hq] at h; cases h
      | ok c'' =>
        rw [hp, hq] at h
        cases h
        refine ⟨c', c'', rfl, rfl, hop.imp (fun e => ⟨e, if_pos e⟩) fun e => ⟨e, ?_⟩⟩
        rw [e]
        rfl
  · cases h

/-- What naming the gates of a formula comes to: more labels, and the number of the formula. -/
structure Labelled (names : List String) (offset : Nat) (idOf : String → Nat)
    (labels : List Formula) (f : Formula) (r : Int × Definitions) (labels' : List Formula) :
    Prop where
  grows : labels <+: labels'
  sound : Labels names offset idOf r.2 labels'
  literal : r.1 = number offset idOf labels' f
  mem : ∀ g, g ∈ labels' ↔ g ∈ labels ∨ g ∈ f.preorder ∧ g.isAtom = false

namespace Labelled

variable {d : Definitions} {labels' : List Formula} {f : Formula} {r : Int × Definitions}

theorem known (h : Labelled names offset idOf labels f r labels') (hf : ∀ x ∈ f.names, x ∈ names) :
    Known names labels' f := by
  cases hatom : f.isAtom with
  | true =>
    cases f with
    | atom x => exact .name (hf x (List.mem_singleton_self x))
    | _ => cases hatom
  | false => exact .label ((h.mem f).2 (.inr ⟨mem_preorder_self f, hatom⟩)) hatom

/-- The last step of naming: the gate over arguments that have been named. -/
theorem name (h : Labels names offset idOf d labels') (hext : labels <+: labels')
    (hg : ∀ a ∈ g.arguments, Known names labels' a)
    (hgate : g.gate? (number offset idOf labels') = some gate)
    (hmem : ∀ x, x ∈ labels' ↔
      x ∈ labels ∨ ∃ a ∈ g.arguments, x ∈ a.preorder ∧ x.isAtom = false) :
    ∃ labels'', Labelled names offset idOf labels g (d.name gate) labels'' := by
  obtain ⟨more, sound, literal, hmore⟩ := h.name hg hgate
  refine ⟨labels' ++ more, hext.trans (List.prefix_append _ _), sound, literal, fun x => ?_⟩
  rw [hmore, hmem, mem_preorder, or_and_right, or_assoc]
  refine or_congr_right ?_
  constructor
  · rintro (⟨a, ha, hx⟩ | rfl)
    · exact .inr ⟨⟨a, ha, hx.1⟩, hx.2⟩
    · exact .inl ⟨rfl, isAtom_of_gate? hgate⟩
  · rintro (⟨rfl, -⟩ | ⟨⟨a, ha, hx⟩, hatom⟩)
    · exact .inr rfl
    · exact .inl ⟨a, ha, hx, hatom⟩

end Labelled

/-- **A formula and its compound subformulas get a label, and nothing else does.** -/
theorem exists_labels {f : Formula} {c : Circuit} {d : Definitions}
    (hc : f.circuit idOf = .ok c) (hf : ∀ x ∈ f.names, x ∈ names)
    (h : Labels names offset idOf d labels) :
    ∃ labels', Labelled names offset idOf labels f (c.define d) labels' := by
  induction f generalizing c d labels with
  | atom x =>
    cases hc
    refine ⟨labels, List.prefix_rfl, h, rfl, fun g => (or_iff_left ?_).symm⟩
    rintro ⟨hg, compound⟩
    cases List.mem_singleton.1 hg
    cases compound
  | unary op p ih =>
    obtain ⟨rfl, c', hp, rfl⟩ := circuit_unary hc
    obtain ⟨labels', h'⟩ := ih hp hf h
    refine Labelled.name h'.sound h'.grows ?_ ?_ fun x => ?_
    · exact List.forall_mem_singleton.2 (h'.known hf)
    · rw [gate?, h'.literal]
    · simp [arguments, h'.mem]
  | binary op p q ihp ihq =>
    obtain ⟨c', c'', hp, hq, connective⟩ := circuit_binary hc
    have hfp : ∀ x ∈ p.names, x ∈ names := fun x hx => hf x (List.mem_append_left _ hx)
    have hfq : ∀ x ∈ q.names, x ∈ names := fun x hx => hf x (List.mem_append_right _ hx)
    obtain ⟨labels', h'⟩ := ihp hp hfp h
    obtain ⟨labels'', h''⟩ := ihq hq hfq h'.sound
    obtain ⟨more, e⟩ := h''.grows
    -- the number of the left argument is still the one under which it was named
    have known : Known names labels'' p := e ▸ (h'.known hfp).append
    have left : (c'.define d).1 = number offset idOf labels'' p := by
      rw [h'.literal, ← e, (h'.known hfp).number_append]
    have last : ∀ gate, (binary op p q).gate? (number offset idOf labels'') = some gate →
        ∃ l, Labelled names offset idOf labels (binary op p q)
          ((c''.define (c'.define d).2).2.name gate) l := by
      intro gate hgate
      refine Labelled.name h''.sound (h'.grows.trans h''.grows) ?_ hgate fun x => ?_
      · exact List.forall_mem_cons.2 ⟨known, List.forall_mem_singleton.2 (h''.known hfq)⟩
      · simp [arguments, h'.mem, h''.mem, or_assoc]
    obtain ⟨rfl, rfl⟩ | ⟨rfl, rfl⟩ := connective
    · exact last _ (by rw [gate?, left, h''.literal])
    · exact last _ (by rw [gate?, left, h''.literal])
  | quant k x p => cases hc

/-! ## 6. Defining clauses -/

/-- The clauses that tie the number of a compound formula to its value. -/
def definition (num : Formula → Nat) (g : Formula) : List (List Int) :=
  (g.gate? num).elim [] (Gate.clauses (num g))

/-- The clauses of the definitions are those of the labelled formulas. -/
theorem Labels.mem_clauses {d : Definitions} (h : Labels names offset idOf d labels) {c : List Int} :
    c ∈ d.clauses ↔ ∃ g ∈ labels, c ∈ g.definition (number offset idOf labels) := by
  rw [Definitions.mem_clauses]
  constructor
  · rintro ⟨place, gate, hplace, hc⟩
    obtain ⟨g, hg, hgate⟩ := h.getElem?_gates.1 hplace
    refine ⟨g, List.mem_of_getElem? hg, ?_⟩
    rwa [definition, hgate, Option.elim_some, ← h.nameAt_eq hg]
  · rintro ⟨g, hg, hc⟩
    obtain ⟨place, hplace⟩ := List.getElem?_of_mem hg
    obtain ⟨gate, hgate⟩ := h.exists_gate hg
    refine ⟨place, gate, h.getElem?_gates.2 ⟨g, hplace, hgate⟩, ?_⟩
    rwa [definition, hgate, Option.elim_some, ← h.nameAt_eq hplace] at hc

end Formula

end CtlTableau
