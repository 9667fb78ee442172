import CtlTableau.Proofs.Branching
import CtlTableau.Proofs.Simulation

/-!
# No model is pruned away

A state of a Kripke structure is recorded as the tableau state that holds the elementary formulas that
are true there. Records of successors may follow each other, and the record of a state satisfies what
is true at the state (`satisfies_record_iff`). So if all records are in a set, they stay in it when it
is pruned: what a record promises is true at its state, and the paths and subtrees that make it true
are recorded in the set (`record_mem_prune`). No check ever loses a record, and no check reports a
satisfiable formula as unsatisfiable (`satisfiable_of_holds`).
-/

namespace CtlTableau.Tableau

universe u

variable {T : Tableau} {K : Kripke.{u}} {X : Set (State T.elementary)}

/-! ## 1. Records -/

open Classical in
/-- The tableau state of a state of a Kripke structure. -/
noncomputable def record (T : Tableau) (K : Kripke.{u}) (m : K.State) : State T.elementary :=
  fun e => decide (K.Holds e.1 m)

theorem isTrue_record_iff {e : Formula} (h : e ∈ T.elementary) (m : K.State) :
    (T.record K m).IsTrue e ↔ K.Holds e m := by
  rw [State.isTrue_iff h]
  simp [record]

/-- **The record of a state satisfies what is true there.** -/
theorem satisfies_record_iff {g : Formula} (h : T.Decides g) (m : K.State) :
    T.Satisfies (T.record K m) g ↔ K.Holds g m := by
  rw [satisfies_iff h, Formula.holdsBy_congr h.within fun e he => isTrue_record_iff he m]
  exact Kripke.holdsBy_holds_iff h.normal m

theorem follows_record (hT : T.Saturated) {m m' : K.State} (h : K.next m m') :
    T.Follows (T.record K m) (T.record K m') := by
  intro g hg hs hs'
  rw [satisfies_record_iff (hT.next hg)] at hs
  rw [satisfies_record_iff (hT.keeps g hg)] at hs'
  exact hs ⟨m', h, hs'⟩

/-- What a record promises is recorded at a successor. -/
theorem exists_record (hT : T.Saturated) {g : Formula} (hg : .ex g ∈ T.elementary) {m : K.State}
    (h : T.Satisfies (T.record K m) (.ex g)) :
    ∃ m', K.next m m' ∧ T.Satisfies (T.record K m') g := by
  obtain ⟨m', hm', hg'⟩ := (satisfies_record_iff (hT.next hg) m).1 h
  exact ⟨m', hm', (satisfies_record_iff (hT.keeps g hg) m').2 hg'⟩

/-! ## 2. Records stay -/

/-- An "until" that is true on some path is met on a path of records. -/
theorem record_mem_pathStep (hT : T.Saturated) (hX : ∀ m, T.record K m ∈ X) {p q : Formula}
    (hp : T.Decides p) (hq : T.Decides q) {m : K.State} (hm : K.Holds (.eu p q) m) :
    T.record K m ∈ (T.pathStep X p q).lfp := by
  refine Kripke.someUntil_least (Z := fun m => T.record K m ∈ (T.pathStep X p q).lfp)
    (fun m hqm => ?_) (fun m m' hpm hmm' hm' => ?_) hm
  · rw [← OrderHom.map_lfp]
    exact Or.inl ((satisfies_record_iff hq m).2 hqm)
  · rw [← OrderHom.map_lfp]
    exact Or.inr ⟨(satisfies_record_iff hp m).2 hpm, _, hX m', follows_record hT hmm', hm'⟩

/-- An "until" that is true on all paths is met in a tree of records: the nodes find all that they
    promise among their successors. -/
theorem record_mem_treeStep (hT : T.Saturated) (hX : ∀ m, T.record K m ∈ X) {p q : Formula}
    (hp : T.Decides p) (hq : T.Decides q) {m : K.State} (hm : K.Holds (.au p q) m) :
    T.record K m ∈ (T.treeStep X p q).lfp := by
  refine Kripke.everyUntil_least (Z := fun m => T.record K m ∈ (T.treeStep X p q).lfp)
    (fun m hqm => ?_) (fun m hpm hall => ?_) hm
  · rw [← OrderHom.map_lfp]
    exact Or.inl ((satisfies_record_iff hq m).2 hqm)
  · rw [← OrderHom.map_lfp]
    refine Or.inr ⟨(satisfies_record_iff hp m).2 hpm, ?_, fun g hg hs => ?_⟩
    · obtain ⟨m', hm'⟩ := K.total m
      exact ⟨_, hX m', follows_record hT hm', hall m' hm'⟩
    · obtain ⟨m', hm', hg'⟩ := exists_record hT hg hs
      exact ⟨_, hX m', follows_record hT hm', hall m' hm', hg'⟩

/-- **Records stay when a set that holds them all is pruned.** -/
theorem record_mem_prune (hT : T.Saturated) (hX : ∀ m, T.record K m ∈ X) (m : K.State) :
    T.record K m ∈ T.prune X where
  mem := hX m
  succeeded := by
    obtain ⟨m', hm'⟩ := K.total m
    exact ⟨_, hX m', follows_record hT hm'⟩
  promised g hg hs := by
    obtain ⟨m', hm', hg'⟩ := exists_record hT hg hs
    exact ⟨_, hX m', follows_record hT hm', hg'⟩
  met p q hpq hs hsp := by
    obtain ⟨hp, hq⟩ := hT.until hpq
    refine record_mem_pathStep hT hX hp hq (Kripke.someUntil_iff.2 (Or.inr ⟨?_, ?_⟩))
    · exact (satisfies_record_iff hp m).1 hsp
    · exact (satisfies_record_iff (hT.next hpq) m).1 hs
  everywhere p q hpq hs hsp := by
    obtain ⟨hp, hq⟩ := hT.release hpq
    have hau := (hp.normal.er hq.normal).isTemporal
    rw [satisfies_record_iff (hT.next hpq)] at hs
    rw [satisfies_record_iff hp] at hsp
    refine record_mem_treeStep hT hX hp.negate hq.negate (Kripke.everyUntil_iff.2 (Or.inr ⟨?_, ?_⟩))
    · exact (Kripke.holds_negate_iff hp.normal.isTemporal m).2 hsp
    · intro m' hm'
      exact (Kripke.holds_negate_iff hau m').2 fun h => hs ⟨m', hm', h⟩

/-- No number of rounds removes a record. -/
theorem record_mem_iterate (hT : T.Saturated) (K : Kripke.{u}) (n : Nat) (m : K.State) :
    T.record K m ∈ T.prune^[n] Set.univ := by
  induction n generalizing m with
  | zero => exact Set.mem_univ _
  | succ n ih =>
    rw [Function.iterate_succ_apply']
    exact record_mem_prune hT ih m

/-! ## 3. Verdicts -/

/-- **A formula that is true somewhere is reported satisfiable.** If the formula is true at a state of
    some Kripke structure, then it has a tableau; at the start of every round of a check the formula
    for the states that are left is true of all records; and no report says anything else than that
    the formula is satisfiable. -/
theorem satisfiable_of_holds {f : Formula} (hf : f.isTemporal = true) {K : Kripke.{u}} {m : K.State}
    (hm : K.Holds f m) :
    ∃ T, ofFormula f = .ok T ∧ ∀ {σ : Type} (engine : Engine σ), engine.Sound →
      ∀ rounds (s : Session σ),
        (∀ report s', (T.checkWithin engine rounds).run.run s = (.ok report, s') →
          report.satisfiable = true) ∧
        ∀ n states s', T.After engine rounds s n states s' → ∀ (m' : K.State) ρ,
          states.eval (T.current.write ρ (T.record K m')) = true := by
  obtain ⟨T, hT, hn, hsat⟩ := exists_ofFormula hf
  refine ⟨T, hT, fun {σ} engine he rounds s => ⟨fun report s' h => ?_, fun n states s' h m' ρ => ?_⟩⟩
  · refine (reports_of_ok he hsat h).satisfiable_iff.2 ⟨_, record_mem_iterate hsat K _ m, ?_⟩
    rw [satisfies_record_iff hsat.decides, hn]
    exact (Kripke.holds_normalize_iff hf m).2 hm
  · exact ((after_describes he hsat h).1.eval_write ρ _).2 (record_mem_iterate hsat K n m')

/-- One state, at which every name is true, and which follows itself. -/
def loop : Kripke.{0} where
  State := Unit
  next _ _ := True
  total m := ⟨m, trivial⟩
  label _ _ := True

/-- The loop makes the formula of the instance true, so its check never says that it is not
    satisfiable. -/
theorem satisfiable_atLast : loop.Holds atLast () ∧ ∀ rounds report s',
    (atLastTableau.checkWithin Engine.oracle rounds).run.run { engine := () } = (.ok report, s') →
      report.satisfiable = true := by
  have hm : loop.Holds atLast () := fun _ _ => ⟨0, Or.inr trivial⟩
  obtain ⟨T, hT, h⟩ := satisfiable_of_holds (f := atLast) rfl hm
  rw [ofFormula_atLast] at hT
  cases hT
  exact ⟨hm, fun rounds => (h Engine.oracle Engine.complete_oracle.toSound rounds _).1⟩

end CtlTableau.Tableau
