import CtlTableau.Proofs.Rounds
import Mathlib.Algebra.BigOperators.Intervals

/-!
# What a check comes to

The rounds of a check and the check itself, as dialogues, whatever the answers. With true answers the
report is known (`TrueReport`): the rounds stop at the first that removes nothing, and the questions
are counted by how often the sets of the "until" formulas grow in each round.

Main statements: `Dialogue.ensures_refine` and `Dialogue.ensures_check`.
-/

namespace CtlTableau.Tableau

open Run SymbolicState

variable (T : Tableau)

/-! ## 1. The report of a check with true answers -/

/-- The rounds before the one that removes nothing. -/
noncomputable def removals : Nat := sInf {n | T.prune^[n] Set.univ ⊆ T.prune^[n + 1] Set.univ}

/-- The questions of a check: every loop of every round asks once for each time its set grows and
    once more, every round asks whether it removed a state, and the check asks whether a state of the
    formula is left. -/
noncomputable def questions : Nat :=
  (∑ n ∈ Finset.range (T.removals + 1), (T.effort (T.prune^[n] Set.univ) + T.loops + 1)) + 1

/-- The report says what a check with true answers finds. -/
structure TrueReport (report : Report) : Prop where
  satisfiable_iff : report.satisfiable = true ↔
    ∃ t ∈ T.prune^[T.removals + 1] Set.univ, T.Satisfies t T.normalized
  iterations : report.iterations = T.removals + 1
  queries : report.queries = T.questions

variable {T}

namespace Dialogue

variable {truth sure : Prop} {c c' : Stage} {rounds : Nat} {states : Formula}

/-! ## 2. The rounds -/

/-- The round after so many others. -/
theorem ensures_nextRound (hT : T.Saturated) (enough : sure → truth ∧ T.roundBound ≤ rounds)
    {n : Nat} (hstates : Stands T truth c.drawn states (T.prune^[n] Set.univ)) (number : Nat) :
    (round T rounds T.current number states).Ensures T truth sure c fun res c' =>
      c.Takes truth c' (T.effort (T.prune^[n] Set.univ) + res.2.toNat)
        (T.loops + (!res.2).toNat) ∧
      Stands T truth c'.drawn res.1 (T.prune^[n + 1] Set.univ) ∧
      (truth → (res.2 = true ↔ ¬ T.prune^[n] Set.univ ⊆ T.prune^[n + 1] Set.univ)) := by
  obtain ⟨Z, dZ, eZ⟩ := hstates.exists_describes
  rw [Function.iterate_succ_apply' T.prune]
  refine (ensures_round hT enough dZ number).mono fun res c' ⟨h, hrest, hremoved⟩ => ⟨?_, ?_, ?_⟩
  · exact h.congr fun ht => by rw [eZ ht]
  · exact ⟨hrest.speaks, fun ht => eZ ht ▸ hrest.describes ht⟩
  · exact fun ht => eZ ht ▸ hremoved ht

/-- **The rounds of a check stop at the first that removes nothing**, if the answers are true. -/
theorem ensures_refine (hT : T.Saturated) (enough : sure → truth ∧ T.roundBound ≤ rounds)
    {fuel n : Nat}
    (hc : c.Takes truth c' ((∑ i ∈ Finset.range n, T.effort (T.prune^[i] Set.univ)) + n)
      (n * T.loops))
    (hstates : Stands T truth c'.drawn states (T.prune^[n] Set.univ))
    (shrank : truth → ∀ i < n, ¬ T.prune^[i] Set.univ ⊆ T.prune^[i + 1] Set.univ)
    (more : sure → truth ∧ T.roundBound ≤ fuel + n) :
    (refine T rounds T.current fuel n states).Ensures T truth sure c' fun res c'' =>
      ∃ m, res.2 = m + 1 ∧
        c.Takes truth c'' ((∑ i ∈ Finset.range (m + 1), T.effort (T.prune^[i] Set.univ)) + m)
          ((m + 1) * T.loops + 1) ∧
        Stands T truth c''.drawn res.1 (T.prune^[m + 1] Set.univ) ∧ (truth → m = T.removals) := by
  induction fuel generalizing n states c' with
  | zero =>
    refine ⟨rfl, fun hs => ?_⟩
    obtain ⟨ht, hr⟩ := more hs
    have := T.lt_roundBound (le_card_of_shrinks T.prune_subset (shrank ht))
    omega
  | succ fuel ih =>
    rw [refine]
    refine (ensures_nextRound hT enough hstates (n + 1)).bind
      fun res c1 h => ?_
    obtain ⟨rest, removed⟩ := res
    obtain ⟨h1, hrest, removes⟩ := h
    dsimp only at h1 hrest removes ⊢
    have taken := hc.trans h1
    have sum := Finset.sum_range_succ (fun i => T.effort (T.prune^[i] Set.univ)) n
    cases removed with
    | true =>
      rw [if_pos rfl]
      refine ih ⟨taken.drawn, fun ht => ?_, ?_⟩ hrest (fun ht i hi => ?_) fun hs => ?_
      · rw [taken.yes ht, sum]
        simp only [Bool.toNat_true]
        omega
      · rw [taken.no, Nat.succ_mul]
        rfl
      · rcases Nat.lt_succ_iff_lt_or_eq.1 hi with hi | rfl
        · exact shrank ht i hi
        · exact (removes ht).1 rfl
      · obtain ⟨ht, hr⟩ := more hs
        exact ⟨ht, by omega⟩
    | false =>
      rw [if_neg Bool.false_ne_true]
      refine ⟨n, rfl, ⟨taken.drawn, fun ht => ?_, ?_⟩, hrest, fun ht => ?_⟩
      · rw [taken.yes ht, sum]
        simp only [Bool.toNat_false]
        omega
      · rw [taken.no, Nat.succ_mul]
        simp only [Bool.not_false, Bool.toNat_true]
        omega
      · refine (IsLeast.csInf_eq ⟨?_, fun i hi => ?_⟩).symm
        · by_contra h
          cases (removes ht).2 h
        · by_contra hlt
          exact shrank ht i (Nat.lt_of_not_le hlt) hi

/-! ## 3. The check -/

/-- **A check finds no fault of its own, and reports the truth if the answers are true.** -/
theorem ensures_check (hT : T.Saturated) (enough : sure → truth ∧ T.roundBound ≤ rounds) :
    (check T rounds).Ensures T truth sure { drawn := Tickets.start.next } fun report _ =>
      truth → T.TrueReport report := by
  refine ensures_attempt T.make_stateStem ?_
  have start : Stands T truth Tickets.start.next .truth (T.prune^[0] Set.univ) :=
    ⟨describes_truth.speaks, fun _ => describes_truth⟩
  refine (ensures_refine hT enough (n := 0) (c := { drawn := Tickets.start.next })
    (by simpa using Stage.Takes.refl _) start (fun _ i hi => absurd hi (Nat.not_lt_zero i))
    enough).bind fun (states, iterations) c1 ⟨m, hm, h1, hstates, e⟩ => ?_
  obtain rfl : iterations = m + 1 := hm
  obtain ⟨Z, dZ, eZ⟩ := hstates.exists_describes
  refine ensures_value hT.decides fun value dvalue => ?_
  have both : T.current.Describes c1.drawn (.and states value)
      {t | t ∈ Z ∧ T.Satisfies t T.normalized} := dZ.and (dvalue c1.drawn)
  refine ensures_inquire both fun satisfiable hs n hn elapsed ht => ⟨?_, ?_, ?_⟩
  · rw [hs ht, ← e ht, ← eZ ht]
    exact Iff.rfl
  · rw [← e ht]
  · have taken := h1.trans (Stage.takes_answered hn satisfiable)
    show (c1.answered n satisfiable).yes + (c1.answered n satisfiable).no = _
    rw [taken.yes ht, taken.no, questions, ← e ht, Finset.sum_add_distrib, Finset.sum_add_distrib]
    cases satisfiable <;> simp <;> omega

end Dialogue

end CtlTableau.Tableau
