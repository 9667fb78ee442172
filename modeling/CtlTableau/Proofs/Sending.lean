import CtlTableau.CommandLine
import CtlTableau.Proofs.Calls
import CtlTableau.Proofs.Exchanges
import CtlTableau.Proofs.Faultless

/-!
# What a check sends to a solver

With an engine that runs a solver, a check writes the text of every question that it asks, and nothing
else: the notes of the check itself are about other things (`Quiet`), and the engine makes one query
of every question. So the engine has counted and kept the queries that the records tell of
(`Ensures.sends`). That is one query at least, unless the check was called off before or had no
rounds, as it does not come to its end, nor to a fault, before it asks (`Course.asks`).

Main statement: `check_sends`.
-/

namespace CtlTableau.Tableau

open Solver CommandLine Run

/-! ## 1. The queries that a session tells of -/

theorem queriesOf_push (log : Array Record) (r : Record) :
    queriesOf (log.push r) = queriesOf log ++ (writtenQuery? r).toList := by
  unfold queriesOf
  rw [Array.toList_push, List.filterMap_append]
  cases h : writtenQuery? r <;> simp [h]

theorem queriesOf_append (log : Array Record) (rs : List Record) :
    queriesOf (log ++ rs) = queriesOf log ++ rs.filterMap writtenQuery? := by
  unfold queriesOf
  rw [Array.toList_appendList, List.filterMap_append]

/-- Between the sessions these queries were written, and the engine counted and kept them. -/
structure Sends (config : Config) (s s' : Session External) (texts : List String) : Prop where
  told : queriesOf s'.log = queriesOf s.log ++ texts
  kept : ∃ clock, s'.engine = (s.engine.fileAll config texts).atTime clock

namespace Sends

variable {config : Config} {s s' s'' : Session External} {texts texts' : List String}

theorem refl (s : Session External) : Sends config s s [] where
  told := (List.append_nil _).symm
  kept := ⟨s.engine.clock, rfl⟩

/-- A session that differs in other things. -/
theorem congr (h : Sends config s' s'' texts) (log : queriesOf s'.log = queriesOf s.log)
    (engine : s'.engine = s.engine) : Sends config s s'' texts where
  told := log ▸ h.told
  kept := engine ▸ h.kept

theorem trans (h : Sends config s s' texts) (h' : Sends config s' s'' texts') :
    Sends config s s'' (texts ++ texts') where
  told := by rw [h'.told, h.told, List.append_assoc]
  kept := by
    obtain ⟨clock, e⟩ := h.kept
    obtain ⟨clock', e'⟩ := h'.kept
    refine ⟨clock', ?_⟩
    rw [e', e, Call.fileAll_atTime, External.fileAll, External.fileAll, External.fileAll,
      List.foldl_append]
    rfl

end Sends

/-! ## 2. The engine writes one query for a question -/

variable {setting : Setting} {T : Tableau} {s s' : Session External} {f : Formula}

theorem solve_writes (writable : setting.config.dumpDir.bind setting.dirRefusal = none)
    (form : ClauseForm) (e : External) :
    (External.solve setting form false e).log.filterMap writtenQuery? = [form.qdimacs] ∧
    ∃ clock, (External.solve setting form false e).engine =
      (e.fileAll setting.config [form.qdimacs]).atTime clock := by
  unfold External.solve External.attend
  simp only [writable]
  cases setting.start (e.count.file setting.config form.qdimacs) form.qdimacs with
  | error reason => exact ⟨rfl, _, rfl⟩
  | ok started =>
    refine ⟨?_, _, rfl⟩
    show [Record.written form.qdimacs, External.watchRecord _ _ started.child.watch.exit?].filterMap
      writtenQuery? = _
    cases started.child.watch.exit? <;> rfl

/-- A question of a check is one query. -/
theorem decide_writes (writable : setting.config.dumpDir.bind setting.dirRefusal = none)
    (hf : f.IsExistentialQuery) (t : Tickets) (e : External) :
    ∃ text, ((External.engine setting).toEngine.decide f t false e).log.filterMap writtenQuery? =
        [text] ∧
      ∃ clock, ((External.engine setting).toEngine.decide f t false e).engine =
        (e.fileAll setting.config [text]).atTime clock := by
  show ∃ text, ((External.engine setting).decide f t false e).log.filterMap writtenQuery? = _ ∧
    ∃ clock, ((External.engine setting).decide f t false e).engine = _
  obtain ⟨g, t', form, hg, hform, -⟩ := Formula.exists_properForm
    (Formula.isBoolean_of_isExistential hf.existential) hf.binders
    (Formula.olderThan_of_plain hf.plain t.next) hf.closed
  unfold ClausalEngine.decide
  rw [hg]
  simp only [hform]
  exact ⟨form.qdimacs, solve_writes writable form e⟩

theorem query_sends (writable : setting.config.dumpDir.bind setting.dirRefusal = none)
    (hf : f.IsExistentialQuery) (hc : s.cancelled = false) {x : Except Halt Bool}
    (asked : (query (External.engine setting).toEngine f).run.run s = (x, s')) :
    ∃ text, Sends setting.config s s' [text] ∧ s'.queries = s.queries + 1 := by
  obtain ⟨s₁, hq, taken⟩ := run_query (External.engine setting).toEngine f hc
  obtain rfl : s₁ = s' := by
    rw [asked] at hq
    cases h : ((External.engine setting).toEngine.decide f s.tickets false s.engine).answer <;>
    · rw [h] at hq
      cases hq
      rfl
  obtain ⟨text, told, kept⟩ := decide_writes writable hf s.tickets s.engine
  refine ⟨text, ⟨?_, ?_⟩, taken.queries⟩
  · rw [taken.log, queriesOf_append, queriesOf_push, told]
    show queriesOf s.log ++ [] ++ [text] = _
    rw [List.append_nil]
  · rw [taken.state]
    exact kept

/-! ## 3. A check notes no queries itself -/

namespace Dialogue

variable {α β : Type} {d : Dialogue α} {g : α → Dialogue β}

/-- No note of the dialogue is about a query that was written. -/
def Quiet : Dialogue α → Prop
  | .done _ => True
  | .stop _ => True
  | .proceed d => d.Quiet
  | .fresh k => ∀ u, (k u).Quiet
  | .build _ d => d.Quiet
  | .note r d => writtenQuery? r = none ∧ d.Quiet
  | .ask _ k => ∀ b, (k b).Quiet
  | .meter k => ∀ n t, (k n t).Quiet

theorem Quiet.bind (h : d.Quiet) (hg : ∀ a, (g a).Quiet) : (d >>= g).Quiet := by
  show (d.bind g).Quiet
  induction d with
  | done a => exact hg a
  | stop cause => trivial
  | proceed d ih => exact ih h
  | fresh k ih => exact fun u => ih u (h u)
  | build f d ih => exact ih h
  | note r d ih => exact ⟨h.1, ih h.2⟩
  | ask f k ih => exact fun b => ih b (h b)
  | meter k ih => exact fun m t => ih m t (h m t)

theorem Quiet.mapM {as : List α} (hg : ∀ a, (g a).Quiet) : (as.mapM g).Quiet := by
  induction as with
  | nil => trivial
  | cons a as ih =>
    rw [List.mapM_cons]
    exact (hg a).bind fun _ => ih.bind fun _ => trivial

/-- Steps that note nothing. -/
theorem Still.quiet (h : d.Still) : d.Quiet := by
  induction d with
  | done => trivial
  | stop => trivial
  | proceed _ ih => exact ih h
  | fresh _ ih => exact fun u => ih u (h u)
  | build _ _ ih => exact ih h
  | note => exact h.elim
  | ask => exact h.elim
  | meter _ ih => exact fun n t => ih n t (h n t)

variable {states p q : Formula} {v : SymbolicState} {rounds : Nat}

theorem quiet_grow {step : Formula → Dialogue Formula} (hstep : ∀ f, (step f).Still)
    (fuel i : Nat) (f : Formula) : (grow v step fuel i f).Quiet := by
  induction fuel generalizing i f with
  | zero => trivial
  | succ fuel ih =>
    refine (hstep f).quiet.bind fun next b => ?_
    cases b with
    | true => exact ih (i + 1) next
    | false => trivial

theorem quiet_fragment {step : Formula → Dialogue Formula} (hstep : ∀ f, (step f).Still)
    (op : BinaryOp) : (fragment rounds v op p q step).Quiet :=
  (quiet_grow hstep rounds 0 .falsity).bind fun _ => ⟨rfl, trivial⟩

theorem quiet_untilsMet : (untilsMet T rounds states v).Quiet := by
  refine Quiet.bind (Quiet.mapM fun _ => ?_) fun _ => (still_put _).quiet
  exact (quiet_fragment (fun _ => still_untilStep) .eu).bind fun _ =>
    ((still_compute _).bind fun _ => (still_compute _).bind fun _ => still_put _).quiet

theorem quiet_everyUntilsMet : (everyUntilsMet T rounds states v).Quiet := by
  refine Quiet.bind (Quiet.mapM fun _ => ?_) fun _ => (still_put _).quiet
  exact (quiet_fragment (fun _ => still_everyUntilStep) .au).bind fun _ =>
    ((still_compute _).bind fun _ => (still_compute _).bind fun _ => still_put _).quiet

theorem quiet_refined : (refined T rounds v states).Quiet :=
  still_successorIn.quiet.bind fun _ => still_promisesMet.quiet.bind fun _ =>
    quiet_untilsMet.bind fun _ => quiet_everyUntilsMet.bind fun _ => (still_put _).quiet

theorem quiet_round (number : Nat) : (round T rounds v number states).Quiet :=
  ⟨rfl, quiet_refined.bind fun _ _ => trivial⟩

theorem quiet_refine (fuel i : Nat) : (refine T rounds v fuel i states).Quiet := by
  induction fuel generalizing i states with
  | zero => trivial
  | succ fuel ih =>
    refine (quiet_round (i + 1)).bind fun res => ?_
    obtain ⟨rest, removed⟩ := res
    cases removed with
    | true => exact ih (i + 1)
    | false => trivial

theorem quiet_check : (check T rounds).Quiet :=
  (still_attempt _).quiet.bind fun _ => (quiet_refine rounds 0).bind fun _ =>
    ⟨rfl, (still_compute _).quiet.bind fun _ _ _ _ => ⟨rfl, trivial⟩⟩

/-! ## 4. The queries of a run -/

variable {r : Except Halt α} {c : Stage} {P : α → Stage → Prop}

theorem backs_external (setting : Setting) :
    Backs (External.engine setting).toEngine (fun _ => True) False False :=
  backs_of_draws (External.engine setting).le_decide

/-- **Every question of a run is written as one query**, and no other queries are told of. -/
theorem Ensures.sends (writable : setting.config.dumpDir.bind setting.dirRefusal = none)
    (h : d.Ensures T False False c P) (quiet : d.Quiet) (hs : At (fun _ => True) c s)
    (hrun : (d.run T (External.engine setting).toEngine).run.run s = (r, s')) :
    ∃ texts, Sends setting.config s s' texts ∧ s'.queries = s.queries + texts.length := by
  induction d generalizing c s with
  | done a =>
    cases hrun
    exact ⟨[], .refl _, rfl⟩
  | stop cause =>
    cases hrun
    exact ⟨[], .refl _, rfl⟩
  | proceed d ih =>
    have poll := run_proceed s
    cases hc : s.cancelled with
    | true =>
      rw [hc, if_pos rfl] at poll
      rw [run, run_bind_error poll] at hrun
      cases hrun
      exact ⟨[], .refl _, rfl⟩
    | false =>
      rw [hc, if_neg Bool.false_ne_true] at poll
      rw [run, run_bind_ok poll] at hrun
      exact ih h quiet hs hrun
  | fresh k ih =>
    rw [run, run_bind_ok (run_freshState T s)] at hrun
    have hs' : At (fun _ => True) { c with drawn := s.tickets.next + 1 }
        { s with tickets := ⟨s.tickets.next + 1⟩ } := ⟨trivial, rfl, hs.queries⟩
    obtain ⟨texts, sends, count⟩ := ih _ (h _ (Nat.le_of_eq hs.drawn)) (quiet _) hs' hrun
    exact ⟨texts, sends.congr rfl rfl, count⟩
  | build f d ih => exact ih h.2 quiet hs hrun
  | note x d ih =>
    have hs' : At (fun _ => True) c { s with log := s.log.push x } :=
      ⟨trivial, hs.drawn, hs.queries⟩
    obtain ⟨texts, sends, count⟩ := ih h quiet.2 hs' hrun
    have same : queriesOf (s.log.push x) = queriesOf s.log := by
      rw [queriesOf_push, quiet.1]
      exact List.append_nil _
    exact ⟨texts, sends.congr same rfl, count⟩
  | ask f k ih =>
    cases hc : s.cancelled with
    | true =>
      rw [run, run_bind_error (run_query_cancelled _ f hc)] at hrun
      cases hrun
      exact ⟨[], .refl _, rfl⟩
    | false =>
      rcases asked : ((query (External.engine setting).toEngine f).run.run s :
        Except Halt Bool × Session External) with ⟨x, s₁⟩
      obtain ⟨text, first, one⟩ := query_sends writable h.1 hc asked
      cases x with
      | error e =>
        rw [run, run_bind_error asked] at hrun
        cases hrun
        exact ⟨[text], first, one⟩
      | ok b =>
        rw [run, run_bind_ok asked] at hrun
        obtain ⟨truthful, drawn, hs'⟩ :=
          ((leads_ask (backs_external setting) h.1 hs).ok b s₁ asked).2
        obtain ⟨texts, sends, count⟩ := ih b (h.2 b truthful _ drawn) (quiet b) hs' hrun
        refine ⟨text :: texts, first.trans sends, ?_⟩
        rw [count, one, List.length_cons, Nat.add_assoc, Nat.add_comm 1]
  | meter k ih =>
    have h' := h s.elapsed
    rw [hs.queries] at h'
    exact ih _ _ h' (quiet _ _) hs hrun

end Dialogue

/-- A dialogue that asks before it has a result asks in every course that nobody else calls off, and
    that does not run out of rounds. -/
theorem Course.asks {σ α : Type} {replies : Replies σ} {d : Dialogue α} {s s' : Session σ}
    {es : List Happening} {r : Except Halt α} {n m : Nat}
    (course : Course T replies (.before d) s es r s') (alone : .raised ∉ es)
    (told : d.Tells s.queries fun _ xs => xs ≠ []) (h : d.Lasts T n m) (hc : s.cancelled = false)
    (hr : r ≠ .error .outOfRounds) : 1 ≤ es.countP Happening.isAdmission := by
  induction d generalizing s es n with
  | done a => exact absurd rfl told
  | stop cause =>
    obtain ⟨rfl, -⟩ := h
    cases course with
    | raise => exact absurd List.mem_cons_self alone
    | stop => exact absurd rfl hr
  | proceed d ih =>
    cases course with
    | raise => exact absurd List.mem_cons_self alone
    | proceed go rest => exact ih rest alone told h hc
    | off halt =>
      rw [(eq_of_halt halt).2] at hc
      cases hc
  | fresh k ih =>
    cases course with
    | raise => exact absurd List.mem_cons_self alone
    | fresh made rest =>
      rw [Dialogue.run_freshState] at made
      cases made
      exact ih _ rest alone (told _) (h _) hc
  | build f d ih =>
    cases course with
    | raise => exact absurd List.mem_cons_self alone
    | build _ rest => exact ih rest alone told h hc
  | note x d ih =>
    cases course with
    | raise => exact absurd List.mem_cons_self alone
    | note noted rest =>
      cases noted
      exact ih rest alone told h hc
  | ask f k ih =>
    cases course with
    | raise => exact absurd List.mem_cons_self alone
    | pass =>
      rw [List.countP_cons_of_pos rfl]
      exact Nat.le_add_left 1 _
    | refuse halt =>
      rw [(eq_of_halt halt).2] at hc
      cases hc
  | meter k ih =>
    cases course with
    | raise => exact absurd List.mem_cons_self alone
    | meter rest => exact ih _ _ rest alone (told _) (h _ _) hc

/-- **The records of a check tell of the queries that the engine kept.** If the check was not called
    off before and does not run out of rounds, there is one at least. -/
theorem check_sends (writable : setting.config.dumpDir.bind setting.dirRefusal = none)
    (hT : ofFormula f = .ok T) {rounds : Nat} {r : Except Halt Report}
    (hrun : (T.checkWithin (External.engine setting).toEngine rounds).run.run s = (r, s')) :
    ∃ texts, Sends setting.config s s' texts ∧
      (s.cancelled = false → r ≠ .error .outOfRounds → texts ≠ []) := by
  have hsat := (saturated_of_ofFormula (isTemporal_of_ofFormula hT) hT).2
  have same := hrun
  rw [run_checkWithin] at same
  obtain ⟨texts, sends, count⟩ := Dialogue.Ensures.sends writable
    (Dialogue.ensures_check hsat False.elim) Dialogue.quiet_check (at_restarted trivial) same
  refine ⟨texts, sends.congr rfl rfl, fun hc hr none => ?_⟩
  obtain ⟨es, alone, course⟩ := run_checkWithin_iff.1 hrun
  have asked := course.asks alone
    ((Dialogue.tells_check T rounds).mono fun report xs ⟨rs, talk⟩ => ?_)
    (Dialogue.lasts_check hsat rounds) hc hr
  · have counted : s'.queries = 0 + 0 + es.countP Happening.isAdmission := course.queries_eq
    have zero : s'.queries = 0 + texts.length := count
    rw [none, List.length_nil] at zero
    omega
  · obtain ⟨_, _, _, _, e⟩ := talk.exchanges
    rw [e]
    exact List.append_ne_nil_of_right_ne_nil _ (List.cons_ne_nil _ _)

end CtlTableau.Tableau
