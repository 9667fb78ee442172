import CtlTableau.Engine.Scripted
import CtlTableau.Proofs.Cancellation

/-!
# What a check asks and hears

The answers of the engine fix how many questions a check puts, whether they are right or wrong. Every
loop for an "until" asks until it hears the first no, and every round asks in the end whether it
removed a state; the first round that hears no there is the last. So a check that comes to a report
has heard, before its last question, one no in every loop of every round and one more
(`check_counts`).

`Dialogue.Tells` says what a dialogue has asked and heard when it comes to a result, for all answers at
once; each function of a check has one lemma about it. What they find is put together in `Growth` and
`Refining`: the questions of a loop and of all rounds, with the sets of states that they are about.
-/

namespace CtlTableau.Tableau

open Run

variable {σ α β : Type} {T : Tableau}

/-! ## 1. Exchanges -/

/-- A question with its answer. -/
abbrev Exchange := Formula × Bool

/-- Whether the answer is no. -/
def Exchange.isNo (x : Exchange) : Bool := !x.2

/-- Whether the answer is yes. -/
def Exchange.isYes (x : Exchange) : Bool := x.2

/-- What was asked and answered. -/
def exchanges (es : List Happening) : List Exchange := es.filterMap fun
  | .returned f (.ok b) _ => some (f, b)
  | _ => none

namespace Dialogue

/-- Whatever is answered, if the dialogue comes to a result after `n` earlier questions, then the
    result and what was asked and answered meanwhile have the property. -/
def Tells : Dialogue α → Nat → (α → List Exchange → Prop) → Prop
  | .done a, _, P => P a []
  | .stop _, _, _ => True
  | .proceed d, n, P => d.Tells n P
  | .fresh k, n, P => ∀ u, (k u).Tells n P
  | .build _ d, n, P => d.Tells n P
  | .note _ d, n, P => d.Tells n P
  | .ask f k, n, P => ∀ b, (k b).Tells (n + 1) fun a xs => P a ((f, b) :: xs)
  | .meter k, n, P => ∀ t, (k n t).Tells n P

variable {d : Dialogue α} {g : α → Dialogue β} {n : Nat} {P P' : α → List Exchange → Prop}
  {Q : β → List Exchange → Prop}

/-- One dialogue after another. -/
theorem Tells.bind (h : d.Tells n P)
    (hg : ∀ a xs, P a xs → (g a).Tells (n + xs.length) fun b ys => Q b (xs ++ ys)) :
    (d >>= g).Tells n Q := by
  show (d.bind g).Tells n Q
  induction d generalizing n P Q with
  | done a => exact hg a [] h
  | stop cause => trivial
  | proceed d ih => exact ih h hg
  | fresh k ih => exact fun u => ih u (h u) hg
  | build f d ih => exact ih h hg
  | note r d ih => exact ih h hg
  | ask f k ih =>
    refine fun b => ih b (h b) fun a xs hP => ?_
    have rest := hg a ((f, b) :: xs) hP
    rwa [List.length_cons, Nat.add_comm xs.length, ← Nat.add_assoc] at rest
  | meter k ih => exact fun t => ih n t (h t) hg

theorem Tells.mono (h : d.Tells n P) (hP : ∀ a xs, P a xs → P' a xs) : d.Tells n P' := by
  rw [← bind_pure d]
  refine h.bind fun a xs ha => ?_
  show P' a (xs ++ [])
  rw [List.append_nil]
  exact hP a xs ha

/-- The same dialogue for every member of a list: the exchanges for one follow those for another. -/
theorem Tells.mapM {R : List Exchange → Prop} {as : List α}
    (hg : ∀ a n, (g a).Tells n fun _ xs => R xs) :
    (as.mapM g).Tells n fun _ xs =>
      ∃ parts : List (List Exchange), xs = parts.flatten ∧ parts.length = as.length ∧
        ∀ part ∈ parts, R part := by
  induction as generalizing n with
  | nil => exact ⟨[], rfl, rfl, fun _ h => absurd h List.not_mem_nil⟩
  | cons a as ih =>
    rw [List.mapM_cons]
    refine (hg a n).bind fun b xs hxs => ih.bind fun bs ys ⟨parts, e, count, hparts⟩ => ?_
    refine ⟨xs :: parts, ?_, ?_, List.forall_mem_cons.2 ⟨hxs, hparts⟩⟩
    · rw [e, List.flatten_cons, List.append_nil]
    · rw [List.length_cons, List.length_cons, count]

end Dialogue

namespace Point

/-- What `Dialogue.Tells` says, from a point on; the answer to a question on its way comes first. -/
def Tells : Point α → Nat → (α → List Exchange → Prop) → Prop
  | .before d, n, P => d.Tells n P
  | .asking .counting f k, n, P => ∀ b, (k b).Tells (n + 1) fun a xs => P a ((f, b) :: xs)
  | .asking _ f k, n, P => ∀ b, (k b).Tells n fun a xs => P a ((f, b) :: xs)

/-- The calls that have not returned. -/
def calls : Point α → Nat
  | .asking (.waiting _) _ _ => 1
  | _ => 0

end Point

/-- **What a dialogue tells is so in every course of it that comes to a result**, and all calls were
    answered. -/
theorem Course.tells {replies : Replies σ} {x : Point α} {s s' : Session σ} {es : List Happening}
    {r : Except Halt α} {P : α → List Exchange → Prop} (course : Course T replies x s es r s')
    {a : α} (hr : r = .ok a) (h : x.Tells s.queries P) :
    P a (exchanges es) ∧ x.calls + es.countP Happening.isStart = (exchanges es).length := by
  induction course generalizing P with
  | raise _ ih => exact ih hr h
  | done =>
    cases hr
    exact ⟨h, rfl⟩
  | stop => cases hr
  | proceed _ _ ih => exact ih hr h
  | off => cases hr
  | fresh made _ ih => exact ih hr ((cancelled_of_made made).2 ▸ h _)
  | build _ _ ih => exact ih hr h
  | note noted _ ih => exact ih hr ((cancelled_of_noted noted).2 ▸ h)
  | pass _ _ ih => exact ih hr h
  | refuse => cases hr
  | count counted _ ih => exact ih hr ((cancelled_of_counted counted).2 ▸ h)
  | record noted _ ih => exact ih hr ((cancelled_of_noted noted).2 ▸ h)
  | start _ ih =>
    obtain ⟨told, count⟩ := ih hr h
    rw [List.countP_cons_of_pos rfl]
    exact ⟨told, (Nat.zero_add _).trans ((Nat.add_comm _ 1).trans count)⟩
  | @reply f k _ _ es _ _ b _ _ answer _ ih =>
    obtain ⟨told, count⟩ := ih hr (h b)
    have answered : 0 + es.countP Happening.isStart = (exchanges es).length := count
    refine ⟨told, ?_⟩
    show 1 + es.countP Happening.isStart = (exchanges es).length + 1
    omega
  | fail => cases hr
  | meter _ ih => exact ih hr (h _)

namespace Dialogue

variable {d : Dialogue α} {g : α → Dialogue β} {n : Nat} {Q : β → List Exchange → Prop}

/-! ## 2. Dialogues that ask nothing -/

/-- What a dialogue tells is not changed by steps before it that ask nothing. -/
theorem Silent.andThen (h : d.Silent) (hg : ∀ a, (g a).Tells n Q) : (d >>= g).Tells n Q := by
  show (d.bind g).Tells n Q
  induction d with
  | done a => exact hg a
  | stop cause => trivial
  | proceed d ih => exact ih h
  | fresh k ih => exact fun u => ih u (h u)
  | build f d ih => exact ih h
  | note r d ih => exact ih h
  | ask f k => exact h.elim
  | meter k ih => exact fun t => ih n t (h n t)

theorem Silent.tells (h : d.Silent) : d.Tells n fun _ xs => xs = [] := by
  rw [← bind_pure d]
  exact h.andThen fun _ => rfl

/-- Nor by such steps after it. -/
theorem Tells.andThen {R : List Exchange → Prop} (h : d.Tells n fun _ xs => R xs)
    (hg : ∀ a, (g a).Silent) : (d >>= g).Tells n fun _ xs => R xs := by
  refine h.bind fun a xs hxs => (hg a).tells.mono fun _ ys e => ?_
  subst e
  rwa [List.append_nil]

/-- The dialogue only puts formulas together: it asks nothing and notes nothing. -/
def Still : Dialogue α → Prop
  | .done _ => True
  | .stop _ => True
  | .proceed d => d.Still
  | .fresh k => ∀ u, (k u).Still
  | .build _ d => d.Still
  | .note _ _ => False
  | .ask _ _ => False
  | .meter k => ∀ n t, (k n t).Still

theorem Still.silent (h : d.Still) : d.Silent := by
  induction d with
  | done => trivial
  | stop => trivial
  | proceed _ ih => exact ih h
  | fresh _ ih => exact fun u => ih u (h u)
  | build _ _ ih => exact ih h
  | note => exact h.elim
  | ask => exact h.elim
  | meter _ ih => exact fun n t => ih n t (h n t)

theorem Still.bind (h : d.Still) (hg : ∀ a, (g a).Still) : (d >>= g).Still := by
  show (d.bind g).Still
  induction d with
  | done a => exact hg a
  | stop cause => trivial
  | proceed d ih => exact ih h
  | fresh k ih => exact fun u => ih u (h u)
  | build f d ih => exact ih h
  | note r d => exact h.elim
  | ask f k => exact h.elim
  | meter k ih => exact fun m t => ih m t (h m t)

theorem Still.mapM {as : List α} (hg : ∀ a, (g a).Still) : (as.mapM g).Still := by
  induction as with
  | nil => trivial
  | cons a as ih =>
    rw [List.mapM_cons]
    exact (hg a).bind fun _ => ih.bind fun _ => trivial

theorem still_attempt (m : Except Fault α) : (attempt m).Still := by
  cases m <;> trivial

theorem still_put (f : Formula) : (put f).Still := trivial

theorem still_compute (m : Except Fault Formula) : (compute m).Still :=
  (still_attempt m).bind still_put

variable {states f p q : Formula} {v : SymbolicState}
  {more : SymbolicState → Except Fault (List Formula)}

theorem still_successorIn : (successorIn T states v more).Still :=
  Still.bind (fun _ => trivial) fun _ => (still_compute _).bind fun _ =>
    (still_compute _).bind fun _ => (still_attempt _).bind fun _ => still_put _

theorem still_promisesMet : (promisesMet T states v more).Still :=
  Still.mapM fun _ => still_successorIn.bind fun _ => (still_compute _).bind fun _ => still_put _

theorem still_untilStep : (untilStep T states v p q f).Still :=
  still_successorIn.bind fun _ => (still_compute _).bind fun _ =>
    (still_compute _).bind fun _ => still_put _

theorem still_everyUntilStep : (everyUntilStep T states v p q f).Still :=
  (still_compute _).bind fun _ => still_successorIn.bind fun _ =>
    still_promisesMet.bind fun _ => (still_compute _).bind fun _ => still_put _

end Dialogue

/-! ## 3. The exchanges of loops and rounds -/

/-- The question whether a set of states has members outside of another. -/
def beyond (T : Tableau) (f g : Formula) : Formula :=
  T.current.quantify .existential (.and f (.not g))

/-- The exchanges of a loop that grows a set: it asks of every set that it comes to whether there is
    more in it than in the one before, and stops at the first no. -/
inductive Growth (T : Tableau) : Formula → List Exchange → Prop where
  | stops (fragment next : Formula) : Growth T fragment [(T.beyond next fragment, false)]
  | goesOn {fragment next : Formula} {xs : List Exchange} (h : Growth T next xs) :
      Growth T fragment ((T.beyond next fragment, true) :: xs)

/-- The exchanges of so many loops, each of which grows a set from the empty one. -/
structure Loops (T : Tableau) (count : Nat) (parts : List (List Exchange)) : Prop where
  grow : ∀ xs ∈ parts, T.Growth .falsity xs
  count : parts.length = count

/-- What a round asks and hears. -/
structure RoundTalk where
  /-- The exchanges of its loops, one loop after the other. -/
  loops : List (List Exchange)
  /-- Whether the round removed a state. -/
  removal : Exchange

/-- All exchanges of a round. -/
def RoundTalk.all (r : RoundTalk) : List Exchange := r.loops.flatten ++ [r.removal]

/-- The exchanges of a round on the first set of states, which leaves the second one. -/
structure Round (T : Tableau) (states rest : Formula) (removed : Bool) (r : RoundTalk) : Prop where
  loops : T.Loops T.loops r.loops
  removal : r.removal = (T.beyond states rest, removed)

/-- The exchanges of all rounds from a set of states on to the last one: the first round that removes
    nothing is the last. -/
inductive Refining (T : Tableau) : Formula → List RoundTalk → Formula → Prop where
  | stops {states rest : Formula} {r : RoundTalk} (h : T.Round states rest false r) :
      Refining T states [r] rest
  | goesOn {states rest last : Formula} {r : RoundTalk} {rs : List RoundTalk}
      (h : T.Round states rest true r) (hs : Refining T rest rs last) :
      Refining T states (r :: rs) last

/-- A loop hears no once, and yes before that. -/
theorem Growth.countP_isNo {f : Formula} {xs : List Exchange} (h : T.Growth f xs) :
    xs.countP Exchange.isNo = 1 := by
  induction h with
  | stops => rfl
  | goesOn _ ih => rw [List.countP_cons_of_neg (by simp [Exchange.isNo]), ih]

/-- The loops of a round hear no once each. -/
theorem Loops.countP_isNo {count : Nat} {parts : List (List Exchange)} (h : T.Loops count parts) :
    parts.flatten.countP Exchange.isNo = count := by
  obtain ⟨grow, rfl⟩ := h
  induction parts with
  | nil => rfl
  | cons xs parts ih =>
    obtain ⟨first, later⟩ := List.forall_mem_cons.1 grow
    rw [List.flatten_cons, List.countP_append, first.countP_isNo, ih later, List.length_cons,
      Nat.add_comm]

theorem Round.countP_isNo {states rest : Formula} {removed : Bool} {r : RoundTalk}
    (h : T.Round states rest removed r) :
    r.all.countP Exchange.isNo = T.loops + (!removed).toNat := by
  rw [RoundTalk.all, List.countP_append, h.loops.countP_isNo, h.removal]
  cases removed <;> rfl

/-- **The rounds hear no once in every loop, and once more in the end.** -/
theorem Refining.countP_isNo {states rest : Formula} {rs : List RoundTalk}
    (h : T.Refining states rs rest) :
    (rs.flatMap RoundTalk.all).countP Exchange.isNo = rs.length * T.loops + 1 := by
  induction h with
  | stops h =>
    rw [List.flatMap_singleton, h.countP_isNo, List.length_singleton, Nat.one_mul]
    rfl
  | goesOn h _ ih =>
    rw [List.flatMap_cons, List.countP_append, h.countP_isNo, ih, List.length_cons, Nat.succ_mul,
      Bool.not_true, Bool.toNat_false]
    omega

/-- The rounds ask once for every round and every loop, and once more for each time that a loop hears
    yes. -/
theorem Refining.length_all {states rest : Formula} {rs : List RoundTalk}
    (h : T.Refining states rs rest) : (rs.flatMap RoundTalk.all).length =
      rs.length * (T.loops + 1) +
        (rs.flatMap (·.loops.flatten)).countP Exchange.isYes := by
  have one : ∀ {states rest removed} {r : RoundTalk}, T.Round states rest removed r →
      r.all.length = T.loops + 1 + r.loops.flatten.countP Exchange.isYes := by
    intro states rest removed r h
    have no := h.loops.countP_isNo
    have both := List.length_eq_countP_add_countP Exchange.isYes (l := r.loops.flatten)
    have same : r.loops.flatten.countP (fun x => ¬ x.isYes) =
        r.loops.flatten.countP Exchange.isNo :=
      List.countP_congr fun x _ => by simp [Exchange.isYes, Exchange.isNo]
    rw [RoundTalk.all, List.length_append, List.length_singleton]
    omega
  induction h with
  | stops h => simp [one h]
  | goesOn h _ ih =>
    rw [List.flatMap_cons, List.flatMap_cons, List.length_append, List.countP_append, one h, ih,
      List.length_cons, Nat.succ_mul]
    omega

/-! ## 4. What the functions of a check tell -/

namespace Dialogue

variable {d : Dialogue α} {n : Nat} {states f p q : Formula} {rounds : Nat}

theorem tells_inquire {k : Bool → Dialogue β} {Q : β → List Exchange → Prop}
    (h : ∀ b, (k b).Tells (n + 1) fun a xs => Q a ((f, b) :: xs)) :
    (inquire f >>= k).Tells n Q := h

theorem tells_grow {step : Formula → Dialogue Formula} (hstep : ∀ f, (step f).Still)
    (fuel i : Nat) (f : Formula) :
    (grow T.current step fuel i f).Tells n fun _ xs => T.Growth f xs := by
  induction fuel generalizing n i f with
  | zero => trivial
  | succ fuel ih =>
    rw [grow]
    refine (hstep f).silent.andThen fun next => tells_inquire fun b => ?_
    cases b with
    | true => exact (ih (i + 1) next).mono fun _ xs h => .goesOn h
    | false => exact .stops f next

theorem tells_fragment {step : Formula → Dialogue Formula} (hstep : ∀ f, (step f).Still)
    (op : BinaryOp) (p q : Formula) :
    (fragment rounds T.current op p q step).Tells n fun _ xs => T.Growth .falsity xs :=
  (tells_grow hstep rounds 0 .falsity).andThen fun _ => trivial

/-- A loop for each member of a list, and what is put together with the results. -/
theorem tells_loops {as : List α} {m : α → Dialogue Formula}
    (hm : ∀ a n, (m a).Tells n fun _ xs => T.Growth .falsity xs) :
    Tells (do put (.conj (← as.mapM m))) n fun _ xs =>
      ∃ parts, xs = parts.flatten ∧ Loops T as.length parts :=
  ((Tells.mapM hm).mono fun _ _ ⟨parts, e, count, grow⟩ => ⟨parts, e, grow, count⟩).andThen
    fun _ => trivial

theorem tells_untilsMet : (untilsMet T rounds states T.current).Tells n fun _ xs =>
    ∃ parts, xs = parts.flatten ∧ T.Loops T.untils.length parts :=
  tells_loops fun _ _ => (tells_fragment (fun _ => still_untilStep) .eu _ _).andThen fun _ =>
    ((still_compute _).bind fun _ => (still_compute _).bind fun _ => still_put _).silent

theorem tells_everyUntilsMet : (everyUntilsMet T rounds states T.current).Tells n fun _ xs =>
    ∃ parts, xs = parts.flatten ∧ T.Loops T.releases.length parts :=
  tells_loops fun _ _ => (tells_fragment (fun _ => still_everyUntilStep) .au _ _).andThen fun _ =>
    ((still_compute _).bind fun _ => (still_compute _).bind fun _ => still_put _).silent

theorem tells_refined : (refined T rounds T.current states).Tells n fun _ xs =>
    ∃ parts, xs = parts.flatten ∧ T.Loops T.loops parts := by
  refine still_successorIn.silent.andThen fun _ => still_promisesMet.silent.andThen fun _ => ?_
  refine tells_untilsMet.bind fun _ xs ⟨parts, e, h⟩ => ?_
  refine tells_everyUntilsMet.bind fun _ ys ⟨parts', e', h'⟩ => ?_
  refine ⟨parts ++ parts', ?_, fun zs hzs => ?_, ?_⟩
  · rw [e, e', List.flatten_append, List.append_nil]
  · exact (List.mem_append.1 hzs).elim (h.grow zs) (h'.grow zs)
  · rw [List.length_append, h.count, h'.count, loops]

theorem tells_round (number : Nat) :
    (round T rounds T.current number states).Tells n fun res xs =>
      ∃ r, T.Round states res.1 res.2 r ∧ xs = r.all :=
  tells_refined.bind fun rest xs ⟨parts, e, h⟩ => tells_inquire fun removed =>
    ⟨⟨parts, (T.beyond states rest, removed)⟩, ⟨h, rfl⟩, by rw [e]; rfl⟩

/-- The rounds tell what they ask, and how many they are. -/
theorem tells_refine (fuel i : Nat) (states : Formula) :
    (refine T rounds T.current fuel i states).Tells n fun res xs =>
      ∃ rs, T.Refining states rs res.1 ∧ xs = rs.flatMap RoundTalk.all ∧
        res.2 = i + rs.length := by
  induction fuel generalizing n i states with
  | zero => trivial
  | succ fuel ih =>
    rw [refine]
    refine (tells_round (i + 1)).bind fun res xs told => ?_
    obtain ⟨rest, removed⟩ := res
    obtain ⟨r, hr, e⟩ := told
    cases removed with
    | true =>
      refine (ih (i + 1) rest).mono fun res' ys told => ?_
      obtain ⟨rs, hrs, e', count⟩ := told
      refine ⟨r :: rs, .goesOn hr hrs, ?_, ?_⟩
      · rw [e, e', List.flatMap_cons]
      · rw [count, List.length_cons]
        omega
    | false =>
      refine ⟨[r], .stops hr, ?_, rfl⟩
      rw [e, List.flatMap_singleton, List.append_nil]

end Dialogue

/-- What a check has asked and heard when it comes to its report. -/
structure Conversation (T : Tableau) (report : Report) (rs : List RoundTalk)
    (xs : List Exchange) : Prop where
  /-- The questions of the rounds, and in the end whether a state of the formula is left. -/
  exchanges : ∃ states value, T.Refining .truth rs states ∧
    T.current.value T.normalized = .ok value ∧
    xs = rs.flatMap RoundTalk.all ++
      [(T.current.quantify .existential (.and states value), report.satisfiable)]
  iterations : report.iterations = rs.length
  queries : report.queries = xs.length

theorem Dialogue.tells_check (T : Tableau) (rounds : Nat) :
    (Dialogue.check T rounds).Tells 0 fun report xs => ∃ rs, T.Conversation report rs xs := by
  rw [check_eq]
  refine (tells_refine rounds 0 .truth).bind fun res xs ⟨rs, hrs, e, count⟩ => ?_
  rw [conclude]
  cases hvalue : T.current.value T.normalized with
  | error cause => trivial
  | ok value =>
    refine fun satisfiable elapsed => ⟨rs, ⟨res.1, value, hrs, hvalue, ?_⟩, ?_, ?_⟩
    · rw [e]
    · rw [count, Nat.zero_add]
    · simp

/-! ## 5. Counting -/

/-- Whether a formula promises of a successor that an "until" is met, or denies this for the one that
    is dual to its "release". -/
def carriesOn : Formula → Bool
  | .ex (.eu _ _) => true
  | .ex (.er _ _) => true
  | _ => false

/-- There is a loop for each such formula that a state decides. -/
theorem loops_eq_countP (T : Tableau) : T.loops = T.elementary.toList.countP carriesOn := by
  rw [loops, untils, releases, promises, SymbolicState.promises]
  induction T.elementary.toList with
  | nil => rfl
  | cons f fs ih =>
    rw [List.countP_cons, ← ih]
    cases f with
    | unary op g =>
      cases op with
      | ex =>
        cases g with
        | binary op' p q =>
          cases op' <;> simp [carriesOn] <;> omega
        | _ => simp [carriesOn]
      | _ => simp [carriesOn]
    | _ => simp [carriesOn]

/-- **The answers fix the number of questions.** A check is a course of its dialogue in which nobody
    else calls it off. Let it come to a report, with any engine, of whatever answers, and in any
    course. The report counts the calls of the engine, each of which was answered; the rounds and in
    them the loops ask one after the other, and the last answer is the verdict. Of the answers before
    it as many are no as there are loops in all rounds, and one more; and besides one question for
    every loop, one for every round and the last, there is one for each time that a loop hears yes. -/
theorem check_counts (T : Tableau) (rounds : Nat) (s : Session σ) :
    (∀ (engine : Engine σ) r s', (T.checkWithin engine rounds).run.run s = (r, s') ↔
      ∃ es, .raised ∉ es ∧
        Course T engine.replies (.before (Dialogue.check T rounds)) (restarted s) es r s') ∧
    ∀ (replies : Replies σ) es report s',
      Course T replies (.before (Dialogue.check T rounds)) (restarted s) es (.ok report) s' →
      es.countP Happening.isStart = report.queries ∧
      ∃ rs, T.Conversation report rs (exchanges es) ∧
        (exchanges es).getLast?.map (·.2) = some report.satisfiable ∧
        (exchanges es).dropLast.countP Exchange.isNo =
          report.iterations * T.elementary.toList.countP carriesOn + 1 ∧
        report.queries = report.iterations * (T.elementary.toList.countP carriesOn + 1) + 1 +
          (rs.flatMap (·.loops.flatten)).countP Exchange.isYes := by
  refine ⟨fun engine r s' => run_checkWithin_iff, fun replies es report s' course => ?_⟩
  have told : (Point.before (Dialogue.check T rounds)).Tells (restarted s).queries _ :=
    Dialogue.tells_check T rounds
  obtain ⟨⟨rs, talk⟩, calls⟩ := course.tells rfl told
  refine ⟨(Nat.zero_add _).symm.trans (calls.trans talk.queries.symm), rs, talk, ?_⟩
  obtain ⟨states, value, refining, -, said⟩ := talk.exchanges
  rw [said, List.getLast?_concat, List.dropLast_concat, refining.countP_isNo, talk.iterations,
    talk.queries, said, List.length_append, refining.length_all, loops_eq_countP]
  refine ⟨rfl, rfl, ?_⟩
  rw [List.length_singleton]
  omega

/-- Whatever is asked, an engine says yes, no, yes, no, no and yes: the loop of the first round hears
    yes once, and the first round is taken to have removed a state. -/
theorem check_counts_atLast : ∃ es report s',
    Course atLastTableau Engine.scripted.replies
      (.before (Dialogue.check atLastTableau atLastTableau.roundBound))
      (restarted { engine := [.answer true, .answer false, .answer true, .answer false,
        .answer false, .answer true] }) es (.ok report) s' ∧
    report.iterations = 2 ∧ es.countP Happening.isStart = 6 ∧
    (exchanges es).dropLast.countP Exchange.isNo = 3 ∧ report.satisfiable = true := by
  obtain ⟨runs, counts⟩ := check_counts atLastTableau atLastTableau.roundBound
    { engine := [Cue.answer true, .answer false, .answer true, .answer false, .answer false,
      .answer true] }
  have reports : ((atLastTableau.checkWithin Engine.scripted atLastTableau.roundBound).run.run
      { engine := [.answer true, .answer false, .answer true, .answer false, .answer false,
        .answer true] }).1 = .ok ⟨true, 2, 6, .zero⟩ := by decide +kernel
  have runs := runs Engine.scripted
  generalize hrun : (atLastTableau.checkWithin Engine.scripted atLastTableau.roundBound).run.run
    _ = run at reports runs
  obtain ⟨r, s'⟩ := run
  obtain rfl : r = _ := reports
  obtain ⟨es, -, course⟩ := (runs _ _).1 rfl
  obtain ⟨calls, -, -, -, nos, -⟩ := counts _ _ _ _ course
  have one : atLastTableau.elementary.toList.countP carriesOn = 1 := by decide +kernel
  exact ⟨es, _, _, course, rfl, calls, by simp [nos, one], rfl⟩

end CtlTableau.Tableau
