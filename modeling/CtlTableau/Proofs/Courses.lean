import CtlTableau.Proofs.Interruption

/-!
# Courses and runs

The run of a dialogue is the course in which nobody else raises the flag (`course_iff_run`). In every
course the session counts the questions that are admitted (`Course.queries_eq`), and a dialogue that
still polls the flag has no result once it is up (`Course.ne_ok_of_polls`).

A course may take any run as its example and go another way where somebody calls it off: so any
question of a run may be called off too late, when the poll for it has passed and its call is yet to
start (`Course.exists_late`). A course of two dialogues, one after the other, divides into courses of
each (`Course.divides`).
-/

namespace CtlTableau.Tableau

open Run Dialogue

variable {σ α β : Type} {T : Tableau} {replies : Replies σ} {engine : Engine σ} {d : Dialogue α}
  {x : Point α} {s s₁ s' : Session σ} {es : List Happening} {r : Except Halt α}

/-! ## 1. Polls and questions -/

namespace Dialogue

/-- The dialogue polls the flag, if only for a question, before it comes to a result. -/
def Polls : Dialogue α → Prop
  | .done _ => False
  | .stop _ => True
  | .proceed _ => True
  | .fresh k => ∀ u, (k u).Polls
  | .build _ d => d.Polls
  | .note _ d => d.Polls
  | .ask _ _ => True
  | .meter k => ∀ n t, (k n t).Polls

/-- The dialogue asks nothing. -/
def Silent : Dialogue α → Prop
  | .done _ => True
  | .stop _ => True
  | .proceed d => d.Silent
  | .fresh k => ∀ u, (k u).Silent
  | .build _ d => d.Silent
  | .note _ d => d.Silent
  | .ask _ _ => False
  | .meter k => ∀ n t, (k n t).Silent

end Dialogue

namespace Point

/-! Of a question on its way the same is said of what follows the answer. -/

def Polls : Point α → Prop
  | .before d => d.Polls
  | .asking _ _ k => ∀ b, (k b).Polls

def Silent : Point α → Prop
  | .before d => d.Silent
  | .asking _ _ k => ∀ b, (k b).Silent

/-- The questions that were admitted and not counted yet. -/
def uncounted : Point α → Nat
  | .asking .counting _ _ => 1
  | _ => 0

end Point

/-- With the flag up a run that polls it has no result. -/
theorem Course.ne_ok_of_polls (course : Course T replies x s es r s') (polls : x.Polls)
    (hc : s.cancelled = true) (a : α) : r ≠ .ok a := by
  induction course with
  | raise _ ih => exact ih polls rfl
  | done => exact polls.elim
  | stop => exact nofun
  | proceed go =>
    rw [not_cancelled_of_proceed go] at hc
    cases hc
  | off => exact nofun
  | fresh made _ ih => exact ih (polls _) ((cancelled_of_made made).1.trans hc)
  | build _ _ ih => exact ih polls hc
  | note noted _ ih => exact ih polls ((cancelled_of_noted noted).1.trans hc)
  | pass go =>
    rw [not_cancelled_of_proceed go] at hc
    cases hc
  | refuse => exact nofun
  | count counted _ ih => exact ih polls ((cancelled_of_counted counted).1.trans hc)
  | record noted _ ih => exact ih polls ((cancelled_of_noted noted).1.trans hc)
  | start _ ih => exact ih polls hc
  | reply _ _ _ ih => exact ih (polls _) (cancelled_heed hc)
  | fail => exact nofun
  | meter _ ih => exact ih (polls _ _) hc

/-- Where nothing is asked nothing is admitted. -/
theorem Course.of_silent (course : Course T replies x s es r s') (silent : x.Silent) :
    ∀ e ∈ es, e.isAdmission = false := by
  induction course with
  | raise _ ih => exact List.forall_mem_cons.2 ⟨rfl, ih silent⟩
  | done => exact fun _ h => absurd h List.not_mem_nil
  | stop => exact fun _ h => absurd h List.not_mem_nil
  | proceed _ _ ih => exact ih silent
  | off => exact fun _ h => absurd h List.not_mem_nil
  | fresh _ _ ih => exact ih (silent _)
  | build _ _ ih => exact ih silent
  | note _ _ ih => exact ih silent
  | refuse => exact fun _ h => absurd h List.not_mem_nil
  | pass => exact silent.elim
  | count _ _ ih | record _ _ ih => exact ih silent
  | start _ ih => exact List.forall_mem_cons.2 ⟨rfl, ih silent⟩
  | reply _ _ _ ih => exact List.forall_mem_cons.2 ⟨rfl, ih (silent _)⟩
  | fail => exact List.forall_mem_singleton.2 rfl
  | meter _ ih => exact ih (silent _ _)

/-- The session counts the questions. -/
theorem Course.queries_eq (course : Course T replies x s es r s') :
    s'.queries = s.queries + x.uncounted + es.countP Happening.isAdmission := by
  induction course with
  | raise _ ih => exact ih
  | done => rfl
  | stop => rfl
  | proceed _ _ ih => exact ih
  | off => rfl
  | fresh made _ ih => rw [ih, (cancelled_of_made made).2]; rfl
  | build _ _ ih => exact ih
  | note noted _ ih => rw [ih, (cancelled_of_noted noted).2]; rfl
  | @pass _ _ s _ es _ _ _ ih =>
    rw [ih, List.countP_cons_of_pos rfl]
    show s.queries + 1 + _ = s.queries + 0 + (_ + 1)
    omega
  | refuse => rfl
  | count counted _ ih => rw [ih, (cancelled_of_counted counted).2]; rfl
  | record noted _ ih => rw [ih, (cancelled_of_noted noted).2]; rfl
  | start _ ih => exact ih
  | reply _ _ _ ih => exact ih
  | fail => rfl
  | meter _ ih => exact ih

/-- What a call returned was a possible reply. -/
theorem Course.possible (course : Course T replies x s es r s') {f : Formula}
    {a : Except Fault Bool} {flag : Bool} (h : .returned f a flag ∈ es) :
    ∃ t c u reply, replies f t c u reply ∧ reply.answer = a := by
  induction course with
  | done | stop | off | refuse => exact absurd h List.not_mem_nil
  | proceed _ _ ih | fresh _ _ ih | build _ _ ih | note _ _ ih => exact ih h
  | count _ _ ih | record _ _ ih => exact ih h
  | meter _ ih => exact ih h
  | raise _ ih | start _ ih => exact ih ((List.mem_cons.1 h).resolve_left nofun)
  | pass _ _ ih => exact ih ((List.mem_cons.1 h).resolve_left nofun)
  | reply possible answer _ ih =>
    rcases List.mem_cons.1 h with e | h
    · cases e
      exact ⟨_, _, _, _, possible, answer⟩
    · exact ih h
  | fail possible answer =>
    cases List.mem_singleton.1 h
    exact ⟨_, _, _, _, possible, answer⟩

/-- An engine that never says yes is not heard to. -/
theorem Course.countP_isYes (course : Course T replies x s es r s')
    (never : ∀ f t c u reply, replies f t c u reply → reply.answer ≠ .ok true) :
    es.countP Happening.isYes = 0 := by
  refine List.countP_eq_zero.2 fun e he yes => ?_
  cases e with
  | returned f a flag =>
    obtain ⟨t, c, u, reply, possible, rfl⟩ := course.possible he
    cases h : reply.answer with
    | ok b =>
      rw [h] at yes
      cases b with
      | true => exact never f t c u reply possible h
      | false => cases yes
    | error e =>
      rw [h] at yes
      cases yes
  | _ => cases yes

/-! ## 2. Runs that nobody else calls off -/

/-- The run from a point on. -/
def Point.run (T : Tableau) (engine : Engine σ) : Point α → Run σ α
  | .before d => d.run T engine
  | .asking .counting f k => do
    Run.count
    Run.note (.query (← get).queries f.size)
    (k (← consult engine f)).run T engine
  | .asking .noting f k => do
    Run.note (.query (← get).queries f.size)
    (k (← consult engine f)).run T engine
  | .asking .starting f k => do (k (← consult engine f)).run T engine
  | .asking (.waiting flag) f k => do
    let s ← get
    (k (← receive (engine.decide f s.tickets flag s.engine))).run T engine

/-- A question is the poll for it and what follows then. -/
theorem run_before_ask (f : Formula) (k : Bool → Dialogue α) :
    (Point.before (.ask f k)).run T engine =
      (Run.proceed >>= fun _ => (Point.asking .counting f k).run T engine) := by
  show (query engine f >>= fun b => (k b).run T engine) = _
  simp only [query, bind_assoc, Point.run]

/-- A noted question is put to the engine. -/
theorem run_noting (f : Formula) (k : Bool → Dialogue α) (s : Session σ) :
    ((Point.asking .noting f k).run T engine).run.run s =
      (Run.note (.query s.queries f.size) >>= fun _ =>
        (Point.asking .starting f k).run T engine).run.run s := rfl

theorem run_waiting (flag : Bool) (f : Formula) (k : Bool → Dialogue α) (s : Session σ) :
    ((Point.asking (.waiting flag) f k).run T engine).run.run s =
      (receive (engine.decide f s.tickets flag s.engine) >>= fun b =>
        (k b).run T engine).run.run s := rfl

theorem run_receive (reply : Reply σ) (s : Session σ) : (receive reply).run.run s =
    (reply.answer.mapError Halt.fault, s.heed reply) := by
  obtain ⟨⟨answer, engine, cancelled, elapsed, log⟩, tickets⟩ := reply
  cases answer <;> rfl

/-- Without interference a course is the run. -/
theorem Course.run_eq (course : Course T engine.replies x s es r s') (quiet : .raised ∉ es) :
    (x.run T engine).run.run s = (r, s') := by
  induction course with
  | raise => exact absurd List.mem_cons_self quiet
  | done => rfl
  | stop => rfl
  | proceed go _ ih => exact (run_bind_ok go).trans (ih quiet)
  | off halt => exact run_bind_error halt
  | fresh made _ ih => exact (run_bind_ok made).trans (ih quiet)
  | build _ _ ih => exact ih quiet
  | note noted _ ih => exact (run_bind_ok noted).trans (ih quiet)
  | pass go _ ih =>
    rw [run_before_ask, run_bind_ok go]
    exact ih fun h => quiet (List.mem_cons_of_mem _ h)
  | refuse halt =>
    rw [run_before_ask]
    exact run_bind_error halt
  | count counted _ ih => exact (run_bind_ok counted).trans (ih quiet)
  | record noted _ ih =>
    rw [run_noting, run_bind_ok noted]
    exact ih quiet
  | start _ ih => exact ih fun h => quiet (List.mem_cons_of_mem _ h)
  | @reply _ _ s _ _ _ _ _ reply possible answer _ ih =>
    have received := run_receive reply s
    rw [answer] at received
    cases possible
    rw [run_waiting, run_bind_ok received]
    exact ih fun h => quiet (List.mem_cons_of_mem _ h)
  | @fail _ _ s _ _ reply possible answer =>
    have received := run_receive reply s
    rw [answer] at received
    cases possible
    rw [run_waiting, run_bind_error received]
  | meter _ ih => exact ih quiet

/-- From the point the run is a course in which nobody else raises the flag. -/
def Point.Runs (T : Tableau) (engine : Engine σ) (x : Point α) (s : Session σ) : Prop :=
  ∃ es, .raised ∉ es ∧ Course T engine.replies x s es ((x.run T engine).run.run s).1
    ((x.run T engine).run.run s).2

namespace Point

variable {f : Formula} {k : Bool → Dialogue α}

theorem Runs.of_eq (h : ∃ es, .raised ∉ es ∧ Course T engine.replies x s es r s')
    (hrun : (x.run T engine).run.run s = (r, s')) : x.Runs T engine s := by
  unfold Runs
  rwa [hrun]

theorem runs_waiting (hk : ∀ b s, (before (k b)).Runs T engine s) (flag : Bool) (s : Session σ) :
    (asking (.waiting flag) f k).Runs T engine s := by
  have received := run_receive (engine.decide f s.tickets flag s.engine) s
  cases answer : (engine.decide f s.tickets flag s.engine).answer with
  | error e =>
    rw [answer] at received
    refine .of_eq ⟨_, ?_, .fail rfl answer⟩ ((run_waiting ..).trans (run_bind_error received))
    exact List.not_mem_cons_of_ne_of_not_mem nofun List.not_mem_nil
  | ok b =>
    rw [answer] at received
    obtain ⟨es, quiet, course⟩ := hk b (s.heed (engine.decide f s.tickets flag s.engine))
    refine .of_eq ⟨_, ?_, .reply rfl answer course⟩ ((run_waiting ..).trans (run_bind_ok received))
    exact List.not_mem_cons_of_ne_of_not_mem nofun quiet

theorem runs_counting (hk : ∀ b s, (before (k b)).Runs T engine s) (s : Session σ) :
    (asking .counting f k).Runs T engine s := by
  obtain ⟨es, quiet, course⟩ := runs_waiting (f := f) hk s.cancelled
    { s with queries := s.queries + 1, log := s.log.push (.query (s.queries + 1) f.size) }
  exact ⟨.started f s.cancelled :: es, List.not_mem_cons_of_ne_of_not_mem nofun quiet,
    .count rfl (.record rfl (.start course))⟩

theorem runs_before (d : Dialogue α) (s : Session σ) : (before d).Runs T engine s := by
  induction d generalizing s with
  | done a => exact ⟨[], List.not_mem_nil, .done a s⟩
  | stop h => exact ⟨[], List.not_mem_nil, .stop h s⟩
  | proceed d ih =>
    cases hc : s.cancelled with
    | true =>
      have halt := halt_of_cancelled hc
      exact .of_eq ⟨[], List.not_mem_nil, .off halt⟩ (run_bind_error halt)
    | false =>
      have go := proceed_of_not_cancelled hc
      obtain ⟨es, quiet, course⟩ := ih s
      exact .of_eq ⟨es, quiet, .proceed go course⟩ (run_bind_ok go)
  | fresh k ih =>
    have made := run_freshState T s
    obtain ⟨es, quiet, course⟩ := ih _ _
    exact .of_eq ⟨es, quiet, .fresh made course⟩ (run_bind_ok made)
  | build f d ih =>
    obtain ⟨es, quiet, course⟩ := ih s
    exact ⟨es, quiet, .build f course⟩
  | note x d ih =>
    obtain ⟨es, quiet, course⟩ := ih { s with log := s.log.push x }
    exact ⟨es, quiet, .note rfl course⟩
  | ask f k ih =>
    cases hc : s.cancelled with
    | true =>
      have halt := halt_of_cancelled hc
      refine .of_eq ⟨[], List.not_mem_nil, .refuse halt⟩ ?_
      rw [run_before_ask]
      exact run_bind_error halt
    | false =>
      have go := proceed_of_not_cancelled hc
      obtain ⟨es, quiet, course⟩ := runs_counting (f := f) ih s
      refine .of_eq ⟨.admitted f :: es, ?_, .pass go course⟩ ?_
      · exact List.not_mem_cons_of_ne_of_not_mem nofun quiet
      · rw [run_before_ask]
        exact run_bind_ok go
  | meter k ih =>
    obtain ⟨es, quiet, course⟩ := ih s.queries s.elapsed s
    exact ⟨es, quiet, .meter course⟩

end Point

/-- **The run is the course in which nobody else calls it off.** -/
theorem course_iff_run : (d.run T engine).run.run s = (r, s') ↔
    ∃ es, .raised ∉ es ∧ Course T engine.replies (.before d) s es r s' := by
  constructor
  · intro hrun
    have h : (Point.before d).Runs T engine s := Point.runs_before d s
    unfold Point.Runs Point.run at h
    rwa [hrun] at h
  · rintro ⟨es, quiet, course⟩
    exact course.run_eq quiet

/-- After these events the question may be admitted and the run called off right then; and the call
    of the engine starts all the same. -/
def Point.Late (T : Tableau) (engine : Engine σ) (x : Point α) (s : Session σ)
    (es : List Happening) (f : Formula) : Prop :=
  ∃ es' r s', Course T engine.replies x s
    (es ++ .admitted f :: .raised :: .started f true :: es') r s'

/-- Steps before these events. -/
theorem Point.Late.step {y : Point α} {f : Formula} {p : List Happening}
    (late : y.Late T engine s₁ es f)
    (first : ∀ {es : List Happening} {r : Except Halt α} {s' : Session σ},
      Course T engine.replies y s₁ es r s' → Course T engine.replies x s (p ++ es) r s') :
    x.Late T engine s (p ++ es) f := by
  obtain ⟨es', r, s', course⟩ := late
  refine ⟨es', r, s', ?_⟩
  rw [List.append_assoc]
  exact first course

theorem Point.late_ask {f : Formula} {k : Bool → Dialogue α}
    (go : (Run.proceed : Run σ Unit).run.run s = (.ok (), s)) :
    (Point.before (.ask f k)).Late T engine s [] f := by
  have call : (Point.asking (.waiting true) f k).Runs T engine
      { s with cancelled := true, queries := s.queries + 1,
               log := s.log.push (.query (s.queries + 1) f.size) } :=
    runs_waiting (fun b => runs_before (k b)) true _
  obtain ⟨es, -, course⟩ := call
  exact ⟨es, _, _, .pass go (.raise (.count rfl (.record rfl (.start course))))⟩

/-- **Every question that is admitted may be called off too late.** -/
theorem Course.exists_late (course : Course T engine.replies x s es r s')
    {es₁ es₂ : List Happening} {f : Formula} (split : es = es₁ ++ .admitted f :: es₂) :
    x.Late T engine s es₁ f := by
  have nothing : ∀ {es₁ : List Happening}, [] ≠ es₁ ++ .admitted f :: es₂ := fun h =>
    List.append_ne_nil_of_right_ne_nil _ (List.cons_ne_nil _ _) h.symm
  induction course generalizing es₁ with
  | done | stop | off | refuse => exact absurd split nothing
  | proceed go _ ih => exact (ih split).step (p := []) (.proceed go)
  | fresh made _ ih => exact (ih split).step (p := []) (.fresh made)
  | build g _ ih => exact (ih split).step (p := []) (.build g)
  | note noted _ ih => exact (ih split).step (p := []) (.note noted)
  | count counted _ ih => exact (ih split).step (p := []) (.count counted)
  | record noted _ ih => exact (ih split).step (p := []) (.record noted)
  | meter _ ih => exact (ih split).step (p := []) .meter
  | raise _ ih =>
    obtain ⟨es₁, rfl, rfl⟩ := exists_of_cons_eq_append split nofun
    exact (ih rfl).step (p := [_]) .raise
  | pass go _ ih =>
    cases es₁ with
    | nil =>
      cases split
      exact Point.late_ask go
    | cons e es₁ =>
      obtain ⟨rfl, rfl⟩ := List.cons.inj split
      exact (ih rfl).step (p := [_]) (.pass go)
  | start _ ih =>
    obtain ⟨es₁, rfl, rfl⟩ := exists_of_cons_eq_append split nofun
    exact (ih rfl).step (p := [_]) .start
  | reply possible answer _ ih =>
    obtain ⟨es₁, rfl, rfl⟩ := exists_of_cons_eq_append split nofun
    exact (ih rfl).step (p := [_]) (.reply possible answer)
  | fail =>
    obtain ⟨es₁, -, split⟩ := exists_of_cons_eq_append split nofun
    exact absurd split nothing

/-! ## 3. One dialogue after another -/

/-- Goes on with the result. -/
def Point.bind : Point β → (β → Dialogue α) → Point α
  | .before e, g => .before (e >>= g)
  | .asking phase f k, g => .asking phase f fun b => k b >>= g

/-- A course that ends early before the second dialogue, or goes on to it. -/
def Divides (T : Tableau) (replies : Replies σ) (y : Point β) (g : β → Dialogue α)
    (s : Session σ) (es : List Happening) (r : Except Halt α) (s' : Session σ) : Prop :=
  (∃ h, r = .error h ∧ Course T replies y s es (.error h) s') ∨
    ∃ b s₁ es₁ es₂, es = es₁ ++ es₂ ∧ Course T replies y s es₁ (.ok b) s₁ ∧
      Course T replies (.before (g b)) s₁ es₂ r s'

section Divides

variable {y y' : Point β} {g : β → Dialogue α} {b : β} {p : List Happening}

theorem divides_done (hd : Dialogue.done b >>= g = d)
    (course : Course T replies (.before d) s es r s') :
    Divides T replies (.before (.done b)) g s es r s' := by
  subst hd
  exact .inr ⟨b, s, [], es, rfl, .done b s, course⟩

theorem divides_error {h : Halt} (course : Course T replies y s es (.error h) s') :
    Divides T replies y g s es (.error h) s' :=
  .inl ⟨h, rfl, course⟩

/-- Steps before the first dialogue. -/
theorem Divides.step (divides : Divides T replies y' g s₁ es r s')
    (first : ∀ {es : List Happening} {r : Except Halt β} {s' : Session σ},
      Course T replies y' s₁ es r s' → Course T replies y s (p ++ es) r s') :
    Divides T replies y g s (p ++ es) r s' := by
  rcases divides with ⟨h, rfl, course⟩ | ⟨b, s₂, es₁, es₂, rfl, course, rest⟩
  · exact .inl ⟨h, rfl, first course⟩
  · exact .inr ⟨b, s₂, p ++ es₁, es₂, (List.append_assoc ..).symm, first course, rest⟩

/-- **Every course of two dialogues divides.** -/
theorem Course.divides (course : Course T replies (y.bind g) s es r s') :
    Divides T replies y g s es r s' := by
  generalize hx : y.bind g = x at course
  induction course generalizing y with
  | raise _ ih => exact (ih hx).step (p := [.raised]) .raise
  | done a s =>
    cases y with
    | asking => cases hx
    | before e =>
      cases e with
      | done b => exact divides_done (Point.before.inj hx) (.done a s)
      | _ => cases hx
  | stop h s =>
    cases y with
    | asking => cases hx
    | before e =>
      cases e with
      | done b => exact divides_done (Point.before.inj hx) (.stop h s)
      | stop h' =>
        cases hx
        exact divides_error (.stop h s)
      | _ => cases hx
  | proceed go rest ih =>
    cases y with
    | asking => cases hx
    | before e =>
      cases e with
      | done b => exact divides_done (Point.before.inj hx) (.proceed go rest)
      | proceed e =>
        cases hx
        exact (ih rfl).step (p := []) (.proceed go)
      | _ => cases hx
  | off halt =>
    cases y with
    | asking => cases hx
    | before e =>
      cases e with
      | done b => exact divides_done (Point.before.inj hx) (.off halt)
      | proceed e =>
        cases hx
        exact divides_error (.off halt)
      | _ => cases hx
  | fresh made rest ih =>
    cases y with
    | asking => cases hx
    | before e =>
      cases e with
      | done b => exact divides_done (Point.before.inj hx) (.fresh made rest)
      | fresh k =>
        cases hx
        exact (ih rfl).step (p := []) (.fresh made)
      | _ => cases hx
  | build f rest ih =>
    cases y with
    | asking => cases hx
    | before e =>
      cases e with
      | done b => exact divides_done (Point.before.inj hx) (.build f rest)
      | build f' e =>
        cases hx
        exact (ih rfl).step (p := []) (.build f)
      | _ => cases hx
  | note noted rest ih =>
    cases y with
    | asking => cases hx
    | before e =>
      cases e with
      | done b => exact divides_done (Point.before.inj hx) (.note noted rest)
      | note x e =>
        cases hx
        exact (ih rfl).step (p := []) (.note noted)
      | _ => cases hx
  | pass go rest ih =>
    cases y with
    | asking => cases hx
    | before e =>
      cases e with
      | done b => exact divides_done (Point.before.inj hx) (.pass go rest)
      | ask f k =>
        cases hx
        exact (ih rfl).step (p := [_]) (.pass go)
      | _ => cases hx
  | refuse halt =>
    cases y with
    | asking => cases hx
    | before e =>
      cases e with
      | done b => exact divides_done (Point.before.inj hx) (.refuse halt)
      | ask f k =>
        cases hx
        exact divides_error (.refuse halt)
      | _ => cases hx
  | count counted _ ih =>
    cases y with
    | before e => cases hx
    | asking =>
      cases hx
      exact (ih rfl).step (p := []) (.count counted)
  | record noted _ ih =>
    cases y with
    | before e => cases hx
    | asking =>
      cases hx
      exact (ih rfl).step (p := []) (.record noted)
  | start _ ih =>
    cases y with
    | before e => cases hx
    | asking =>
      cases hx
      exact (ih rfl).step (p := [_]) .start
  | reply possible answer _ ih =>
    cases y with
    | before e => cases hx
    | asking =>
      cases hx
      exact (ih rfl).step (p := [_]) (.reply possible answer)
  | fail possible answer =>
    cases y with
    | before e => cases hx
    | asking =>
      cases hx
      exact divides_error (.fail possible answer)
  | meter rest ih =>
    cases y with
    | asking => cases hx
    | before e =>
      cases e with
      | done b => exact divides_done (Point.before.inj hx) (.meter rest)
      | meter k =>
        cases hx
        exact (ih rfl).step (p := []) .meter
      | _ => cases hx

end Divides

end CtlTableau.Tableau
