import CtlTableau.Proofs.Boolean
import CtlTableau.Proofs.Grammar
import CtlTableau.Proofs.Lexing

/-!
# Reading what was written

A formula is read back from its text if its names can be read at all, and the parser returns no
other formulas (`parse_text`). The text is told from its tokens twice: they are written in it
(`writes_textAt`), and they derive the formula at the level that the strength of their place demands
(`derives_tokensAt`). The lexer and the parser find nothing else, by what is known of them for any
text and any tokens.
-/

namespace CtlTableau

/-! ## 1. Operators and their words -/

theorem UnaryOp.ofKeyword?_symbol {op : UnaryOp} (h : op ≠ .not) :
    UnaryOp.ofKeyword? op.symbol = some op := by
  cases op <;> first | exact absurd rfl h | decide

theorem BinaryOp.ofKeyword?_symbol {op : BinaryOp} (h : op.fixity? = none) :
    BinaryOp.ofKeyword? op.symbol = some op := by
  cases op <;> first | exact absurd h (by decide) | decide

theorem Quantifier.ofKeyword?_symbol (k : Quantifier) :
    Quantifier.ofKeyword? k.symbol = some k := by
  cases k <;> decide

theorem UnaryOp.isIdentifier_symbol {op : UnaryOp} (h : op ≠ .not) :
    isIdentifier op.symbol = true := by
  cases op <;> first | exact absurd rfl h | decide

theorem BinaryOp.isIdentifier_symbol {op : BinaryOp} (h : op.fixity? = none) :
    isIdentifier op.symbol = true := by
  cases op <;> first | exact absurd h (by decide) | decide

theorem BinaryOp.symbol_mem_symbols {op : BinaryOp} {fix : Fixity}
    (h : op.fixity? = some fix) : op.symbol ∈ symbols := by
  cases op <;> cases h <;> decide

theorem Quantifier.isIdentifier_symbol (k : Quantifier) : isIdentifier k.symbol = true := by
  cases k <;> decide

namespace Formula

open CtlTableau.Parser

/-! ## 2. Printable formulas and their tokens -/

/-- All names are names to the parser, and no quantifier binds the constant. -/
structure Printable (f : Formula) : Prop where
  names : ∀ x ∈ f.names, isName x = true
  binders : trueName ∉ f.boundNames

instance (f : Formula) : Decidable f.Printable :=
  decidable_of_iff ((∀ x ∈ f.names, isName x = true) ∧ trueName ∉ f.boundNames)
    ⟨fun h => ⟨h.1, h.2⟩, fun h => ⟨h.names, h.binders⟩⟩

/-- Brackets tokens if asked to. -/
def tokensBracketedIf (b : Bool) (ts : List String) : List String :=
  if b then "(" :: (ts ++ [")"]) else ts

/-- The tokens of a formula at a place that needs the given strength. -/
def tokensAt (strength : Nat) : Formula → List String
  | .atom x => [x]
  | .unary .not p => "~" :: p.tokensAt tightest
  | .unary op p => op.symbol :: "(" :: (p.tokensAt 0 ++ [")"])
  | .binary op p q =>
    match op.fixity? with
    | some fix => tokensBracketedIf (fix.own < strength)
        (p.tokensAt fix.left ++ op.symbol :: q.tokensAt fix.right)
    | none => op.symbol :: "(" :: (p.tokensAt 0 ++ "," :: (q.tokensAt 0 ++ [")"]))
  | .quant k x p => k.symbol :: "(" :: x :: "," :: (p.tokensAt 0 ++ [")"])

/-- The level of the formulas that stand without brackets where the strength is needed. -/
def Level.ofStrength : Nat → Level
  | 0 | 1 => .formula
  | 2 => .disjunction
  | 3 => .conjunction
  | _ => .unit

variable {f p q : Formula} {u v ts : List String} {x : String} {op : BinaryOp} {fix : Fixity}
  {k n : Nat}

theorem textAt_unary {op : UnaryOp} (h : op ≠ .not) :
    (Formula.unary op p).textAt k = op.symbol ++ "(" ++ p.textAt 0 ++ ")" := by
  cases op <;> first | exact absurd rfl h | rfl

theorem tokensAt_unary {op : UnaryOp} (h : op ≠ .not) :
    (Formula.unary op p).tokensAt k = op.symbol :: "(" :: (p.tokensAt 0 ++ [")"]) := by
  cases op <;> first | exact absurd rfl h | rfl

theorem Printable.unary {op : UnaryOp} (h : (Formula.unary op p).Printable) : p.Printable :=
  ⟨h.names, h.binders⟩

theorem printable_binary_iff :
    (Formula.binary op p q).Printable ↔ p.Printable ∧ q.Printable := by
  constructor
  · rintro ⟨names, binders⟩
    rw [boundNames, List.mem_append, not_or] at binders
    exact ⟨⟨fun x hx => names x (List.mem_append_left _ hx), binders.1⟩,
      ⟨fun x hx => names x (List.mem_append_right _ hx), binders.2⟩⟩
  · rintro ⟨hp, hq⟩
    refine ⟨fun x hx => ?_, ?_⟩
    · exact (List.mem_append.1 hx).elim (hp.names x) (hq.names x)
    · rw [boundNames, List.mem_append]
      exact not_or.2 ⟨hp.binders, hq.binders⟩

theorem printable_quant_iff {k : Quantifier} :
    (Formula.quant k x p).Printable ↔ isName x = true ∧ x ≠ trueName ∧ p.Printable := by
  constructor
  · rintro ⟨names, binders⟩
    rw [boundNames, List.mem_cons, not_or] at binders
    exact ⟨names x List.mem_cons_self, fun e => binders.1 e.symm,
      fun y hy => names y (List.mem_cons_of_mem _ hy), binders.2⟩
  · rintro ⟨hx, hne, hp⟩
    refine ⟨List.forall_mem_cons.2 ⟨hx, hp.names⟩, ?_⟩
    rw [boundNames, List.mem_cons]
    exact not_or.2 ⟨fun e => hne e.symm, hp.binders⟩

/-! ## 3. The tokens derive the formula -/

theorem Derives.ofStrength_of_succ (h : Derives (.ofStrength (n + 1)) f u) :
    Derives (.ofStrength n) f u := by
  match n with
  | 0 => exact h
  | 1 => exact .ofDisjunction h
  | 2 => exact .ofConjunction h
  | 3 => exact .ofUnit h
  | n + 4 => exact h

/-- Tokens that stand where much strength is needed stand where less is. -/
theorem Derives.ofStrength_of_le (h : Derives (.ofStrength n) f u) (hk : k ≤ n) :
    Derives (.ofStrength k) f u := by
  induction hk with
  | refl => exact h
  | step _ ih => exact ih h.ofStrength_of_succ

theorem Derives.ofStrength_of_unit (h : Derives .unit f u) : Derives (.ofStrength k) f u :=
  Derives.ofStrength_of_le (show Derives (.ofStrength (k + 4)) f u from h) (Nat.le_add_right k 4)

/-- With brackets where they are needed, a formula stands at any place. -/
theorem Derives.bracketedIf (h : Derives (.ofStrength n) f u) :
    Derives (.ofStrength k) f (tokensBracketedIf (n < k) u) := by
  by_cases hk : n < k
  · rw [tokensBracketedIf, if_pos (decide_eq_true hk)]
    exact (Derives.brackets h.toFormula).ofStrength_of_unit
  · rw [tokensBracketedIf, if_neg (by simpa using hk)]
    exact h.ofStrength_of_le (Nat.le_of_not_lt hk)

/-- The strengths that the printer demands are the levels that the grammar demands. -/
theorem Derives.connective (h : op.fixity? = some fix) (hp : Derives (.ofStrength fix.left) p u)
    (hq : Derives (.ofStrength fix.right) q v) :
    Derives (.ofStrength fix.own) (.binary op p q) (u ++ op.symbol :: v) := by
  cases op with
  | imp => cases h; exact .imp hp hq
  | or => cases h; exact .or hp hq
  | and => cases h; exact .and hp hq
  | _ => cases h

/-- The tokens of a printable formula derive it, at any place. -/
theorem derives_tokensAt (hf : f.Printable) (k : Nat) :
    Derives (.ofStrength k) f (f.tokensAt k) := by
  induction f generalizing k with
  | atom x => exact (Derives.atom (hf.names x List.mem_cons_self)).ofStrength_of_unit
  | unary op p ih =>
    by_cases hop : op = .not
    · subst hop
      exact (Derives.not (ih hf.unary tightest)).ofStrength_of_unit
    · rw [tokensAt_unary hop]
      exact (Derives.unary (UnaryOp.ofKeyword?_symbol hop) (ih hf.unary 0)).ofStrength_of_unit
  | binary op p q ihp ihq =>
    obtain ⟨hp, hq⟩ := printable_binary_iff.1 hf
    rw [tokensAt]
    cases hop : op.fixity? with
    | some fix => exact (Derives.connective hop (ihp hp fix.left) (ihq hq fix.right)).bracketedIf
    | none =>
      exact (Derives.binary (BinaryOp.ofKeyword?_symbol hop) (ihp hp 0)
        (ihq hq 0)).ofStrength_of_unit
  | quant kind x p ih =>
    obtain ⟨hx, hne, hp⟩ := printable_quant_iff.1 hf
    exact (Derives.quant kind.ofKeyword?_symbol (.name hx hne) (ih hp 0)).ofStrength_of_unit

theorem Binder.isName (h : Binder x u) : isName x = true ∧ x ≠ trueName := by
  induction h with
  | name hx hne => exact ⟨hx, hne⟩
  | brackets _ ih => exact ih

/-- Only printable formulas are derived. -/
theorem Derives.printable {l : Level} (h : Derives l f u) : f.Printable := by
  induction h with
  | atom hx => exact ⟨List.forall_mem_singleton.2 hx, List.not_mem_nil⟩
  | not _ ih => exact ⟨ih.names, ih.binders⟩
  | unary _ _ ih => exact ⟨ih.names, ih.binders⟩
  | binary _ _ _ ihp ihq => exact printable_binary_iff.2 ⟨ihp, ihq⟩
  | and _ _ ihp ihq => exact printable_binary_iff.2 ⟨ihp, ihq⟩
  | or _ _ ihp ihq => exact printable_binary_iff.2 ⟨ihp, ihq⟩
  | imp _ _ ihp ihq => exact printable_binary_iff.2 ⟨ihp, ihq⟩
  | quant _ hx _ ih =>
    exact printable_quant_iff.2 ⟨hx.isName.1, hx.isName.2, ih⟩
  | brackets _ ih => exact ih
  | ofUnit _ ih => exact ih
  | ofConjunction _ ih => exact ih
  | ofDisjunction _ ih => exact ih

/-! ## 4. The tokens are written in the text -/

/-- The tokens are written in the text, whatever follows it: only a word may not go on there. -/
def Writes (s : String) (us : List String) : Prop :=
  ∀ cs ts, (∀ c ∈ cs.head?, isWordChar c = false) → Written cs ts →
    Written (s.toList ++ cs) (us ++ ts)

/-- A word ends before a character that belongs to none. -/
theorem ended_of_head {c : Char} {cs : List Char} (hc : isWordChar c = false) :
    ∀ d ∈ (c :: cs).head?, isWordChar d = false := by
  intro d hd
  cases hd
  exact hc

theorem writes_word (hx : isIdentifier x = true) : Writes x [x] := fun _ _ hcs h =>
  .word hx hcs h

theorem Writes.negation {s : String} (hs : Writes s u) : Writes ("~" ++ s) ("~" :: u) := by
  intro cs ts hcs h
  rw [String.toList_append, List.append_assoc]
  exact .symbol (by decide) (hs cs ts hcs h)

theorem Writes.brackets {s : String} (hs : Writes s u) :
    Writes ("(" ++ s ++ ")") ("(" :: (u ++ [")"])) := by
  intro cs ts _ h
  have close : Written (")".toList ++ cs) (")" :: ts) := .symbol (by decide) h
  have body := hs _ _ (ended_of_head (by decide)) close
  rw [String.toList_append, String.toList_append, List.append_assoc, List.append_assoc,
    List.cons_append, List.append_assoc]
  exact .symbol (by decide) body

/-- A word may stand right before a bracket. -/
theorem Writes.call {s w : String} (hw : isIdentifier w = true) (hs : Writes s u) :
    Writes (w ++ "(" ++ s ++ ")") (w :: "(" :: (u ++ [")"])) := by
  intro cs ts hcs h
  have arguments := hs.brackets cs ts hcs h
  simp only [String.toList_append, List.append_assoc] at arguments ⊢
  exact .word hw (ended_of_head (by decide)) arguments

theorem Writes.comma {s t : String} (hs : Writes s u) (ht : Writes t v) :
    Writes (s ++ ", " ++ t) (u ++ "," :: v) := by
  intro cs ts hcs h
  have after : Written (", ".toList ++ (t.toList ++ cs)) ("," :: (v ++ ts)) :=
    .symbol (by decide : "," ∈ symbols) (.blank (by decide) (ht cs ts hcs h))
  rw [String.toList_append, String.toList_append, List.append_assoc, List.append_assoc,
    List.append_assoc]
  exact hs _ _ (ended_of_head (by decide)) after

theorem Writes.connective {s t : String} (hx : x ∈ symbols) (hs : Writes s u) (ht : Writes t v) :
    Writes (s ++ " " ++ x ++ " " ++ t) (u ++ x :: v) := by
  intro cs ts hcs h
  have after : Written (" ".toList ++ (x.toList ++ (" ".toList ++ (t.toList ++ cs))))
      (x :: (v ++ ts)) :=
    .blank (by decide) (.symbol hx (.blank (by decide) (ht cs ts hcs h)))
  simp only [String.toList_append, List.append_assoc, List.cons_append]
  exact hs _ _ (ended_of_head (by decide)) after

theorem Writes.bracketedIf {s : String} (b : Bool) (hs : Writes s u) :
    Writes (bracketIf b s) (tokensBracketedIf b u) := by
  cases b with
  | false => exact hs
  | true => exact hs.brackets

/-- The text of a formula is that of its tokens, at any place. -/
theorem writes_textAt (hf : ∀ x ∈ f.names, isName x = true) (k : Nat) :
    Writes (f.textAt k) (f.tokensAt k) := by
  have identifier : ∀ {x}, isName x = true → isIdentifier x = true := fun hx =>
    (Bool.and_eq_true_iff.1 hx).1
  induction f generalizing k with
  | atom x => exact writes_word (identifier (hf x List.mem_cons_self))
  | unary op p ih =>
    by_cases hop : op = .not
    · subst hop
      exact (ih hf tightest).negation
    · rw [textAt_unary hop, tokensAt_unary hop]
      exact (ih hf 0).call (UnaryOp.isIdentifier_symbol hop)
  | binary op p q ihp ihq =>
    have hp := ihp fun x hx => hf x (List.mem_append_left _ hx)
    have hq := ihq fun x hx => hf x (List.mem_append_right _ hx)
    rw [textAt, tokensAt]
    cases hop : op.fixity? with
    | some fix =>
      exact ((hp fix.left).connective (BinaryOp.symbol_mem_symbols hop) (hq fix.right)).bracketedIf _
    | none =>
      have call := ((hp 0).comma (hq 0)).call (BinaryOp.isIdentifier_symbol hop)
      simpa only [String.append_assoc, List.append_assoc, List.cons_append] using call
  | quant kind x p ih =>
    have hx := writes_word (identifier (hf x List.mem_cons_self))
    have hp := ih (fun y hy => hf y (List.mem_cons_of_mem _ hy)) 0
    have call := (hx.comma hp).call kind.isIdentifier_symbol
    rw [textAt, tokensAt]
    simpa only [String.append_assoc, List.append_assoc, List.cons_append, List.nil_append]
      using call

/-! ## 5. Reading the text -/

/-- The parser reads a text as a formula if the tokens written in it derive the formula. -/
theorem parse_eq_ok_iff {s : String} :
    parse s = .ok f ↔ ∃ ts, Written s.toList ts ∧ Derives .formula f ts := by
  rw [parse, readAll, tokenize]
  constructor
  · intro h
    cases htokens : tokensFrom 0 s.toList with
    | error e =>
      rw [htokens] at h
      cases h
    | ok ts =>
      simp only [htokens] at h
      split at h
      · cases h
      · next g hrun =>
        cases h
        obtain ⟨u, rfl, hf, -⟩ := run_parser_iff.1 hrun
        rw [List.append_nil] at htokens
        exact ⟨u, tokensFrom_eq_ok_iff.1 htokens, hf⟩
      · cases h
  · rintro ⟨ts, hts, hf⟩
    have hrun : parser.run ts = .ok (f, []) :=
      run_parser_iff.2 ⟨ts, (List.append_nil ts).symm, hf, nofun⟩
    simp only [tokensFrom_eq_ok_iff.2 hts, hrun]

/-- **A printable formula is read back from its text**, and the parser returns printable formulas
    only, so that whatever it returns is read back too. -/
theorem parse_text (f : Formula) :
    (f.Printable → parse f.text = .ok f) ∧
    ∀ s, parse s = .ok f → f.Printable ∧ parse f.text = .ok f := by
  have back : f.Printable → parse f.text = .ok f := fun hf => by
    have written := writes_textAt hf.names 0 [] [] nofun .nil
    rw [List.append_nil, List.append_nil] at written
    exact parse_eq_ok_iff.2 ⟨_, written, derives_tokensAt hf 0⟩
  refine ⟨back, fun s h => ?_⟩
  obtain ⟨ts, -, hf⟩ := parse_eq_ok_iff.1 h
  exact ⟨hf.printable, back hf.printable⟩

/-- Brackets around a left argument of `->` and below `~`, none around a right argument of `|`, and a
    name that is both free and bound. -/
theorem parse_text_nested :
    parse "(p -> ~(q & r) | A(q, q)) -> AU(s, TRUE)" =
      .ok (.imp (.imp (.atom "p") (.or (.not (.and (.atom "q") (.atom "r"))) (.all "q" (.atom "q"))))
        (.au (.atom "s") truth)) ∧
    (Formula.imp (.imp (.atom "p") (.or (.not (.and (.atom "q") (.atom "r")))
      (.all "q" (.atom "q")))) (.au (.atom "s") truth)).Printable := by
  obtain ⟨back, only⟩ := parse_text (.imp (.imp (.atom "p")
    (.or (.not (.and (.atom "q") (.atom "r"))) (.all "q" (.atom "q")))) (.au (.atom "s") truth))
  have read := back (by decide +kernel)
  have text : text (.imp (.imp (.atom "p") (.or (.not (.and (.atom "q") (.atom "r")))
      (.all "q" (.atom "q")))) (.au (.atom "s") truth)) =
      "(p -> ~(q & r) | A(q, q)) -> AU(s, TRUE)" := by decide +kernel
  rw [text] at read
  exact ⟨read, (only _ read).1⟩

end Formula

end CtlTableau
