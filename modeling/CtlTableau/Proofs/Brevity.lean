import CtlTableau.Proofs.RoundTrip

/-!
# No text of a formula is shorter than the printed one

The printer writes the fewest tokens that the parser reads as the formula (`text_shortest`). At every
level of the grammar a derivation has at least the tokens that are printed where this level may stand
(`Derives.length_tokensAt_le`): a rule that goes from a level to a tighter one asks for no token, and
printing asks for a pair of brackets at most, which is what the rule for brackets has.

So a pair of brackets cannot be taken out of the printed text. Here the tokens of the text that is left
have to be counted: to put texts together merges tokens at the seam, and makes no new ones
(`exists_written_append`).
-/

namespace CtlTableau

open Text

/-! ## 1. Texts put together and taken apart -/

variable {cs ds : List Char} {us vs ts : List String} {x : String} {c : Char}

theorem Written.unique (h : Written cs us) (h' : Written cs vs) : us = vs := by
  have e := tokensFrom_eq_ok_iff (n := 0).2 h
  rw [tokensFrom_eq_ok_iff.2 h'] at e
  cases e
  rfl

theorem isIdentifier_append {y : String} (hx : isIdentifier x = true) (hy : isIdentifier y = true) :
    isIdentifier (x ++ y) = true := by
  obtain ⟨c, cs, hx, hc, hcs⟩ := isIdentifier_iff.1 hx
  obtain ⟨d, ds, hy, hd, hds⟩ := isIdentifier_iff.1 hy
  refine isIdentifier_iff.2 ⟨c, cs ++ d :: ds, ?_, hc, fun e he => ?_⟩
  · rw [String.toList_append, hx, hy, List.cons_append]
  · rcases List.mem_append.1 he with he | he
    · exact hcs e he
    · rcases List.mem_cons.1 he with rfl | he
      · exact hd
      · exact hds e he

/-- A word before a text is one token more, or goes on in the first token of the text. -/
theorem exists_written_word (hx : isIdentifier x = true) (h : Written ds vs) :
    ∃ ts, Written (x.toList ++ ds) ts ∧ ts.length ≤ vs.length + 1 := by
  by_cases hds : ∀ c ∈ ds.head?, isWordChar c = false
  · exact ⟨x :: vs, .word hx hds h, Nat.le_refl _⟩
  · cases h with
    | nil => exact absurd nofun hds
    | @blank c _ _ hc h =>
      refine absurd (fun d hd => ?_) hds
      cases hd
      rw [← Bool.not_eq_true]
      intro hword
      rw [isBlank_of_isWordChar hword] at hc
      cases hc
    | @word y cs vs hy hcs h =>
      refine ⟨(x ++ y) :: vs, ?_, Nat.le_succ _⟩
      rw [← List.append_assoc, ← String.toList_append]
      exact .word (isIdentifier_append hx hy) hcs h
    | symbol hy h =>
      refine absurd ?_ hds
      simp only [symbols, List.mem_cons, List.not_mem_nil, or_false] at hy
      rcases hy with rfl | rfl | rfl | rfl | rfl | rfl | rfl <;>
        exact Formula.ended_of_head (by decide)

/-- **Texts put together have no more tokens than they have one by one.** -/
theorem exists_written_append (h : Written cs us) (h' : Written ds vs) :
    ∃ ts, Written (cs ++ ds) ts ∧ ts.length ≤ us.length + vs.length := by
  induction h with
  | nil => exact ⟨vs, h', Nat.le_add_left _ _⟩
  | blank hc _ ih =>
    obtain ⟨ts, hts, hle⟩ := ih
    exact ⟨ts, .blank hc hts, hle⟩
  | @word x cs us hx hcs _ ih =>
    obtain ⟨ts, hts, hle⟩ := ih
    rw [List.append_assoc]
    cases cs with
    | nil =>
      -- the word may go on in the second text
      obtain ⟨ts', hts', hle'⟩ := exists_written_word hx hts
      exact ⟨ts', hts', by rw [List.length_cons]; omega⟩
    | cons c cs =>
      exact ⟨x :: ts, .word hx hcs hts, by rw [List.length_cons, List.length_cons]; omega⟩
  | symbol hx _ ih =>
    obtain ⟨ts, hts, hle⟩ := ih
    rw [List.append_assoc]
    exact ⟨_ :: ts, .symbol hx hts, by rw [List.length_cons, List.length_cons]; omega⟩

/-- The character is a token wherever it stands. -/
structure Separates (c : Char) : Prop where
  notBlank : isBlank c = false
  notWord : isWordChar c = false
  alone : ∀ x ∈ symbols, c ∈ x.toList → x.toList = [c]

/-- A text starts with a piece that holds the character, or with one that ends before it. -/
theorem append_cons_eq_append {es rest : List Char} (h : cs ++ c :: ds = es ++ rest) :
    (∃ m, es = cs ++ c :: m ∧ ds = m ++ rest) ∨ ∃ m, cs = es ++ m ∧ rest = m ++ c :: ds := by
  rcases List.append_eq_append_iff.1 h with ⟨m, rfl, e⟩ | ⟨m, rfl, e⟩
  · cases m with
    | nil => exact Or.inr ⟨[], by simp, e.symm⟩
    | cons d m =>
      cases e
      exact Or.inl ⟨m, rfl, rfl⟩
  · exact Or.inr ⟨m, rfl, e⟩

/-- Such a character takes a text apart into two. -/
theorem Written.divides (hc : Separates c) (h : Written (cs ++ c :: ds) ts) :
    ∃ us vs, Written cs us ∧ Written ds vs ∧ ts = us ++ String.singleton c :: vs := by
  generalize hs : cs ++ c :: ds = s at h
  induction h generalizing cs with
  | nil => simp at hs
  | blank hb h ih =>
    cases cs with
    | nil =>
      cases hs
      rw [hc.notBlank] at hb
      cases hb
    | cons b cs =>
      cases hs
      obtain ⟨us, vs, hus, hvs, rfl⟩ := ih rfl
      exact ⟨us, vs, .blank hb hus, hvs, rfl⟩
  | @word x _ _ hx hend h ih =>
    rcases append_cons_eq_append hs with ⟨m, e, -⟩ | ⟨m, rfl, rfl⟩
    · -- no word holds the character
      obtain ⟨d, ds, e', hd, hds⟩ := isIdentifier_iff.1 hx
      have word : isWordChar c = true := by
        have mem : c ∈ d :: ds := e' ▸ e ▸ List.mem_append_right cs List.mem_cons_self
        rcases List.mem_cons.1 mem with rfl | mem
        · exact hd
        · exact hds c mem
      rw [hc.notWord] at word
      cases word
    · obtain ⟨us, vs, hus, hvs, rfl⟩ := ih rfl
      refine ⟨x :: us, vs, .word hx (fun d hd => hend d ?_) hus, hvs, rfl⟩
      cases m with
      | nil => cases hd
      | cons d' m => exact hd
  | @symbol x _ _ hx h ih =>
    rcases append_cons_eq_append hs with ⟨m, e, rfl⟩ | ⟨m, rfl, rfl⟩
    · have single := hc.alone x hx (e ▸ List.mem_append_right cs List.mem_cons_self)
      rw [single] at e
      obtain rfl : cs = [] := by
        cases cs with
        | nil => rfl
        | cons _ _ => simp at e
      cases e
      refine ⟨[], _, .nil, h, ?_⟩
      rw [← String.toList_inj.1 (single.trans (String.toList_singleton c).symm)]
      rfl
    · obtain ⟨us, vs, hus, hvs, rfl⟩ := ih rfl
      exact ⟨x :: us, vs, .symbol hx hus, hvs, rfl⟩

theorem separates_open : Separates '(' := ⟨by decide, by decide, by decide⟩

theorem separates_close : Separates ')' := ⟨by decide, by decide, by decide⟩

namespace Formula

open CtlTableau.Parser

variable {f p q : Formula} {u v : List String} {k k' : Nat} {l : Level}

/-! ## 2. The tokens that are printed -/

theorem length_tokensBracketedIf (b : Bool) (u : List String) :
    (tokensBracketedIf b u).length = u.length + 2 * b.toNat := by
  cases b <;> simp [tokensBracketedIf]

/-- A place that needs more strength may ask for a pair of brackets. -/
theorem length_tokensAt_mono (f : Formula) (hk : k ≤ k') :
    (f.tokensAt k).length ≤ (f.tokensAt k').length := by
  cases f with
  | atom x => exact Nat.le_refl _
  | unary op p => cases op <;> exact Nat.le_refl _
  | binary op p q =>
    rw [tokensAt, tokensAt]
    split
    · next fix _ =>
      have weaker : (decide (fix.own < k)).toNat ≤ (decide (fix.own < k')).toNat := by
        by_cases h : fix.own < k
        · rw [decide_eq_true h, decide_eq_true (Nat.lt_of_lt_of_le h hk)]
        · rw [decide_eq_false h]
          exact Nat.zero_le _
      rw [length_tokensBracketedIf, length_tokensBracketedIf]
      omega
    · exact Nat.le_refl _
  | quant kind x p => exact Nat.le_refl _

/-- A pair of brackets is all that a place asks for. -/
theorem length_tokensAt_le (f : Formula) (k : Nat) :
    (f.tokensAt k).length ≤ (f.tokensAt 0).length + 2 := by
  cases f with
  | atom x => exact Nat.le_add_right _ _
  | unary op p => cases op <;> exact Nat.le_add_right _ _
  | binary op p q =>
    rw [tokensAt, tokensAt]
    split
    · next fix _ =>
      have := Bool.toNat_le (decide (fix.own < k))
      rw [length_tokensBracketedIf, length_tokensBracketedIf]
      omega
    · exact Nat.le_add_right _ _
  | quant kind x p => exact Nat.le_add_right _ _

/-! ## 3. Derivations have no fewer tokens -/

/-- The strength that a place needs where formulas of the level stand without brackets. -/
def Level.strength : Level → Nat
  | .formula => 1
  | .disjunction => 2
  | .conjunction => 3
  | .unit => tightest

theorem fixity?_of_ofKeyword? {w : String} {op : BinaryOp}
    (h : BinaryOp.ofKeyword? w = some op) : op.fixity? = none := by
  have mem := List.mem_of_find?_eq_some h
  simp only [List.mem_cons, List.not_mem_nil, or_false] at mem
  rcases mem with rfl | rfl | rfl | rfl <;> rfl

theorem ne_not_of_ofKeyword? {w : String} {op : UnaryOp}
    (h : UnaryOp.ofKeyword? w = some op) : op ≠ .not := by
  rintro rfl
  exact absurd (List.mem_of_find?_eq_some h) (by decide)

/-- **A derivation at a level has the tokens that are printed there, at least.** -/
theorem Derives.length_tokensAt_le (h : Derives l f u) :
    (f.tokensAt l.strength).length ≤ u.length := by
  have loose : ∀ (g : Formula) (v : List String), (g.tokensAt 1).length ≤ v.length →
      (g.tokensAt 0).length ≤ v.length := fun g v hv =>
    Nat.le_trans (length_tokensAt_mono g (Nat.zero_le 1)) hv
  induction h with
  | not hp ih => exact Nat.succ_le_succ ih
  | @brackets f u hf ih =>
    have enclosed := Formula.length_tokensAt_le f tightest
    have inner := loose f u ih
    simp only [List.length_cons, List.length_append, List.length_nil, Level.strength]
    omega
  | atom hx => exact Nat.le_refl _
  | @unary w op p u hw hp ih =>
    have inner := loose p u ih
    rw [tokensAt_unary (ne_not_of_ofKeyword? hw)]
    simp only [List.length_cons, List.length_append]
    omega
  | @binary w op p q u v hw hp hq ihp ihq =>
    have first := loose p u ihp
    have second := loose q v ihq
    simp only [tokensAt, fixity?_of_ofKeyword? hw, List.length_cons, List.length_append]
    omega
  | @quant w k x p u v hw hx hp ih =>
    have inner := loose p v ih
    have name := List.length_pos_iff.2 (binder_iff.1 hx).1.ne_nil
    simp only [tokensAt, List.length_cons, List.length_append]
    omega
  | ofUnit h ih => exact Nat.le_trans (length_tokensAt_mono _ (by decide)) ih
  | ofConjunction h ih => exact Nat.le_trans (length_tokensAt_mono _ (by decide)) ih
  | ofDisjunction h ih => exact Nat.le_trans (length_tokensAt_mono _ (by decide)) ih
  | and hp hq ihp ihq | or hp hq ihp ihq | imp hp hq ihp ihq =>
    rw [List.length_append, List.length_cons]
    refine Nat.le_trans (Nat.le_of_eq ?_) (Nat.add_le_add ihp (Nat.succ_le_succ ihq))
    exact List.length_append

/-! ## 4. The printed text -/

/-- The tokens of the text of a formula that can be read. -/
theorem written_text (hf : f.Printable) : Written f.text.toList (f.tokensAt 0) := by
  have written := writes_textAt hf.names 0 [] [] nofun .nil
  rwa [List.append_nil, List.append_nil] at written

/-- Tokens that are read as a formula are no fewer than the printed ones. -/
theorem Derives.length_le (h : Derives .formula f u) : (f.tokensAt 0).length ≤ u.length :=
  Nat.le_trans (length_tokensAt_mono f (Nat.zero_le 1)) h.length_tokensAt_le

/-- **The printed text has the fewest tokens.** Whatever tokens the parser reads as a formula, with
    nothing left, the lexer finds no more in the text of the formula. And whoever takes an opening
    and a closing bracket out of the text has no text of the formula any more. -/
theorem text_shortest (f : Formula) :
    (∀ ts, parser.run ts = .ok (f, []) → ∃ us, tokenize f.text = .ok us ∧ us.length ≤ ts.length) ∧
    ∀ before between after, f.text.toList = before ++ '(' :: (between ++ ')' :: after) →
      parse (String.ofList (before ++ (between ++ after))) ≠ .ok f := by
  refine ⟨fun ts hrun => ?_, fun before between after htext hparse => ?_⟩
  · obtain ⟨u, rfl, hf, -⟩ := run_parser_iff.1 hrun
    refine ⟨f.tokensAt 0, tokensFrom_eq_ok_iff.2 (written_text hf.printable), ?_⟩
    rw [List.append_nil]
    exact hf.length_le
  · obtain ⟨ts, hts, hf⟩ := parse_eq_ok_iff.1 hparse
    have printed := written_text hf.printable
    rw [htext] at printed
    obtain ⟨us, rest, hus, hrest, e⟩ := printed.divides separates_open
    obtain ⟨vs, ws, hvs, hws, rfl⟩ := hrest.divides separates_close
    obtain ⟨vws, hvws, hle⟩ := exists_written_append hvs hws
    obtain ⟨ts', hts', hle'⟩ := exists_written_append hus hvws
    rw [String.toList_ofList] at hts
    rw [hts.unique hts'] at hf
    have shortest := hf.length_le
    rw [e] at shortest
    simp only [List.length_append, List.length_cons] at shortest
    omega

/-- Brackets around the whole, around a name and around the weaker argument: the first two pairs are
    not printed, and the last one cannot be left out. -/
theorem text_shortest_conjunction :
    parser.run ["(", "(", "p", ")", "&", "(", "q", "|", "r", ")", ")"] =
      .ok (.and (.atom "p") (.or (.atom "q") (.atom "r")), []) ∧
    "p & (q | r)".toList = "p & ".toList ++ '(' :: ("q | r".toList ++ ')' :: []) ∧
    (∃ us, tokenize "p & (q | r)" = .ok us ∧ us.length ≤ 11) ∧
    parse "p & q | r" ≠ .ok (.and (.atom "p") (.or (.atom "q") (.atom "r"))) := by
  have name : ∀ x, isName x = true → Derives .unit (.atom x) [x] := fun _ => .atom
  have disjunction : Derives .formula (.or (.atom "q") (.atom "r")) ["q", "|", "r"] :=
    (Derives.or (.ofConjunction (.ofUnit (name "q" rfl))) (.ofUnit (name "r" rfl))).toFormula
  have conjunction : Derives .formula (.and (.atom "p") (.or (.atom "q") (.atom "r")))
      ["(", "p", ")", "&", "(", "q", "|", "r", ")"] :=
    (Derives.and (.ofUnit (.brackets (name "p" rfl).toFormula)) (.brackets disjunction)).toFormula
  have read : parser.run ["(", "(", "p", ")", "&", "(", "q", "|", "r", ")", ")"] =
      .ok (.and (.atom "p") (.or (.atom "q") (.atom "r")), []) :=
    run_parser_iff.2 ⟨_, rfl, (Derives.brackets conjunction).toFormula, nofun⟩
  have text : text (.and (.atom "p") (.or (.atom "q") (.atom "r"))) = "p & (q | r)" := by decide
  have apart : "p & (q | r)".toList = "p & ".toList ++ '(' :: ("q | r".toList ++ ')' :: []) := by
    decide
  obtain ⟨fewest, needed⟩ := text_shortest (.and (.atom "p") (.or (.atom "q") (.atom "r")))
  rw [text] at fewest needed
  exact ⟨read, apart, fewest _ read, needed _ _ _ apart⟩

end Formula

end CtlTableau
