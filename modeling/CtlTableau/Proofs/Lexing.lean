import CtlTableau.Token
import Mathlib.Data.List.TakeWhile

/-!
# Written tokens

`Written` says how tokens may be written: words and symbols one after the other, blanks anywhere
between them, and no word before a character that could go on with it. The lexer returns tokens
exactly for the texts in which they are written (`tokensFrom_eq_ok_iff`), wherever a text starts.
-/

namespace CtlTableau

open Text

/-! ## 1. Texts in which tokens are written -/

/-- The characters are the tokens one after the other, with blanks between them. A word ends where
    no character of words follows. -/
inductive Written : List Char → List String → Prop where
  | nil : Written [] []
  | blank {c : Char} {cs : List Char} {ts : List String} (hc : isBlank c = true)
      (h : Written cs ts) : Written (c :: cs) ts
  | word {x : String} {cs : List Char} {ts : List String} (hx : isIdentifier x = true)
      (hcs : ∀ c ∈ cs.head?, isWordChar c = false) (h : Written cs ts) :
      Written (x.toList ++ cs) (x :: ts)
  | symbol {x : String} {cs : List Char} {ts : List String} (hx : x ∈ symbols)
      (h : Written cs ts) : Written (x.toList ++ cs) (x :: ts)

/-! ## 2. Characters of words -/

theorem toNat_of_isWordChar {c : Char} (h : isWordChar c = true) :
    48 ≤ c.toNat ∧ c.toNat ≤ 122 := by
  change (decide (65 ≤ c.val ∧ c.val ≤ 90) || decide (97 ≤ c.val) && decide (c.val ≤ 122) ||
    decide (48 ≤ c.val) && decide (c.val ≤ 57) || c == '_') = true at h
  simp only [Bool.or_eq_true, Bool.and_eq_true, decide_eq_true_eq, beq_iff_eq,
    UInt32.le_iff_toNat_le] at h
  change ((65 ≤ c.toNat ∧ c.toNat ≤ 90 ∨ 97 ≤ c.toNat ∧ c.toNat ≤ 122) ∨
    48 ≤ c.toNat ∧ c.toNat ≤ 57) ∨ c = '_' at h
  rcases h with ((h | h) | h) | rfl
  · omega
  · omega
  · omega
  · decide

/-- The characters of words are not blank. -/
theorem isBlank_of_isWordChar {c : Char} (h : isWordChar c = true) : isBlank c = false := by
  have apart : ∀ r ∈ blankRanges, r.2 < 48 ∨ 122 < r.1 := by decide
  have range := toNat_of_isWordChar h
  rw [isBlank, Bool.eq_false_iff, Ne, Ranges.covers_iff (by decide)]
  rintro ⟨r, hr, h1, h2⟩
  have := apart r hr
  omega

theorem isIdentifier_iff {x : String} : isIdentifier x = true ↔
    ∃ c cs, x.toList = c :: cs ∧ isWordChar c = true ∧ ∀ d ∈ cs, isWordChar d = true := by
  rw [isIdentifier, Bool.and_eq_true, List.all_eq_true, Bool.not_eq_true']
  constructor
  · rintro ⟨hne, hall⟩
    cases hx : x.toList with
    | nil =>
      rw [String.toList_eq_nil_iff.1 hx] at hne
      cases hne
    | cons c cs =>
      rw [hx] at hall
      exact ⟨c, cs, rfl, hall c List.mem_cons_self, fun d hd => hall d (List.mem_cons_of_mem c hd)⟩
  · rintro ⟨c, cs, hx, hc, hcs⟩
    rw [hx]
    refine ⟨?_, List.forall_mem_cons.2 ⟨hc, hcs⟩⟩
    rw [String.isEmpty_eq_false_iff, Ne, ← String.toList_eq_nil_iff, hx]
    nofun

/-- A word is taken up to the first character that belongs to none. -/
theorem span_word {cs rest : List Char} (hcs : ∀ c ∈ cs, isWordChar c = true)
    (hrest : ∀ c ∈ rest.head?, isWordChar c = false) :
    (cs ++ rest).takeWhile isWordChar = cs ∧ (cs ++ rest).dropWhile isWordChar = rest := by
  rw [List.takeWhile_append_of_pos hcs, List.dropWhile_append_of_pos hcs]
  cases rest with
  | nil => exact ⟨List.append_nil cs, rfl⟩
  | cons c rest =>
    have hc := hrest c rfl
    rw [List.takeWhile_cons_of_neg (by simp [hc]), List.dropWhile_cons_of_neg (by simp [hc])]
    exact ⟨List.append_nil cs, rfl⟩

/-! ## 3. The first token -/

theorem firstToken?_word {x : String} {rest : List Char} (hx : isIdentifier x = true)
    (hrest : ∀ c ∈ rest.head?, isWordChar c = false) :
    firstToken? (x.toList ++ rest) = some (x, rest) := by
  obtain ⟨c, cs, e, hc, hcs⟩ := isIdentifier_iff.1 hx
  have hdash : c ≠ '-' := by
    rintro rfl
    revert hc
    decide
  obtain ⟨htake, hdrop⟩ := span_word hcs hrest
  rw [e, List.cons_append, firstToken?]
  · rw [if_pos hc, htake, hdrop, ← e, String.ofList_toList]
  · exact fun _ e => absurd e hdash

theorem firstToken?_symbol {x : String} {rest : List Char} (hx : x ∈ symbols) :
    firstToken? (x.toList ++ rest) = some (x, rest) := by
  simp only [symbols, List.mem_cons, List.not_mem_nil, or_false] at hx
  rcases hx with rfl | rfl | rfl | rfl | rfl | rfl | rfl <;> rfl

/-- The first token is a word that ends where it has to, or a symbol. -/
theorem firstToken?_eq_some {cs rest : List Char} {x : String}
    (h : firstToken? cs = some (x, rest)) : cs = x.toList ++ rest ∧
      (isIdentifier x = true ∧ (∀ c ∈ rest.head?, isWordChar c = false) ∨ x ∈ symbols) := by
  unfold firstToken? at h
  split at h
  · cases h
  · cases h
    exact ⟨rfl, Or.inr (by decide)⟩
  · next c cs _ =>
    split at h
    · next hc =>
      cases h
      have hword : ∀ d ∈ cs.takeWhile isWordChar, isWordChar d = true := fun d hd =>
        List.mem_takeWhile_imp hd
      refine ⟨?_, Or.inl ⟨isIdentifier_iff.2 ⟨c, _, String.toList_ofList, hc, hword⟩, ?_⟩⟩
      · rw [String.toList_ofList, List.cons_append, List.takeWhile_append_dropWhile]
      · intro d hd
        have stop := List.head?_dropWhile_not isWordChar cs
        rw [hd] at stop
        exact stop
    · split at h
      · next hc =>
        cases h
        simp only [isPunctuation, Bool.or_eq_true, beq_iff_eq] at hc
        rcases hc with ((((rfl | rfl) | rfl) | rfl) | rfl) | rfl <;> exact ⟨rfl, Or.inr (by decide)⟩
      · cases h

/-! ## 4. All tokens -/

/-- A token does not start with a blank. -/
theorem not_blank_of_isToken {x : String} (hx : IsToken x) :
    ∃ c cs, x.toList = c :: cs ∧ isBlank c = false := by
  rcases hx with hx | hx
  · obtain ⟨c, cs, e, hc, -⟩ := isIdentifier_iff.1 hx
    exact ⟨c, cs, e, isBlank_of_isWordChar hc⟩
  · simp only [symbols, List.mem_cons, List.not_mem_nil, or_false] at hx
    rcases hx with rfl | rfl | rfl | rfl | rfl | rfl | rfl <;> exact ⟨_, _, rfl, by decide⟩

/-- The lexer takes the first token and goes on after it. -/
theorem tokensFrom_of_firstToken? {x : String} {cs : List Char} {n : Nat} (hx : IsToken x)
    (h : firstToken? (x.toList ++ cs) = some (x, cs)) :
    tokensFrom n (x.toList ++ cs) =
      (tokensFrom (n + x.utf8ByteSize) cs).map (x :: ·) := by
  obtain ⟨c, ds, e, hc⟩ := not_blank_of_isToken hx
  rw [e, List.cons_append] at h ⊢
  rw [tokensFrom, if_neg (by simp [hc])]
  split
  · next none => rw [h] at none; cases none
  · next t rest some =>
    rw [h] at some
    cases some
    cases tokensFrom (n + x.utf8ByteSize) cs <;> rfl

/-- The lexer returns tokens for the texts in which they are written, wherever the text starts. -/
theorem tokensFrom_eq_ok_iff {n : Nat} {cs : List Char} {ts : List String} :
    tokensFrom n cs = .ok ts ↔ Written cs ts := by
  constructor
  · intro h
    fun_induction tokensFrom n cs generalizing ts with
    | case1 =>
      cases h
      exact .nil
    | case2 n c cs hc ih => exact .blank hc (ih h)
    | case3 => cases h
    | case4 n c cs hc x cs' hx ts' heq ih =>
      cases h
      obtain ⟨e, ⟨hid, hcs⟩ | hsym⟩ := firstToken?_eq_some hx
      · exact e ▸ .word hid hcs (ih heq)
      · exact e ▸ .symbol hsym (ih heq)
    | case5 => cases h
  · intro h
    induction h generalizing n with
    | nil => rw [tokensFrom]
    | blank hc _ ih => rw [tokensFrom, if_pos hc, ih]
    | word hx hcs _ ih =>
      rw [tokensFrom_of_firstToken? (Or.inl hx) (firstToken?_word hx hcs), ih]
      rfl
    | symbol hx _ ih =>
      rw [tokensFrom_of_firstToken? (Or.inr hx) (firstToken?_symbol hx), ih]
      rfl

end CtlTableau
