import CtlTableau.Proofs.Lexing
import Mathlib.Data.List.Chain
import Mathlib.Data.String.Basic

/-!
# Layouts, refusals and byte positions

A layout of tokens (`Layout`) has blanks before the first token and after every token, and none are
missing between two words that stand side by side. The lexer reads back the tokens of a layout,
whatever the blanks are, and the texts that it accepts are the layouts. It refuses a text at the end
of the longest layout that the text starts with, where a character stands that is not blank and
starts no token (`tokensFrom_eq_error_iff`).

The lexer keeps its place in the text as a byte, and cuts the text there before each token
(`scan`). A byte may lie inside a character, where a text cannot be cut; what excludes this is that
the place is the size of a text that was read (`scan_eq`).

Main statement: `tokenize_layouts`.
-/

namespace CtlTableau

open Text

/-! ## 1. Tokens with blanks between them -/

/-- Tokens, each with the blanks after it, as they may stand in a text: where two words are
    neighbours, something is between them. -/
structure Spaced (items : List (String × String)) : Prop where
  token : ∀ i ∈ items, IsToken i.1
  blank : ∀ i ∈ items, ∀ c ∈ i.2.toList, isBlank c = true
  apart : items.IsChain fun i j => isIdentifier i.1 = true → isIdentifier j.1 = true → i.2 ≠ ""

/-- A way to write tokens: the blanks before them, and each token with the blanks after it. -/
structure Layout where
  before : String
  items : List (String × String)
  blank : ∀ c ∈ before.toList, isBlank c = true
  spaced : Spaced items

/-- The text of tokens with the blanks after them. -/
def spacedText : List (String × String) → String
  | [] => ""
  | (x, gap) :: items => x ++ (gap ++ spacedText items)

namespace Layout

/-- The text of a layout. -/
def text (l : Layout) : String := l.before ++ spacedText l.items

/-- What a layout writes. -/
def tokens (l : Layout) : List String := l.items.map (·.1)

/-- The layout of no tokens and no blanks. -/
def empty : Layout := ⟨"", [], nofun, ⟨nofun, nofun, .nil⟩⟩

end Layout

/-! ## 2. Layouts are the texts in which tokens are written -/

section
variable {cs bs rest : List Char} {ts : List String} {x gap : String} {c : Char}
  {items : List (String × String)}

theorem isWordChar_of_isBlank (hc : isBlank c = true) : isWordChar c = false := by
  rw [← Bool.not_eq_true]
  intro hword
  rw [isBlank_of_isWordChar hword] at hc
  cases hc

/-- No character of words starts a symbol. -/
theorem isIdentifier_of_head (hx : IsToken x) (hc : c ∈ x.toList.head?)
    (hword : isWordChar c = true) : isIdentifier x = true := by
  refine hx.resolve_right fun hsym => ?_
  have none : ∀ y ∈ symbols, y.toList.head?.any isWordChar = false := by decide
  have symbol := none x hsym
  rw [Option.mem_def.1 hc, Option.any_some, hword] at symbol
  cases symbol

theorem Written.blanks (hbs : ∀ c ∈ bs, isBlank c = true) (h : Written cs ts) :
    Written (bs ++ cs) ts := by
  induction bs with
  | nil => exact h
  | cons b bs ih =>
    exact .blank (hbs b List.mem_cons_self) (ih fun c hc => hbs c (List.mem_cons_of_mem b hc))

theorem Spaced.tail {i : String × String} (h : Spaced (i :: items)) : Spaced items where
  token j hj := h.token j (List.mem_cons_of_mem i hj)
  blank j hj := h.blank j (List.mem_cons_of_mem i hj)
  apart := h.apart.tail

/-- A word ends where its blanks start, or where the next token starts. -/
theorem Spaced.head_after_word (h : Spaced ((x, gap) :: items)) (hx : isIdentifier x = true) :
    ∀ c ∈ (gap.toList ++ (spacedText items).toList).head?, isWordChar c = false := by
  intro c hc
  cases hgap : gap.toList with
  | cons b bs =>
    rw [hgap] at hc
    obtain rfl : b = c := Option.some.inj hc
    have hb : b ∈ gap.toList := hgap ▸ List.mem_cons_self
    exact isWordChar_of_isBlank (h.blank _ List.mem_cons_self b hb)
  | nil =>
    have hgap := String.toList_eq_nil_iff.1 hgap
    subst hgap
    cases items with
    | nil => cases hc
    | cons j items =>
      obtain ⟨d, ds, e, -⟩ := not_blank_of_isToken (h.tail.token j List.mem_cons_self)
      have hd : d = c := by
        unfold spacedText at hc
        rw [String.toList_append, e] at hc
        cases hc
        rfl
      subst hd
      rw [← Bool.not_eq_true]
      intro hword
      have hj : isIdentifier j.1 = true :=
        isIdentifier_of_head (h.tail.token j List.mem_cons_self) (by rw [e]; rfl) hword
      exact (List.isChain_cons_cons.1 h.apart).1 hx hj rfl

theorem Spaced.written (h : Spaced items) :
    Written (spacedText items).toList (items.map (·.1)) := by
  induction items with
  | nil => exact .nil
  | cons i items ih =>
    unfold spacedText
    rw [String.toList_append, String.toList_append, List.map_cons]
    have rest := (ih h.tail).blanks (h.blank i List.mem_cons_self)
    rcases h.token i List.mem_cons_self with hx | hx
    · exact .word hx (h.head_after_word hx) rest
    · exact .symbol hx rest

theorem Layout.written (l : Layout) : Written l.text.toList l.tokens := by
  unfold Layout.text
  rw [String.toList_append]
  exact l.spaced.written.blanks l.blank

/-- A token in front of a layout, whose first blanks become those after the token. -/
theorem exists_layout_cons (l : Layout) (hx : IsToken x)
    (hl : isIdentifier x = true → ∀ c ∈ l.text.toList.head?, isWordChar c = false) :
    ∃ l' : Layout, l'.text.toList = x.toList ++ l.text.toList ∧ l'.tokens = x :: l.tokens := by
  have apart : ∀ j ∈ l.items.head?, isIdentifier x = true → isIdentifier j.1 = true →
      l.before ≠ "" := by
    intro j hj hword hj' e
    obtain ⟨d, ds, hd, hd', -⟩ := isIdentifier_iff.1 hj'
    have head : d ∈ l.text.toList.head? := by
      unfold Layout.text
      cases hitems : l.items with
      | nil => rw [hitems] at hj; cases hj
      | cons i items =>
        rw [hitems] at hj
        cases hj
        unfold spacedText
        rw [e, String.empty_append, String.toList_append, hd]
        rfl
    rw [hl hword d head] at hd'
    cases hd'
  have spaced : Spaced ((x, l.before) :: l.items) :=
    { token := List.forall_mem_cons.2 ⟨hx, l.spaced.token⟩
      blank := List.forall_mem_cons.2 ⟨l.blank, l.spaced.blank⟩
      apart := List.isChain_cons.2 ⟨apart, l.spaced.apart⟩ }
  refine ⟨⟨"", (x, l.before) :: l.items, nofun, spaced⟩, ?_, rfl⟩
  show ("" ++ (x ++ (l.before ++ spacedText l.items))).toList = _
  rw [String.empty_append, String.toList_append]
  rfl

theorem Written.exists_layout (h : Written cs ts) :
    ∃ l : Layout, l.text.toList = cs ∧ l.tokens = ts := by
  induction h with
  | nil => exact ⟨.empty, rfl, rfl⟩
  | @blank c _ _ hc _ ih =>
    obtain ⟨l, rfl, rfl⟩ := ih
    have blank : ∀ d ∈ (String.singleton c ++ l.before).toList, isBlank d = true := by
      rw [String.toList_append, String.toList_singleton]
      exact List.forall_mem_cons.2 ⟨hc, l.blank⟩
    refine ⟨⟨String.singleton c ++ l.before, l.items, blank, l.spaced⟩, ?_, rfl⟩
    show (String.singleton c ++ l.before ++ spacedText l.items).toList = _
    rw [String.append_assoc, String.toList_append, String.toList_singleton]
    rfl
  | word hx hcs _ ih =>
    obtain ⟨l, rfl, rfl⟩ := ih
    exact exists_layout_cons l (Or.inl hx) fun _ => hcs
  | @symbol x _ _ hx _ ih =>
    obtain ⟨l, rfl, rfl⟩ := ih
    refine exists_layout_cons l (Or.inr hx) fun hword => ?_
    have none : ∀ y ∈ symbols, isIdentifier y = false := by decide
    rw [none x hx] at hword
    cases hword

/-! ## 3. Where the lexer stops -/

/-- The first token is missing exactly if no token is a beginning of the text. -/
theorem firstToken?_eq_none_iff :
    firstToken? cs = none ↔ ∀ x, IsToken x → ¬ x.toList <+: cs := by
  constructor
  · intro h x hx hpre
    obtain ⟨rest, rfl⟩ := hpre
    rcases hx with hx | hx
    · obtain ⟨c, ds, e, hc, -⟩ := isIdentifier_iff.1 hx
      rw [e, List.cons_append] at h
      unfold firstToken? at h
      split at h
      · next e' => cases e'
      · cases h
      · next e' =>
        cases e'
        rw [if_pos hc] at h
        cases h
    · rw [firstToken?_symbol hx] at h
      cases h
  · intro h
    rw [Option.eq_none_iff_forall_ne_some]
    intro ⟨x, rest⟩ hx
    obtain ⟨e, hx⟩ := firstToken?_eq_some hx
    exact h x (hx.imp_left And.left) ⟨rest, e.symm⟩

theorem isWordChar_of_firstToken? (h : firstToken? (c :: rest) = none) :
    isWordChar c = false := by
  unfold firstToken? at h
  split at h
  · next e => cases e
  · cases h
  · next e =>
    cases e
    split at h
    · cases h
    · next hc => exact Bool.eq_false_iff.2 hc

/-- The lexer goes through a text in which tokens are written, and on after it. -/
theorem tokensFrom_append {n : Nat} (h : Written cs ts)
    (hrest : ∀ c ∈ rest.head?, isWordChar c = false) :
    tokensFrom n (cs ++ rest) =
      (tokensFrom (n + String.utf8Len cs) rest).map (ts ++ ·) := by
  -- after one token
  have step : ∀ {n : Nat} {x : String} {cs : List Char} {ts : List String}, IsToken x →
      firstToken? (x.toList ++ (cs ++ rest)) = some (x, cs ++ rest) →
      (∀ n, tokensFrom n (cs ++ rest) =
        (tokensFrom (n + String.utf8Len cs) rest).map (ts ++ ·)) →
      tokensFrom n ((x.toList ++ cs) ++ rest) =
        (tokensFrom (n + String.utf8Len (x.toList ++ cs)) rest).map ((x :: ts) ++ ·) := by
    intro n x cs ts hx first ih
    rw [List.append_assoc, tokensFrom_of_firstToken? hx first, ih, String.utf8Len_append,
      ← String.utf8ByteSize_ofList x.toList, String.ofList_toList, Nat.add_assoc]
    cases tokensFrom _ rest <;> rfl
  induction h generalizing n with
  | nil =>
    show tokensFrom n rest = (tokensFrom n rest).map ([] ++ ·)
    cases tokensFrom n rest <;> rfl
  | @blank c cs ts hc _ ih =>
    rw [List.cons_append, tokensFrom, if_pos hc, ih, String.utf8Len_cons, Nat.add_assoc,
      Nat.add_comm c.utf8Size]
  | @word x cs ts hx hcs _ ih =>
    refine step (Or.inl hx) (firstToken?_word hx fun c hc => ?_) fun n => ih
    cases cs with
    | nil => exact hrest c hc
    | cons d ds => exact hcs c hc
  | symbol hx _ ih => exact step (Or.inr hx) (firstToken?_symbol hx) fun n => ih

/-- The lexer stops at a character that is not blank and starts no token. -/
theorem tokensFrom_of_stuck {n : Nat} (hc : isBlank c = false)
    (h : firstToken? (c :: rest) = none) :
    tokensFrom n (c :: rest) = .error (.unrecognized c n) := by
  rw [tokensFrom, if_neg (by rw [hc]; exact Bool.false_ne_true)]
  split
  · rfl
  · next some => rw [h] at some; cases some

/-- Before the character at which the lexer stops, tokens are written. -/
theorem exists_written_of_error {n : Nat} {e : ParseFault} (h : tokensFrom n cs = .error e) :
    ∃ as ts c rest, Written as ts ∧ cs = as ++ c :: rest ∧ isBlank c = false ∧
      firstToken? (c :: rest) = none ∧ e = .unrecognized c (n + String.utf8Len as) := by
  fun_induction tokensFrom n cs with
  | case1 => cases h
  | case2 n c cs hc ih =>
    obtain ⟨as, ts, d, rest, written, rfl, hd, none, rfl⟩ := ih h
    refine ⟨c :: as, ts, d, rest, .blank hc written, rfl, hd, none, ?_⟩
    rw [String.utf8Len_cons, Nat.add_assoc, Nat.add_comm c.utf8Size]
  | case3 n c cs hc none =>
    cases h
    exact ⟨[], [], c, cs, .nil, rfl, Bool.eq_false_iff.2 hc, none, rfl⟩
  | case4 => cases h
  | case5 n c cs hc x cs' hx e' he ih =>
    cases h
    obtain ⟨as, ts, d, rest, written, rfl, hd, none, rfl⟩ := ih he
    obtain ⟨split, hx⟩ := firstToken?_eq_some hx
    have longer : Written (x.toList ++ as) (x :: ts) := by
      rcases hx with ⟨hx, hcs⟩ | hx
      · refine .word hx (fun a ha => hcs a ?_) written
        rw [List.head?_append, Option.mem_def.1 ha]
        rfl
      · exact .symbol hx written
    refine ⟨x.toList ++ as, x :: ts, d, rest, longer, ?_, hd, none, ?_⟩
    · rw [split, List.append_assoc]
    · rw [String.utf8Len_append, ← String.utf8ByteSize_ofList x.toList, String.ofList_toList,
        Nat.add_assoc]

/-- The lexer refuses exactly the texts in which a layout is followed by a character that is not
    blank and starts no token. It names that character and the byte at which it starts. -/
theorem tokensFrom_eq_error_iff {n : Nat} {e : ParseFault} :
    tokensFrom n cs = .error e ↔ ∃ (l : Layout) (c : Char) (rest : List Char),
      cs = l.text.toList ++ c :: rest ∧ isBlank c = false ∧
      (∀ x, IsToken x → ¬ x.toList <+: c :: rest) ∧
      e = .unrecognized c (n + l.text.utf8ByteSize) := by
  constructor
  · intro h
    obtain ⟨as, ts, c, rest, written, e, hc, none, fault⟩ := exists_written_of_error h
    obtain ⟨l, rfl, -⟩ := written.exists_layout
    refine ⟨l, c, rest, e, hc, firstToken?_eq_none_iff.1 none, fault.trans ?_⟩
    rw [← String.utf8ByteSize_ofList, String.ofList_toList]
  · intro ⟨l, c, rest, e, hc, absent, fault⟩
    have absent := firstToken?_eq_none_iff.2 absent
    have hrest : ∀ d ∈ (c :: rest).head?, isWordChar d = false := by
      intro d hd
      cases hd
      exact isWordChar_of_firstToken? absent
    rw [e, fault, tokensFrom_append l.written hrest, tokensFrom_of_stuck hc absent,
      ← String.utf8ByteSize_ofList, String.ofList_toList]
    rfl

/-- A dash that is not the start of an arrow starts no token. -/
theorem firstToken?_dash (h : rest.head? ≠ some '>') : firstToken? ('-' :: rest) = none := by
  unfold firstToken?
  split
  · next e => cases e
  · next e =>
    cases e
    exact absurd rfl h
  · next e =>
    cases e
    rw [if_neg (by decide), if_neg (by decide)]

end

/-! ## 4. The place as a byte -/

/-- The text from a byte on. Between the bytes of one character there is none. -/
def textFrom? (s : String) (position : Nat) : Option (List Char) :=
  if h : String.Pos.Raw.IsValid s ⟨position⟩ then some (s.sliceFrom ⟨⟨position⟩, h⟩).copy.toList
  else none

/-- How far the reading of a text is: the byte at which to go on, and the tokens before it. -/
structure Progress where
  position : Nat := 0
  tokens : List String := []

/-- What a turn of the loop leads to. -/
inductive Turn where
  /-- The text was to be cut inside a character. -/
  | torn
  /-- The loop has ended, with this result. -/
  | returned (result : Except ParseFault (List String))
  /-- Another turn follows. -/
  | goesOn (now : Progress)

/-- The turn after the blanks are skipped: at a token the reading goes on behind it, and another
    character is refused. -/
def turnAt (start : Nat) (tokens : List String) : List Char → Turn
  | [] => .returned (.ok tokens)
  | c :: cs =>
    match firstToken? (c :: cs) with
    | none => .returned (.error (.unrecognized c start))
    | some (x, _) => .goesOn ⟨start + x.utf8ByteSize, tokens ++ [x]⟩

/-- One turn: the text is cut at the place of the reading, and the blanks there are skipped. How many
    bytes they have is seen from what is left. -/
def turn (s : String) (now : Progress) : Turn :=
  match textFrom? s now.position with
  | none => .torn
  | some rest =>
    let trimmed := rest.dropWhile isBlank
    turnAt (now.position + (String.utf8Len rest - String.utf8Len trimmed)) now.tokens trimmed

/-- The loop, with a bound on its turns: none if it has not ended by then. -/
def scan (s : String) : Nat → Progress → Option Turn
  | 0, _ => none
  | n + 1, now =>
    match turn s now with
    | .goesOn next => scan s n next
    | ended => some ended

/-- A text can be cut after each of its beginnings. -/
theorem textFrom?_of_split {s : String} {read rest : List Char} (h : s.toList = read ++ rest) :
    textFrom? s (String.utf8Len read) = some rest := by
  obtain rfl : s = String.ofList read ++ String.ofList rest := by
    rw [← String.toList_inj, h, String.toList_append, String.toList_ofList, String.toList_ofList]
  have valid : String.Pos.Raw.IsValid (String.ofList read ++ String.ofList rest)
      ⟨String.utf8Len read⟩ := by
    rw [String.Pos.Raw.isValid_iff_exists_append, ← String.utf8ByteSize_ofList]
    exact ⟨_, _, rfl, rfl⟩
  have splits : String.Pos.Splits
      (⟨⟨String.utf8Len read⟩, valid⟩ : (String.ofList read ++ String.ofList rest).Pos)
      (String.ofList read) (String.ofList rest) := by
    refine ⟨rfl, ?_⟩
    rw [String.rawEndPos, String.utf8ByteSize_ofList]
  rw [textFrom?, dif_pos valid, splits.copy_sliceFrom_eq, String.toList_ofList]

/-- Blanks are passed over, with their bytes. -/
theorem tokensFrom_blanks {bs cs : List Char} (n : Nat) (hbs : ∀ c ∈ bs, isBlank c = true) :
    tokensFrom n (bs ++ cs) = tokensFrom (n + String.utf8Len bs) cs := by
  induction bs generalizing n with
  | nil => rfl
  | cons b bs ih =>
    rw [List.cons_append, tokensFrom, if_pos (hbs b List.mem_cons_self),
      ih _ fun c hc => hbs c (List.mem_cons_of_mem b hc), String.utf8Len_cons, Nat.add_assoc,
      Nat.add_comm b.utf8Size]

/-- What a turn does when the text read so far and the blanks after it are known. -/
theorem turn_eq {s : String} {now : Progress} {read bs ds : List Char}
    (split : s.toList = read ++ (bs ++ ds)) (place : now.position = String.utf8Len read)
    (blank : ∀ c ∈ bs, isBlank c = true) (stop : ∀ c ∈ ds.head?, isBlank c = false) :
    turn s now = turnAt (String.utf8Len (read ++ bs)) now.tokens ds := by
  have skip : (bs ++ ds).dropWhile isBlank = ds := by
    rw [List.dropWhile_append_of_pos blank]
    cases ds with
    | nil => rfl
    | cons c cs =>
      rw [List.dropWhile_cons_of_neg]
      rw [stop c rfl]
      exact Bool.false_ne_true
  unfold turn
  rw [place, textFrom?_of_split split]
  simp only [skip, String.utf8Len_append, Nat.add_sub_cancel]

/-- What every turn preserves: the place is the size of the text read so far, and the tokens at hand
    go in front of those that the lexer finds in the rest. -/
structure Progress.Holds (s : String) (now : Progress) (rest : List Char) : Prop where
  place : ∃ read, s.toList = read ++ rest ∧ now.position = String.utf8Len read
  result : tokenize s = (tokensFrom now.position rest).map (now.tokens ++ ·)

/-- A turn returns what the lexer returns, or it takes something off the text. -/
theorem turn_cases {s : String} {now : Progress} {rest : List Char} (h : now.Holds s rest) :
    turn s now = .returned (tokenize s) ∨
    ∃ next rest', turn s now = .goesOn next ∧ next.Holds s rest' ∧ rest'.length < rest.length := by
  obtain ⟨read, split, place⟩ := h.place
  -- the rest of the text: blanks, and what follows them
  obtain ⟨bs, ds, e, blank, stop⟩ : ∃ bs ds, rest = bs ++ ds ∧ (∀ c ∈ bs, isBlank c = true) ∧
      ∀ c ∈ ds.head?, isBlank c = false := by
    refine ⟨rest.takeWhile isBlank, rest.dropWhile isBlank,
      List.takeWhile_append_dropWhile.symm, fun c hc => List.mem_takeWhile_imp hc, fun c hc => ?_⟩
    have stop := List.head?_dropWhile_not isBlank rest
    rw [hc] at stop
    exact stop
  subst e
  have result := h.result
  rw [place, tokensFrom_blanks _ blank, ← String.utf8Len_append] at result
  rw [turn_eq split place blank stop]
  cases ds with
  | nil =>
    left
    rw [result, tokensFrom]
    show Turn.returned (.ok now.tokens) = .returned (.ok (now.tokens ++ []))
    rw [List.append_nil]
  | cons c cs =>
    rw [turnAt]
    cases first : firstToken? (c :: cs) with
    | none =>
      left
      rw [result, tokensFrom_of_stuck (stop c rfl) first]
      rfl
    | some found =>
      obtain ⟨x, rest'⟩ := found
      right
      obtain ⟨e, hx⟩ := firstToken?_eq_some first
      refine ⟨_, rest', rfl, ⟨⟨read ++ bs ++ x.toList, ?_, ?_⟩, ?_⟩, ?_⟩
      · rw [split, e, List.append_assoc, List.append_assoc]
      · rw [String.utf8Len_append (read ++ bs), ← String.utf8ByteSize_ofList x.toList,
          String.ofList_toList]
      · rw [result, e, tokensFrom_of_firstToken? (hx.imp_left And.left) (e ▸ first)]
        cases tokensFrom _ rest' with
        | ok ts => exact congrArg Except.ok (List.append_cons ..)
        | error _ => rfl
      · have shorter := length_firstToken first
        rw [List.length_append]
        omega

/-- The loop returns what the lexer returns if there are more turns than characters left. -/
theorem scan_of_holds {s : String} {n : Nat} {now : Progress} {rest : List Char}
    (h : now.Holds s rest) (hn : rest.length < n) :
    scan s n now = some (.returned (tokenize s)) := by
  induction n generalizing now rest with
  | zero => exact absurd hn (Nat.not_lt_zero _)
  | succ n ih =>
    unfold scan
    rcases turn_cases h with e | ⟨next, rest', e, h', shorter⟩
    · rw [e]
    · rw [e]
      exact ih h' (by omega)

theorem length_le_utf8Len (cs : List Char) : cs.length ≤ String.utf8Len cs := by
  induction cs with
  | nil => exact Nat.le_refl 0
  | cons c cs ih =>
    rw [List.length_cons, String.utf8Len_cons]
    exact Nat.add_le_add ih c.utf8Size_pos

/-- **The loop ends, and it cuts no character**: as many turns as the text has bytes, and one more,
    are enough to return what the lexer returns. -/
theorem scan_eq (s : String) : scan s (s.utf8ByteSize + 1) {} = some (.returned (tokenize s)) := by
  have start : Progress.Holds s {} s.toList := by
    refine ⟨⟨[], rfl, rfl⟩, ?_⟩
    show tokensFrom 0 s.toList = (tokensFrom 0 s.toList).map ([] ++ ·)
    cases tokensFrom 0 s.toList <;> rfl
  refine scan_of_holds start ?_
  rw [← String.ofList_toList (s := s), String.utf8ByteSize_ofList, String.toList_ofList]
  exact Nat.lt_succ_of_le (length_le_utf8Len _)

/-! ## 5. What the lexer returns -/

/-- **The lexer undoes writing tokens out, and it refuses precisely.** It returns tokens exactly for
    their layouts. A text that is no layout is refused at the first character after a layout that is
    neither blank nor the start of a token, which may be a dash without the rest of its arrow; the
    refusal names the character and its byte in the whole text. And the loop that goes from byte to
    byte returns this, for every text. -/
theorem tokenize_layouts (s : String) :
    (∀ ts, tokenize s = .ok ts ↔ ∃ l : Layout, l.text = s ∧ l.tokens = ts) ∧
    (∀ e, tokenize s = .error e ↔ ∃ (l : Layout) (c : Char) (rest : List Char),
      s.toList = l.text.toList ++ c :: rest ∧ isBlank c = false ∧
      (∀ x, IsToken x → ¬ x.toList <+: c :: rest) ∧ e = .unrecognized c l.text.utf8ByteSize) ∧
    (∀ (l : Layout) rest, s.toList = l.text.toList ++ '-' :: rest → rest.head? ≠ some '>' →
      tokenize s = .error (.unrecognized '-' l.text.utf8ByteSize)) ∧
    scan s (s.utf8ByteSize + 1) {} = some (.returned (tokenize s)) := by
  have refused : ∀ e, tokenize s = .error e ↔ ∃ (l : Layout) (c : Char) (rest : List Char),
      s.toList = l.text.toList ++ c :: rest ∧ isBlank c = false ∧
      (∀ x, IsToken x → ¬ x.toList <+: c :: rest) ∧ e = .unrecognized c l.text.utf8ByteSize := by
    intro e
    have h := @tokensFrom_eq_error_iff s.toList 0 e
    simp only [Nat.zero_add] at h
    exact h
  refine ⟨fun ts => ⟨fun h => ?_, fun ⟨l, text, tokens⟩ => ?_⟩, refused, fun l rest e hrest => ?_,
    scan_eq s⟩
  · obtain ⟨l, text, tokens⟩ := (tokensFrom_eq_ok_iff.1 h).exists_layout
    exact ⟨l, String.toList_inj.1 text, tokens⟩
  · rw [← text, ← tokens]
    exact tokensFrom_eq_ok_iff.2 l.written
  · exact (refused _).2
      ⟨l, '-', rest, e, by decide, firstToken?_eq_none_iff.1 (firstToken?_dash hrest), rfl⟩

/-- Blanks count with all their bytes: the second blank here has three. -/
example : tokenize "p ->\u2003q - r" = .error (.unrecognized '-' 9) := by cbv

end CtlTableau
