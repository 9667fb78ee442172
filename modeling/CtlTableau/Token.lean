import CtlTableau.Fault

/-!
# Tokens

A token is a word (a run of ASCII letters, digits and underscores) or one of seven symbols. Words
are names or operators; which of them are operators is fixed here (`isKeyword`). Between tokens
stands white space, which is needed between two words only.

`tokenize` takes the longest token at each place and refuses a text at the first character that is
not blank and starts no token. It keeps the byte offset, as that is what the refusal shows.
-/

namespace CtlTableau

open Text

/-! ## 1. Words and symbols -/

/-- The characters of words: ASCII letters, digits and the underscore. -/
def isWordChar (c : Char) : Bool := c.isAlphanum || c == '_'

/-- Words have at least one character. -/
def isIdentifier (s : String) : Bool := !s.isEmpty && s.toList.all isWordChar

/-- The one-character symbols. The seventh symbol is `->`. -/
def isPunctuation (c : Char) : Bool :=
  c == '~' || c == '&' || c == '|' || c == '(' || c == ')' || c == ','

/-- The symbols. -/
def symbols : List String := ["->", "~", "&", "|", "(", ")", ","]

/-- What the lexer may return. -/
def IsToken (s : String) : Prop := isIdentifier s = true ∨ s ∈ symbols

/-! ## 2. Operators among the words -/

/-- The operators with one bracketed argument. -/
def UnaryOp.ofKeyword? (s : String) : Option UnaryOp :=
  [UnaryOp.ex, .ax, .ef, .af, .eg, .ag].find? (·.symbol == s)

/-- The operators with two bracketed arguments. -/
def BinaryOp.ofKeyword? (s : String) : Option BinaryOp :=
  [BinaryOp.eu, .au, .er, .ar].find? (·.symbol == s)

/-- The quantifiers. -/
def Quantifier.ofKeyword? (s : String) : Option Quantifier :=
  [Quantifier.existential, .universal].find? (·.symbol == s)

/-- Words that are operators and so no names. -/
def isKeyword (s : String) : Bool :=
  (UnaryOp.ofKeyword? s).isSome || (BinaryOp.ofKeyword? s).isSome ||
    (Quantifier.ofKeyword? s).isSome

/-! ## 3. Reading tokens -/

/-- The token that a text starts with, and the text after it. -/
def firstToken? : List Char → Option (String × List Char)
  | [] => none
  | '-' :: '>' :: rest => some ("->", rest)
  | c :: rest =>
    if isWordChar c then
      some (String.ofList (c :: rest.takeWhile isWordChar), rest.dropWhile isWordChar)
    else if isPunctuation c then some (c.toString, rest)
    else none

/-- A token has at least one character. -/
theorem length_firstToken {cs rest : List Char} {t : String}
    (h : firstToken? cs = some (t, rest)) : rest.length < cs.length := by
  unfold firstToken? at h
  split at h
  · cases h
  · cases h; simp only [List.length_cons]; omega
  · split at h
    · cases h
      exact Nat.lt_succ_of_le (List.dropWhile_sublist _).length_le
    · split at h
      · cases h; simp
      · cases h

/-- The tokens of a text that starts at the given byte of the input. -/
def tokensFrom (position : Nat) (cs : List Char) : Except ParseFault (List String) :=
  match cs with
  | [] => .ok []
  | c :: rest =>
    if isBlank c then tokensFrom (position + c.utf8Size) rest
    else
      match _h : firstToken? (c :: rest) with
      | none => .error (.unrecognized c position)
      | some (t, rest') =>
        match tokensFrom (position + t.utf8ByteSize) rest' with
        | .ok ts => .ok (t :: ts)
        | .error e => .error e
termination_by cs.length
decreasing_by
  · simp
  · exact length_firstToken _h

/-- The tokens of a text. -/
def tokenize (s : String) : Except ParseFault (List String) := tokensFrom 0 s.toList

end CtlTableau
