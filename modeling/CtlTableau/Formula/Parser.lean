import CtlTableau.Parser

/-!
# Reading formulas

The grammar, loosest binding first:

    formula     := disjunction [ "->" formula ]
    disjunction := conjunction { "|" conjunction }
    conjunction := unit { "&" unit }
    unit        := "~" unit | "(" formula ")" | name
                 | UNARY "(" formula ")" | BINARY "(" formula "," formula ")"
                 | QUANTIFIER "(" name "," formula ")"

A quantifier's name is read as a formula that has to come out as an atom other than `TRUE`, so it
may stand in brackets. Every unit takes a token before it asks for another unit; the number of
tokens therefore bounds how deep units nest, and `unitAt` counts it down.
-/

namespace CtlTableau.Formula

/-! ## 1. Infix levels -/

/-- Conjunctions of units. -/
def conjunctions (unit : Parser Formula) : Parser Formula := .leftInfix "&" and unit

/-- Disjunctions of conjunctions. -/
def disjunctions (unit : Parser Formula) : Parser Formula := .leftInfix "|" or (conjunctions unit)

/-- Implications between disjunctions: whole formulas. -/
def implications (unit : Parser Formula) : Parser Formula := .rightInfix "->" imp (disjunctions unit)

/-! ## 2. Operators with bracketed arguments -/

/-- The formula that a word makes of its arguments, if it takes them. -/
def application? (keyword : String) : List Formula → Option Formula
  | [p] => (UnaryOp.ofKeyword? keyword).map (.unary · p)
  | [p, q] =>
    match BinaryOp.ofKeyword? keyword with
    | some op => some (.binary op p q)
    | none =>
      match Quantifier.ofKeyword? keyword, p with
      | some kind, .atom x => if x = trueName then none else some (.quant kind x q)
      | _, _ => none
  | _ => none

/-- The bracketed arguments of an operator; the operator has been read. -/
def runArguments (formula : Parser Formula) (keyword : String) (ts : List String) :
    Reading Formula :=
  match Parser.expect "(" ts with
  | .error _ => .error (.unbracketed keyword)
  | .ok rest =>
    match (Parser.bracketedList "," formula).run rest with
    | .error e => .error e
    | .ok (args, rest') =>
      match application? keyword args with
      | some f => .ok (f, rest')
      | none => .error (.badArguments keyword args)

/-! ## 3. Units -/

/-- A unit, given how to read the units inside it. -/
def runUnit (inner : Parser Formula) : List String → Reading Formula
  | [] => .error .unexpectedEnd
  | t :: rest =>
    if t = "~" then
      match inner.run rest with
      | .error e => .error e
      | .ok (p, rest') => .ok (.not p, rest')
    else if t = "(" then (Parser.bracketed (implications inner)).run rest
    else if isKeyword t then runArguments (implications inner) t rest
    else if isIdentifier t then .ok (.atom t, rest)
    else .error (.unexpectedToken t)

theorem suffix_runArguments {formula : Parser Formula} {keyword : String} {ts : List String}
    {f : Formula} {rest : List String} (h : runArguments formula keyword ts = .ok (f, rest)) :
    rest <:+ ts := by
  unfold runArguments at h
  split at h
  · simp at h
  · rename_i rest' he
    rw [Parser.expect_eq_ok_iff] at he
    subst he
    split at h
    · simp at h
    · rename_i args rest'' hp
      split at h
      · cases h
        exact (Parser.suffix _ hp).trans (List.suffix_cons _ _)
      · simp at h

theorem suffix_runUnit {inner : Parser Formula} {ts : List String} {f : Formula}
    {rest : List String} (h : runUnit inner ts = .ok (f, rest)) : rest <:+ ts := by
  cases ts with
  | nil => simp [runUnit] at h
  | cons t tail =>
    have grow : ∀ {r : List String}, r <:+ tail → r <:+ t :: tail :=
      fun hr => hr.trans (List.suffix_cons _ _)
    rw [runUnit] at h
    split at h
    · split at h
      · simp at h
      · rename_i p rest' hp
        cases h
        exact grow (inner.suffix hp)
    · split at h
      · exact grow (Parser.suffix _ h)
      · split at h
        · exact grow (suffix_runArguments h)
        · split at h
          · cases h; exact grow (List.suffix_refl _)
          · simp at h

/-- A unit with at most `depth` units inside one another. -/
def unitAt : Nat → Parser Formula
  | 0 => ⟨fun _ => .error .unexpectedEnd, fun h => by simp at h⟩
  | depth + 1 => ⟨runUnit (unitAt depth), suffix_runUnit⟩

/-! ## 4. Formulas -/

/-- Reads a formula off the front of a token list. -/
def parser : Parser Formula where
  run ts := (implications (unitAt (ts.length + 1))).run ts
  suffix h := Parser.suffix _ h

/-- Reads a text as a formula. -/
def parse (s : String) : Except ParseFault Formula := parser.readAll s

end CtlTableau.Formula
