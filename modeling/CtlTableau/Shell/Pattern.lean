import CtlTableau.Text.Regex

/-!
# Written patterns

Three ways to write a regular expression: file patterns with `*`, `?` and bracketed sets; basic
expressions, in which groups, choices and counts are written with a backslash; and extended ones, in
which they are written without. A pattern that breaks off is read as far as it goes.
-/

namespace CtlTableau.Shell

open Text

/-! ## 1. Bracketed sets -/

/-- The named classes. -/
def namedClass? : List Char → Option (List (Char × Char))
  | ['d', 'i', 'g', 'i', 't'] => some [('0', '9')]
  | ['a', 'l', 'p', 'h', 'a'] => some [('a', 'z'), ('A', 'Z')]
  | ['a', 'l', 'n', 'u', 'm'] => some [('a', 'z'), ('A', 'Z'), ('0', '9')]
  | ['l', 'o', 'w', 'e', 'r'] => some [('a', 'z')]
  | ['u', 'p', 'p', 'e', 'r'] => some [('A', 'Z')]
  | ['s', 'p', 'a', 'c', 'e'] => some [(' ', ' '), ('\t', '\r')]
  | ['b', 'l', 'a', 'n', 'k'] => some [(' ', ' '), ('\t', '\t')]
  | _ => none

/-- The ranges up to the closing bracket. -/
def readRanges : Nat → List Char → List (Char × Char) → List (Char × Char) × List Char
  | 0, cs, acc => (acc, cs)
  | _ + 1, [], acc => (acc, [])
  | _ + 1, ']' :: rest, acc => (acc, rest)
  | fuel + 1, '[' :: ':' :: rest, acc =>
    let name := rest.takeWhile (· != ':')
    match namedClass? name, rest.drop name.length with
    | some ranges, ':' :: ']' :: rest' => readRanges fuel rest' (ranges ++ acc)
    | _, _ => readRanges fuel (':' :: rest) (('[', '[') :: acc)
  | fuel + 1, a :: '-' :: b :: rest, acc =>
    if b = ']' then readRanges fuel ('-' :: b :: rest) ((a, a) :: acc)
    else readRanges fuel rest ((a, b) :: acc)
  | fuel + 1, a :: rest, acc => readRanges fuel rest ((a, a) :: acc)

/-- A set after its opening bracket; a closing bracket in the first place is a member. -/
def readSet (negations : List Char) (cs : List Char) : CharSet × List Char :=
  let (negated, cs) := match cs with
    | c :: rest => if negations.contains c then (true, rest) else (false, cs)
    | [] => (false, [])
  let (first, cs) := match cs with
    | ']' :: rest => ([(']', ']')], rest)
    | cs => ([], cs)
  let (ranges, rest) := readRanges (cs.length + 1) cs first
  (⟨ranges, negated⟩, rest)

/-! ## 2. File patterns -/

/-- A character of a file pattern, with whether it was quoted. -/
abbrev PatternChar := Char × Bool

/-- A file pattern as a regular expression. -/
def readFilePattern : Nat → List PatternChar → Regex
  | 0, _ => .empty
  | _ + 1, [] => .empty
  | fuel + 1, (c, quoted) :: rest =>
    if quoted then .join (.char c) (readFilePattern fuel rest)
    else
      match c with
      | '*' => .join (.star .anyChar) (readFilePattern fuel rest)
      | '?' => .join .anyChar (readFilePattern fuel rest)
      | '[' =>
        let (set, after) := readSet ['!', '^'] (rest.map (·.1))
        .join (.one set) (readFilePattern fuel (rest.drop (rest.length - after.length)))
      | c => .join (.char c) (readFilePattern fuel rest)

/-- Whether a text fits a file pattern. -/
def fitsFilePattern (pattern : List PatternChar) (s : String) : Bool :=
  (readFilePattern (pattern.length + 1) pattern).matchLine s

/-! ## 3. Expressions -/

/-- Whether expressions are written without backslashes at their operators. -/
inductive Dialect where
  | basic | extended
  deriving DecidableEq, Repr

/-- Splits an operator off the front. -/
def operator? (d : Dialect) : List Char → Option (Char × List Char)
  | '\\' :: c :: rest =>
    if d = .basic ∧ "()\x7b\x7d|+?".toList.contains c = true then some (c, rest) else none
  | c :: rest => if d = .extended ∧ "()\x7b\x7d|+?".toList.contains c = true then some (c, rest) else none
  | [] => none

/-- The number at the front. -/
def readNumber? (cs : List Char) : Option Nat × List Char :=
  let ds := cs.takeWhile Char.isDigit
  ((String.ofList ds).toNat?, cs.drop ds.length)

/-- The counts of a repetition, after the opening brace. -/
def readCounts? (d : Dialect) (cs : List Char) : Option (Nat × Option Nat × List Char) :=
  let (least, rest) := readNumber? cs
  let (most, rest) := match rest with
    | ',' :: rest => readNumber? rest
    | rest => (least, rest)
  match operator? d rest with
  | some ('}', rest) => some (least.getD 0, most, rest)
  | _ => none

/-- What follows a piece and repeats it. -/
def readRepeats (d : Dialect) : Nat → Regex → List Char → Regex × List Char
  | 0, r, cs => (r, cs)
  | fuel + 1, r, cs =>
    match cs with
    | '*' :: rest => readRepeats d fuel (.star r) rest
    | _ =>
      match operator? d cs with
      | some ('+', rest) => readRepeats d fuel (.join r (.star r)) rest
      | some ('?', rest) => readRepeats d fuel (.either .empty r) rest
      | some ('{', rest) =>
        match readCounts? d rest with
        | some (least, most, rest) => readRepeats d fuel (r.times least most) rest
        | none => (r, cs)
      | _ => (r, cs)

mutual

/-- A choice between sequences. -/
def readChoice (d : Dialect) : Nat → List Char → Regex × List Char
  | 0, cs => (.empty, cs)
  | fuel + 1, cs =>
    let (r, rest) := readSequence d fuel true .empty cs
    match operator? d rest with
    | some ('|', rest) =>
      let (s, rest) := readChoice d fuel rest
      (.either r s, rest)
    | _ => (r, rest)

/-- Pieces one after another, up to a bar or a closing bracket. -/
def readSequence (d : Dialect) : Nat → Bool → Regex → List Char → Regex × List Char
  | 0, _, acc, cs => (acc, cs)
  | fuel + 1, atStart, acc, cs =>
    let next (piece : Regex) (rest : List Char) : Regex × List Char :=
      let (piece, rest) := readRepeats d rest.length piece rest
      readSequence d fuel false (.join acc piece) rest
    match operator? d cs with
    | some ('|', _) | some (')', _) => (acc, cs)
    | some ('(', rest) =>
      let (r, rest) := readChoice d fuel rest
      match operator? d rest with
      | some (')', rest) => next r rest
      | _ => (.join acc r, rest)
    | some (c, rest) => next (.char c) rest
    | none =>
      match cs with
      | [] => (acc, [])
      | '^' :: rest =>
        if atStart ∨ d = .extended then readSequence d fuel true (.join acc (.mark .start)) rest
        else next (.char '^') rest
      | '$' :: rest =>
        if rest = [] ∨ d = .extended ∨ (operator? d rest).isSome then next (.mark .stop) rest
        else next (.char '$') rest
      | '.' :: rest => next .anyChar rest
      | '[' :: rest =>
        let (set, rest) := readSet ['^'] rest
        next (.one set) rest
      | '\\' :: c :: rest => next (.char c) rest
      | c :: rest => next (.char c) rest

end

/-- A written expression; every line of it is an alternative. -/
def readExpression (d : Dialect) (s : String) : Regex :=
  ((s.splitOn "\n").map fun line =>
    (readChoice d (2 * line.length + 2) line.toList).1).foldr .either .never

/-- The expression that matches exactly a text. -/
def fixedExpression (s : String) : Regex :=
  ((s.splitOn "\n").map fun line =>
    (line.toList.map Regex.char).foldr Regex.join .empty).foldr .either .never

end CtlTableau.Shell
