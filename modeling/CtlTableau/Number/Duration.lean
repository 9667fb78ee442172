import CtlTableau.Number.Binary64

/-!
# Durations

A duration counts nanoseconds. As a number of seconds it is shown and read in 64-bit floating point:
`Duration.seconds` is the sum of the whole seconds and the rest, each rounded to the format, and
`Duration.parse` reads a decimal number, rounds it to the format and then to nanoseconds.
-/

namespace CtlTableau

/-- A span of time. -/
structure Duration where
  nanos : Nat
  deriving DecidableEq, Repr

namespace Duration

/-- Nanoseconds in a second. -/
def perSecond : Nat := 1000000000

/-- No time. -/
def zero : Duration := ⟨0⟩

/-- Milliseconds. -/
def ofMillis (n : Nat) : Duration := ⟨n * 1000000⟩

/-- Seconds and nanoseconds. -/
def ofParts (secs nanos : Nat) : Duration := ⟨secs * perSecond + nanos⟩

/-- One span after another. -/
def add (d e : Duration) : Duration := ⟨d.nanos + e.nanos⟩

/-- Whole seconds. -/
def wholeSeconds (d : Duration) : Nat := d.nanos / perSecond

/-- Nanoseconds beyond the whole seconds. -/
def subsecNanos (d : Duration) : Nat := d.nanos % perSecond

theorem ofParts_wholeSeconds_subsecNanos (d : Duration) :
    ofParts d.wholeSeconds d.subsecNanos = d := by
  have h := Nat.div_add_mod d.nanos perSecond
  cases d
  simp only [ofParts, wholeSeconds, subsecNanos, mk.injEq] at h ⊢
  rw [Nat.mul_comm]
  exact h

/-! ## 1. As seconds -/

/-- The number of seconds in floating point. -/
def seconds (d : Duration) : Ratio :=
  Binary64.round
    ((Binary64.round (.ofNat d.wholeSeconds)).add (Binary64.round ⟨d.subsecNanos, perSecond⟩))

/-- The number of seconds with three decimal places. -/
def text (d : Duration) : String := d.seconds.fixed 3

/-! ## 2. Reading seconds -/

/-- Why a text is no time limit. -/
inductive Fault where
  | empty
  | malformed
  /-- Zero, negative, infinite or no number. -/
  | notPositive (text : String)
  /-- More seconds than 64 bits count. -/
  | tooLong
  deriving DecidableEq, Repr

/-- The wording of a refusal. -/
def Fault.message : Fault → String
  | .empty => "cannot parse float from empty string"
  | .malformed => "invalid float literal"
  | .notPositive text => "expected a positive number of seconds, got " ++ text
  | .tooLong => "cannot convert float seconds to Duration: value is either too big or NaN"

/-- A decimal number as it is written: the digits without the point, and the power of ten that they
    are multiplied by. -/
structure Decimal where
  digits : List Char
  power : Int
  deriving DecidableEq, Repr

/-- The value of a list of digits. -/
def digitsValue (ds : List Char) : Nat := ds.foldl (fun n c => 10 * n + (c.toNat - 48)) 0

/-- A whole number with an optional sign. -/
def readInteger? (cs : List Char) : Option Int :=
  let unsigned (ds : List Char) : Option Nat :=
    if ds ≠ [] ∧ ds.all Char.isDigit = true then some (digitsValue ds) else none
  match cs with
  | '-' :: ds => (unsigned ds).map fun n => -(n : Int)
  | '+' :: ds => (unsigned ds).map fun n => (n : Int)
  | ds => (unsigned ds).map fun n => (n : Int)

/-- A decimal number without sign: digits with a point somewhere, then perhaps an exponent. -/
def readDecimal? (cs : List Char) : Option Decimal :=
  let whole := cs.takeWhile Char.isDigit
  let afterWhole := cs.dropWhile Char.isDigit
  let (places, afterPlaces) : List Char × List Char :=
    match afterWhole with
    | '.' :: rest => (rest.takeWhile Char.isDigit, rest.dropWhile Char.isDigit)
    | rest => ([], rest)
  if whole = [] ∧ places = [] then none
  else
    match afterPlaces with
    | [] => some ⟨whole ++ places, -(places.length : Int)⟩
    | c :: rest =>
      if c = 'e' ∨ c = 'E' then
        (readInteger? rest).map fun n => ⟨whole ++ places, n - places.length⟩
      else none

/-- The nearest number of the format; none is infinite. A number with more than 400 digits before
    the point, or as many zeros after it, is out of the format's range either way. -/
def Decimal.round? (d : Decimal) : Option Ratio :=
  let significant := d.digits.dropWhile (· == '0')
  let magnitude : Int := significant.length + d.power
  if significant = [] ∨ magnitude < -400 then some ⟨0, 1⟩
  else if 400 < magnitude then none
  else
    let n := digitsValue significant
    match d.power with
    | .ofNat k => Binary64.round? ⟨n * Nat.pow 10 k, 1⟩
    | .negSucc k => Binary64.round? ⟨n, Nat.pow 10 (k + 1)⟩

/-- The words for numbers that are not finite, in any mixture of cases. -/
def isNotFiniteWord (cs : List Char) : Bool :=
  ["inf", "infinity", "nan"].contains (String.ofList (cs.map Char.toLower))

/-- Reads a time limit in seconds: a positive decimal number, to the nearest nanosecond. -/
def parse (text : String) : Except Fault Duration :=
  match text.toList with
  | [] => .error .empty
  | c :: rest =>
    let unsigned := if c = '+' ∨ c = '-' then rest else c :: rest
    if isNotFiniteWord unsigned then .error (.notPositive text)
    else
      match readDecimal? unsigned with
      | none => .error .malformed
      | some d =>
        match d.round? with
        | none => .error (.notPositive text)
        | some r =>
          if c = '-' ∨ r.num = 0 then .error (.notPositive text)
          else if Nat.pow 2 64 ≤ r.num / r.den then .error .tooLong
          else .ok ⟨(r.scale perSecond).round⟩

end Duration

end CtlTableau
