import CtlTableau.Formula.Parser
import CtlTableau.Record

/-!
# What is noted down while reading

Reading notes down every text that was split into tokens, every list of items and every bracket that
it goes into, with the tokens that are left there. What is noted depends on the places at which
parsers start, and these can be told from the parsers alone: `Parser.itemStarts` lists where the
items of a list start, read or not. So the notes are functions beside the parsers.
-/

namespace CtlTableau

/-- What a parser notes down on a token list. -/
abbrev Notes := List String → List Record

namespace Parser

variable {α : Type}

/-! ## 1. Items with separators -/

/-- The token lists at which the items of a list start. The last of them need not hold an item. -/
def itemStarts (sep : String) (p : Parser α) (ts : List String) : List (List String) :=
  match _h : p.run ts with
  | .ok (_, t :: rest) => if t = sep then ts :: itemStarts sep p rest else [ts]
  | _ => [ts]
termination_by ts.length
decreasing_by exact p.length_le _h

/-- What the infix combinators note down: what their items do. -/
def infixNotes (sep : String) (p : Parser α) (notes : Notes) : Notes :=
  fun ts => (itemStarts sep p ts).flatMap notes

/-- What `list` notes down. -/
def listNotes (sep : String) (p : Parser α) (notes : Notes) : Notes :=
  fun ts => .items sep ts :: infixNotes sep p notes ts

/-- What `bracketed` notes down. -/
def bracketedNotes (notes : Notes) : Notes := fun ts => .bracketed ts :: notes ts

/-- What `bracketedList` notes down. -/
def bracketedListNotes (sep : String) (p : Parser α) (notes : Notes) : Notes :=
  fun ts => .bracketedItems ts :: listNotes sep p notes ts

end Parser

namespace Formula

open CtlTableau.Parser

/-! ## 2. Formulas -/

/-- What reading a whole formula notes down, given how units are read and noted. -/
def implicationNotes (unit : Parser Formula) (notes : Notes) : Notes :=
  infixNotes "->" (disjunctions unit)
    (infixNotes "|" (conjunctions unit) (infixNotes "&" unit notes))

/-- What reading a unit notes down. -/
def unitNotes : Nat → Notes
  | 0, _ => []
  | _ + 1, [] => []
  | depth + 1, t :: rest =>
    let inner := implicationNotes (unitAt depth) (unitNotes depth)
    if t = "~" then unitNotes depth rest
    else if t = "(" then bracketedNotes inner rest
    else if isKeyword t then
      match expect "(" rest with
      | .ok rest' => bracketedListNotes "," (implications (unitAt depth)) inner rest'
      | .error _ => []
    else []

/-- What reading a formula off a token list notes down. -/
def parserNotes : Notes := fun ts =>
  implicationNotes (unitAt (ts.length + 1)) (unitNotes (ts.length + 1)) ts

/-- What reading a text as a formula notes down. -/
def parseNotes (s : String) : List Record :=
  match tokenize s with
  | .ok ts => .lexed s ts :: parserNotes ts
  | .error _ => []

end Formula

end CtlTableau
