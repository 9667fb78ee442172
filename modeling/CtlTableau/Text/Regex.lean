/-!
# Regular expressions

Regular expressions over the characters of a line, with marks for its start and its end, matched by
derivatives: `Regex.after r m` is what remains to be matched of `r` once `m` was read. Main
statement: `matchList_cons`, by which matching goes one mark at a time.
-/

namespace CtlTableau.Text

/-- What a line is made of, for matching. -/
inductive Mark where
  | start
  | char (c : Char)
  | stop
  deriving DecidableEq, Repr

/-- A set of characters: some ranges, or all but these. -/
structure CharSet where
  ranges : List (Char × Char)
  negated : Bool := false
  deriving DecidableEq, Repr

/-- Whether a character is in a set. -/
def CharSet.has (s : CharSet) (c : Char) : Bool :=
  s.ranges.any (fun (lo, hi) => lo ≤ c && c ≤ hi) != s.negated

/-- Regular expressions. -/
inductive Regex where
  /-- Nothing matches. -/
  | never
  /-- The empty text matches. -/
  | empty
  /-- One character of a set. -/
  | one (set : CharSet)
  /-- This mark. -/
  | mark (m : Mark)
  /-- Any mark. -/
  | anyMark
  | seq (r s : Regex)
  | alt (r s : Regex)
  | star (r : Regex)
  deriving DecidableEq, Repr

namespace Regex

/-- One given character. -/
def char (c : Char) : Regex := .mark (.char c)

/-- Any character. -/
def anyChar : Regex := .one ⟨[], true⟩

/-- Whether the empty text matches. -/
def nullable : Regex → Bool
  | .never | .one _ | .mark _ | .anyMark => false
  | .empty | .star _ => true
  | .seq r s => r.nullable && s.nullable
  | .alt r s => r.nullable || s.nullable

/-- A sequence, where it can be told at once that nothing matches or that one part is empty. -/
def join (r s : Regex) : Regex :=
  match r, s with
  | .never, _ => .never
  | _, .never => .never
  | .empty, s => s
  | r, s => .seq r s

/-- A choice, where it can be told at once that one side adds nothing. -/
def either (r s : Regex) : Regex :=
  match r, s with
  | .never, s => s
  | r, .never => r
  | r, s => if r = s then r else .alt r s

/-- What remains to be matched after a mark. -/
def after (m : Mark) : Regex → Regex
  | .never | .empty => .never
  | .one set =>
    match m with
    | .char c => if set.has c then .empty else .never
    | _ => .never
  | .mark m' => if m = m' then .empty else .never
  | .anyMark => .empty
  | .seq r s => if r.nullable then either (join (r.after m) s) (s.after m) else join (r.after m) s
  | .alt r s => either (r.after m) (s.after m)
  | .star r => join (r.after m) (.star r)

/-- Whether a list of marks matches. -/
def matchList (r : Regex) (ms : List Mark) : Bool := (ms.foldl (fun r m => r.after m) r).nullable

@[simp] theorem matchList_nil (r : Regex) : r.matchList [] = r.nullable := rfl

@[simp] theorem matchList_cons (r : Regex) (m : Mark) (ms : List Mark) :
    r.matchList (m :: ms) = (r.after m).matchList ms := rfl

/-- The marks of a line. -/
def marks (line : List Char) : List Mark := .start :: line.map .char ++ [.stop]

/-- Whether a whole line matches. -/
def matchLine (r : Regex) (line : String) : Bool :=
  (join (.mark .start) (join r (.mark .stop))).matchList (marks line.toList)

/-- Whether some part of a line matches. -/
def search (r : Regex) (line : String) : Bool :=
  (join (.star .anyMark) (join r (.star .anyMark))).matchList (marks line.toList)

/-- Between `least` and `most` repetitions; without `most` any number. -/
def times (r : Regex) (least : Nat) (most : Option Nat) : Regex :=
  let required := (List.replicate least r).foldr join .empty
  match most with
  | none => join required (.star r)
  | some n => (List.replicate (n - least) r).foldl (fun s r => join s (either .empty r)) required

end Regex

end CtlTableau.Text
