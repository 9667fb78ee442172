import CtlTableau.Text.Property

/-!
# Quoted text

Messages quote the characters and strings they show. A quoted text stands between its marks; inside,
the mark itself and the backslash are preceded by a backslash, four controls have a letter, and every
other character that is not graphic, or that would attach to the character before it, is written by
its code point in hexadecimal. So a quoted text is visible as it stands and shows where it ends.
-/

namespace CtlTableau.Text

/-- Hexadecimal digits, lower case, without leading zeros. -/
def hex (n : Nat) : String := String.ofList (Nat.toDigits 16 n)

/-- A character by its code point. -/
def codePoint (c : Char) : String := "\\u\x7b" ++ hex c.toNat ++ "\x7d"

/-- One character as it stands between the given marks. -/
def quoteChar (mark : Char) (c : Char) : String :=
  match c with
  | '\x00' => "\\0"
  | '\t' => "\\t"
  | '\r' => "\\r"
  | '\n' => "\\n"
  | '\\' => "\\\\"
  | c =>
    if c == mark then "\\" ++ c.toString
    else if isExtending c || !isGraphic c then codePoint c
    else c.toString

/-- A string between double marks. -/
def quoted (s : String) : String :=
  s.foldl (fun acc c => acc ++ quoteChar '"' c) "\"" ++ "\""

/-- A character between single marks. -/
def quotedChar (c : Char) : String := "'" ++ quoteChar '\'' c ++ "'"

/-- A list of strings, each quoted, between square brackets. -/
def quotedList (ss : List String) : String := "[" ++ ", ".intercalate (ss.map quoted) ++ "]"

end CtlTableau.Text
