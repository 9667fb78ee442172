/-!
# Scripts

The command language in which small solvers are written: simple commands with quoting, parameters,
command substitution and redirections, joined by pipes, `&&`, `||`, `;` and lines, and the compound
commands `if`, `case`, `while`, `until`, `for`, braces and brackets. `readScript?` reads a script; it gives
nothing for a text that is none.
-/

namespace CtlTableau.Shell

/-! ## 1. Words -/

/-- What becomes of a parameter's value. -/
inductive Change where
  | none
  | length
  /-- This text takes the place of an unset or empty value. -/
  | default (word : String)
  /-- What fits a file pattern is cut off, at the start or the end, as little or as much as fits. -/
  | cut (atEnd longest : Bool) (pattern : String)
  deriving DecidableEq, Repr

/-- A piece of a word. Only what unquoted expansions give is split into fields. -/
inductive Piece where
  | text (s : String) (quoted : Bool)
  | param (name : String) (change : Change) (quoted : Bool)
  /-- What a script writes. -/
  | output (script : String) (quoted : Bool)
  deriving DecidableEq, Repr

/-- A word before expansion. -/
abbrev Word := List Piece

/-- A redirection of a numbered stream. -/
structure Redirection where
  stream : Nat
  /-- One of `<`, `>`, `>>`, `<&`, `>&`. -/
  mode : String
  target : Word
  deriving DecidableEq, Repr

/-- A lexical part of a script. -/
inductive Lexeme where
  | word (w : Word)
  | operator (symbol : String)
  | redirect (stream : Nat) (mode : String)
  deriving DecidableEq, Repr

/-- A command. -/
inductive Command where
  | simple (settings : List (String × Word)) (words : List Word) (redirections : List Redirection)
  | redirected (c : Command) (redirections : List Redirection)
  | pipeline (parts : List Command)
  | negation (c : Command)
  | both (c d : Command)
  | orElse (c d : Command)
  | sequence (cs : List Command)
  /-- The shell goes on at once. -/
  | background (c : Command)
  | subshell (c : Command)
  | ifThen (condition positive negative : Command)
  | select (subject : Word) (arms : List (List Word × Command))
  | loop (until_ : Bool) (condition body : Command)
  | each (name : String) (words : List Word) (body : Command)

/-- The command that does nothing. -/
def Command.nothing : Command := .sequence []

/-! ## 2. Reading words -/

/-- Whether a word holds the output of a script. -/
def holdsOutput (w : Word) : Bool :=
  w.any fun
    | .output _ _ => true
    | _ => false

/-- The characters of names. -/
def isNameChar (c : Char) : Bool := c.isAlphanum || c == '_'

/-- Whether a text can name a variable. -/
def isName (s : String) : Bool :=
  s.toList.all isNameChar && s.toList.head?.any fun c => !c.isDigit

/-- The characters that end an unquoted word. -/
def endsWord (c : Char) : Bool := " \t\n;&|<>()".toList.contains c

/-- The text up to the bracket that closes one already open, outside quotes. -/
def takeBalanced : Nat → List Char → List Char → List Char × List Char
  | _, [], acc => (acc.reverse, [])
  | depth, '\\' :: c :: rest, acc => takeBalanced depth rest (c :: '\\' :: acc)
  | depth, '(' :: rest, acc => takeBalanced (depth + 1) rest ('(' :: acc)
  | 0, ')' :: rest, acc => (acc.reverse, rest)
  | depth + 1, ')' :: rest, acc => takeBalanced depth rest (')' :: acc)
  | depth, c :: rest, acc => takeBalanced depth rest (c :: acc)

/-- A parameter in braces. -/
def readBraced (body : List Char) (quoted : Bool) : Piece :=
  match body with
  | '#' :: c :: name => .param (String.ofList (c :: name)) .length quoted
  | _ =>
    let name :=
      if (body.head?.any isNameChar) = true then body.takeWhile isNameChar else body.take 1
    let param (change : Change) : Piece := .param (String.ofList name) change quoted
    match body.drop name.length with
    | '#' :: '#' :: p => param (.cut false true (String.ofList p))
    | '#' :: p => param (.cut false false (String.ofList p))
    | '%' :: '%' :: p => param (.cut true true (String.ofList p))
    | '%' :: p => param (.cut true false (String.ofList p))
    | ':' :: '-' :: w => param (.default (String.ofList w))
    | '-' :: w => param (.default (String.ofList w))
    | _ => param .none

/-- What follows a dollar sign. -/
def readExpansion (cs : List Char) (quoted : Bool) : Piece × List Char :=
  match cs with
  | '(' :: rest =>
    let (body, rest) := takeBalanced 0 rest []
    (.output (String.ofList body) quoted, rest)
  | '{' :: rest =>
    let body := rest.takeWhile (· != '}')
    (readBraced body quoted, rest.drop (body.length + 1))
  | c :: rest =>
    if c.isDigit || "#?$@*!-".toList.contains c then (.param c.toString .none quoted, rest)
    else if isNameChar c then
      let name := cs.takeWhile isNameChar
      (.param (String.ofList name) .none quoted, cs.drop name.length)
    else (.text "$" quoted, cs)
  | [] => (.text "$" quoted, [])

/-- The inside of double quotes. -/
def readQuoted : Nat → List Char → Word → Word × List Char
  | 0, cs, acc => (acc.reverse, cs)
  | _ + 1, [], acc => (acc.reverse, [])
  | fuel + 1, c :: rest, acc =>
    match c with
    | '"' => (acc.reverse, rest)
    | '$' =>
      let (piece, rest) := readExpansion rest true
      readQuoted fuel rest (piece :: acc)
    | '`' =>
      let body := rest.takeWhile (· != '`')
      readQuoted fuel (rest.drop (body.length + 1)) (.output (String.ofList body) true :: acc)
    | '\\' =>
      match rest with
      | [] => readQuoted fuel [] (.text "\\" true :: acc)
      | d :: rest =>
        if d = '\n' then readQuoted fuel rest acc
        else if "$`\"\\".toList.contains d then readQuoted fuel rest (.text d.toString true :: acc)
        else readQuoted fuel rest (.text (String.ofList ['\\', d]) true :: acc)
    | c => readQuoted fuel rest (.text c.toString true :: acc)

/-- A word. -/
def readWord : Nat → List Char → Word → Word × List Char
  | 0, cs, acc => (acc.reverse, cs)
  | _ + 1, [], acc => (acc.reverse, [])
  | fuel + 1, c :: rest, acc =>
    if endsWord c then (acc.reverse, c :: rest)
    else
      match c with
      | '\'' =>
        let body := rest.takeWhile (· != '\'')
        readWord fuel (rest.drop (body.length + 1)) (.text (String.ofList body) true :: acc)
      | '"' =>
        let (pieces, rest) := readQuoted (rest.length + 1) rest [.text "" true]
        readWord fuel rest (pieces.reverse ++ acc)
      | '$' =>
        let (piece, rest) := readExpansion rest false
        readWord fuel rest (piece :: acc)
      | '`' =>
        let body := rest.takeWhile (· != '`')
        readWord fuel (rest.drop (body.length + 1)) (.output (String.ofList body) false :: acc)
      | '\\' =>
        match rest with
        | '\n' :: rest => readWord fuel rest acc
        | d :: rest => readWord fuel rest (.text d.toString true :: acc)
        | [] => readWord fuel [] (.text "\\" true :: acc)
      | c => readWord fuel rest (.text c.toString false :: acc)

/-! ## 3. Reading lexical parts -/

/-- The operators, longer ones before those that they begin with. -/
def operators : List String := ["&&", "||", ";;", ";", "&", "|", "(", ")", "\n"]

/-- The redirection modes, longer ones before those that they begin with. -/
def redirectModes : List String := [">>", ">&", ">|", ">", "<&", "<"]

/-- Takes the first of some symbols that a text begins with. -/
def takeSymbol? (symbols : List String) (cs : List Char) : Option (String × List Char) :=
  (symbols.find? fun s => s.toList.isPrefixOf cs).map fun s => (s, cs.drop s.length)

/-- The lexical parts of a script. -/
def readLexemes : Nat → List Char → List Lexeme
  | 0, _ => []
  | _ + 1, [] => []
  | fuel + 1, c :: rest =>
    let cs := c :: rest
    if c = ' ' ∨ c = '\t' then readLexemes fuel rest
    else if c = '#' then readLexemes fuel (rest.dropWhile (· != '\n'))
    else
      let digits := cs.takeWhile Char.isDigit
      match takeSymbol? redirectModes (cs.drop digits.length) with
      | some (mode, after) =>
        let usual := if mode.toList.head? = some '<' then 0 else 1
        .redirect ((String.ofList digits).toNat?.getD usual) mode :: readLexemes fuel after
      | none =>
        match takeSymbol? operators cs with
        | some (symbol, after) => .operator symbol :: readLexemes fuel after
        | none =>
          let (w, after) := readWord (cs.length + 1) cs []
          .word w :: readLexemes fuel after

/-! ## 4. Reading commands -/

/-- The text of a word that is neither quoted nor expanded. -/
def plainText? (w : Word) : Option String :=
  w.foldr (fun piece acc =>
    match piece, acc with
    | .text s false, some t => some (s ++ t)
    | _, _ => none) (some "")

/-- Whether the next part is one of some reserved words. -/
def startsWith (reserved : List String) : List Lexeme → Bool
  | .word w :: _ => (plainText? w).any reserved.contains
  | _ => false

/-- Takes a reserved word. -/
def takeReserved? (reserved : String) (us : List Lexeme) : Option (List Lexeme) :=
  if startsWith [reserved] us then some us.tail else none

/-- Leaves out ends of lines. -/
def skipLines (us : List Lexeme) : List Lexeme := us.dropWhile (· == .operator "\n")

/-- Leaves out ends of lines and semicolons. -/
def skipSeparators (us : List Lexeme) : List Lexeme :=
  us.dropWhile fun u => u == .operator "\n" || u == .operator ";"

/-- The words that end a list of commands. -/
def closers : List String := ["then", "elif", "else", "fi", "do", "done", "esac", "\x7d"]

/-- A setting of a variable. -/
def setting? (w : Word) : Option (String × Word) :=
  let unquoted := w.takeWhile fun
    | .text s false => s != "="
    | _ => false
  match plainText? unquoted, w.drop unquoted.length with
  | some name, .text "=" false :: value => if isName name then some (name, value) else none
  | _, _ => none

/-- The rest of a simple command. -/
def readSimple (settings : List (String × Word)) (words : List Word)
    (redirections : List Redirection) : List Lexeme → Option (Command × List Lexeme)
  | .redirect stream mode :: .word target :: rest =>
    readSimple settings words (redirections ++ [⟨stream, mode, target⟩]) rest
  | .redirect _ _ :: _ => none
  | .word w :: rest =>
    match setting? w, words with
    | some s, [] => readSimple (settings ++ [s]) [] redirections rest
    | _, _ => readSimple settings (words ++ [w]) redirections rest
  | rest =>
    if settings.isEmpty && words.isEmpty && redirections.isEmpty then none
    else some (.simple settings words redirections, rest)

/-- The redirections after a compound command. -/
def readRedirections (c : Command) (redirections : List Redirection) :
    List Lexeme → Option (Command × List Lexeme)
  | .redirect stream mode :: .word target :: rest =>
    readRedirections c (redirections ++ [⟨stream, mode, target⟩]) rest
  | rest => some (if redirections.isEmpty then c else .redirected c redirections, rest)

/-- The patterns of an arm of `case`, up to the closing bracket. -/
def readPatterns (patterns : List Word) : List Lexeme → Option (List Word × List Lexeme)
  | .word w :: .operator "|" :: rest => readPatterns (patterns ++ [w]) rest
  | .word w :: .operator ")" :: rest => some (patterns ++ [w], rest)
  | _ => none

/-- Words up to the end of a line or command. -/
def readWords (words : List Word) : List Lexeme → List Word × List Lexeme
  | .word w :: rest => readWords (words ++ [w]) rest
  | rest => (words, rest)

mutual

/-- Commands one after another, up to what closes the list. -/
def readList : Nat → List Lexeme → Option (List Command × List Lexeme)
  | 0, _ => none
  | fuel + 1, us =>
    let us := skipLines us
    match us with
    | [] => some ([], [])
    | .operator ")" :: _ | .operator ";;" :: _ => some ([], us)
    | _ =>
      if startsWith closers us then some ([], us)
      else do
        let (c, rest) ← readPipeline fuel us
        let (c, rest) ← readJoined fuel c rest
        match rest with
        | .operator op :: rest' =>
          if op = ";" ∨ op = "\n" ∨ op = "&" then
            let (cs, rest'') ← readList fuel rest'
            return ((if op = "&" then .background c else c) :: cs, rest'')
          else return ([c], rest)
        | _ => return ([c], rest)

/-- What is joined to a command by `&&` and `||`. -/
def readJoined : Nat → Command → List Lexeme → Option (Command × List Lexeme)
  | 0, _, _ => none
  | fuel + 1, c, us =>
    match us with
    | .operator "&&" :: rest => do
      let (d, rest) ← readPipeline fuel (skipLines rest)
      readJoined fuel (.both c d) rest
    | .operator "||" :: rest => do
      let (d, rest) ← readPipeline fuel (skipLines rest)
      readJoined fuel (.orElse c d) rest
    | _ => some (c, us)

/-- Commands joined by pipes, perhaps negated. -/
def readPipeline : Nat → List Lexeme → Option (Command × List Lexeme)
  | 0, _ => none
  | fuel + 1, us =>
    match takeReserved? "!" us with
    | some rest => do
      let (c, rest) ← readPipeline fuel rest
      return (.negation c, rest)
    | none => do
      let (c, rest) ← readCommand fuel us
      match rest with
      | .operator "|" :: rest =>
        match ← readPipeline fuel (skipLines rest) with
        | (.pipeline parts, rest) => return (.pipeline (c :: parts), rest)
        | (d, rest) => return (.pipeline [c, d], rest)
      | _ => return (c, rest)

/-- One command. -/
def readCommand : Nat → List Lexeme → Option (Command × List Lexeme)
  | 0, _ => none
  | fuel + 1, us =>
    match us with
    | .operator "(" :: rest => do
      let (cs, rest) ← readList fuel rest
      match rest with
      | .operator ")" :: rest => readRedirections (.subshell (.sequence cs)) [] rest
      | _ => none
    | _ =>
      if startsWith ["\x7b"] us then do
        let (cs, rest) ← readList fuel us.tail
        readRedirections (.sequence cs) [] (← takeReserved? "\x7d" rest)
      else if startsWith ["if"] us then do
        let (c, rest) ← readBranches fuel us.tail
        readRedirections c [] rest
      else if startsWith ["while", "until"] us then do
        let (condition, rest) ← readList fuel us.tail
        let (body, rest) ← readList fuel (← takeReserved? "do" rest)
        let rest ← takeReserved? "done" rest
        readRedirections (.loop (startsWith ["until"] us) (.sequence condition) (.sequence body)) [] rest
      else if startsWith ["for"] us then
        match us.tail with
        | .word w :: rest => do
          let name ← plainText? w
          let (words, rest) := match takeReserved? "in" rest with
            | some rest => readWords [] rest
            | none => ([[.param "@" .none true]], rest)
          let (body, rest) ← readList fuel (← takeReserved? "do" (skipSeparators rest))
          readRedirections (.each name words (.sequence body)) [] (← takeReserved? "done" rest)
        | _ => none
      else if startsWith ["case"] us then
        match us.tail with
        | .word w :: rest => do
          let (arms, rest) ← readArms fuel (← takeReserved? "in" rest)
          readRedirections (.select w arms) [] rest
        | _ => none
      else readSimple [] [] [] us

/-- What follows `if` and `elif`, to the closing `fi`. -/
def readBranches : Nat → List Lexeme → Option (Command × List Lexeme)
  | 0, _ => none
  | fuel + 1, us => do
    let (condition, rest) ← readList fuel us
    let (positive, rest) ← readList fuel (← takeReserved? "then" rest)
    match takeReserved? "elif" rest with
    | some rest =>
      let (negative, rest) ← readBranches fuel rest
      return (.ifThen (.sequence condition) (.sequence positive) negative, rest)
    | none =>
      match takeReserved? "else" rest with
      | some rest =>
        let (negative, rest) ← readList fuel rest
        let rest ← takeReserved? "fi" rest
        return (.ifThen (.sequence condition) (.sequence positive) (.sequence negative), rest)
      | none =>
        let rest ← takeReserved? "fi" rest
        return (.ifThen (.sequence condition) (.sequence positive) .nothing, rest)

/-- The arms of `case`, to the closing `esac`. -/
def readArms : Nat → List Lexeme → Option (List (List Word × Command) × List Lexeme)
  | 0, _ => none
  | fuel + 1, us =>
    let us := skipSeparators us
    match takeReserved? "esac" us with
    | some rest => some ([], rest)
    | none => do
      let us := match us with
        | .operator "(" :: rest => rest
        | us => us
      let (patterns, rest) ← readPatterns [] us
      let (body, rest) ← readList fuel rest
      let rest := match rest with
        | .operator ";;" :: rest => rest
        | rest => rest
      let (arms, rest) ← readArms fuel rest
      return ((patterns, .sequence body) :: arms, rest)

end

/-- Reads a script. -/
def readScript? (s : String) : Option Command :=
  let parts := readLexemes (s.length + 1) s.toList
  match readList (4 * parts.length + 8) parts with
  | some (cs, []) => some (.sequence cs)
  | _ => none

end CtlTableau.Shell
