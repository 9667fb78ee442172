import CtlTableau.Number.Duration
import CtlTableau.Shell.Pattern

/-!
# Tools

The small programs that scripts call: they read files or their standard input, write text and end
with a status. Each is a function of its arguments, the files and the input.
-/

namespace CtlTableau.Shell

open Text

/-- Files by path, the latest content first. -/
abbrev Files := List (String × String)

/-- What a tool did. -/
structure Effect where
  status : Nat
  out : String := ""
  /-- How long it slept. -/
  slept : Duration := .zero
  deriving DecidableEq, Repr

/-- The path of the file that takes everything and holds nothing. -/
def nullPath : String := "/dev/null"

/-- The content of a file. -/
def Files.read? (files : Files) (path : String) : Option String :=
  if path = nullPath then some "" else files.lookup path

/-- The directories that scripts may ask for. -/
def directories : List String :=
  ["/", ".", "..", "./", "../", "/tmp", "/tmp/", "/dev", "/bin", "/usr", "/usr/bin", "/etc", "/home",
    "/root", "/var", "/opt", "/lib", "/proc", "/sys"]

/-- The lines of a text. -/
def linesOf (s : String) : List String :=
  let ls := s.splitOn "\n"
  if ls.getLast? = some "" then ls.dropLast else ls

/-- A text of lines. -/
def ofLines (ls : List String) : String := ls.foldl (fun s l => s ++ l ++ "\n") ""

/-- The words of a text. -/
def wordsOf (s : String) : List String :=
  (s.split fun c => c = ' ' ∨ c = '\t' ∨ c = '\n').toList.map (·.toString) |>.filter (· != "")

/-- The texts that paths name, the input if there are none; nothing if one cannot be read. -/
def contents? (files : Files) (input : String) : List String → Option (List String)
  | [] => some [input]
  | paths => paths.mapM fun p => if p = "-" then some input else files.read? p

/-! ## 1. Conditions -/

/-- A comparison of numbers. -/
def numberTest? : String → Option (Int → Int → Bool)
  | "-eq" => some (· == ·)
  | "-ne" => some (· != ·)
  | "-lt" => some (decide <| · < ·)
  | "-le" => some (decide <| · ≤ ·)
  | "-gt" => some (decide <| · > ·)
  | "-ge" => some (decide <| · ≥ ·)
  | _ => none

/-- The number that a text stands for. -/
def readInt? (s : String) : Option Int :=
  let s := s.trimAscii.toString
  (if s.toList.head? = some '+' then String.ofList (s.toList.drop 1) else s).toInt?

/-- A condition; nothing for a malformed one. -/
def condition? (files : Files) : List String → Option Bool
  | [] => some false
  | [a] => some (a != "")
  | ["!", a] => some (a == "")
  | [op, a] =>
    match op with
    | "-n" => some (a != "")
    | "-z" => some (a == "")
    | "-f" => some ((files.lookup a).isSome)
    | "-e" | "-r" | "-w" => some ((files.read? a).isSome || directories.contains a)
    | "-s" => some ((files.lookup a).any (· != "") || directories.contains a)
    | "-d" => some (directories.contains a)
    | "-x" => some (directories.contains a)
    | "-h" | "-L" | "-p" | "-S" | "-b" | "-t" => some false
    | "-c" => some (a == nullPath)
    | _ => none
  | "!" :: rest@(_ :: _ :: _) => (condition? files rest).map (!·)
  | [a, op, b] =>
    match op with
    | "=" | "==" => some (a == b)
    | "!=" => some (a != b)
    | "-a" => some (a != "" && b != "")
    | "-o" => some (a != "" || b != "")
    | _ => do
      let test ← numberTest? op
      return test (← readInt? a) (← readInt? b)
  | a :: op :: b :: "-a" :: rest => do
    return (← condition? files [a, op, b]) && (← condition? files rest)
  | a :: op :: b :: "-o" :: rest => do
    return (← condition? files [a, op, b]) || (← condition? files rest)
  | a :: op :: "-a" :: rest => do
    return (← condition? files [a, op]) && (← condition? files rest)
  | a :: op :: "-o" :: rest => do
    return (← condition? files [a, op]) || (← condition? files rest)
  | _ => none
termination_by args => args.length

/-- The status of a condition. -/
def conditionStatus (files : Files) (args : List String) : Nat :=
  match condition? files args with
  | some true => 0
  | some false => 1
  | none => 2

/-! ## 2. Parts of texts -/

/-- What to take of a text: so many lines or bytes, from the start or up to the end. -/
structure Portion where
  bytes : Bool := false
  count : Nat := 10
  /-- The count is where to start, and not how much to take. -/
  fromCount : Bool := false

/-- A count with its sign. -/
def Portion.withCount (p : Portion) (s : String) : Option Portion :=
  match s.toList with
  | '+' :: ds => (String.ofList ds).toNat?.map fun n => { p with count := n, fromCount := true }
  | '-' :: ds => (String.ofList ds).toNat?.map fun n => { p with count := n }
  | _ => s.toNat?.map fun n => { p with count := n }

/-- Reads the options of `head` and `tail`. -/
def readPortion? (p : Portion) : List String → Option (Portion × List String)
  | "-n" :: n :: rest => do readPortion? (← p.withCount n) rest
  | "-c" :: n :: rest => do readPortion? (← { p with bytes := true }.withCount n) rest
  | a :: rest =>
    match a.toList with
    | '-' :: 'n' :: n => do readPortion? (← p.withCount (String.ofList n)) rest
    | '-' :: 'c' :: n => do readPortion? (← { p with bytes := true }.withCount (String.ofList n)) rest
    | '-' :: d :: ds =>
      if d.isDigit then do readPortion? (← p.withCount (String.ofList (d :: ds))) rest else none
    | _ => some (p, a :: rest)
  | [] => some (p, [])

/-- The start of a text. -/
def Portion.head (p : Portion) (s : String) : String :=
  if p.bytes then String.ofList (s.toList.take p.count) else ofLines ((linesOf s).take p.count)

/-- The end of a text. -/
def Portion.tail (p : Portion) (s : String) : String :=
  let ending {α : Type} (xs : List α) : List α :=
    if p.fromCount then xs.drop (p.count - 1) else xs.drop (xs.length - p.count)
  if p.bytes then String.ofList (ending s.toList) else ofLines (ending (linesOf s))

/-- Takes a portion of every file. -/
def portionEffect (files : Files) (input : String) (take : Portion → String → String)
    (args : List String) : Effect :=
  match readPortion? {} args with
  | none => { status := 1 }
  | some (p, paths) =>
    match contents? files input paths with
    | none => { status := 1 }
    | some texts => { status := 0, out := String.join (texts.map (take p)) }

/-! ## 3. Searching -/

/-- How to search. -/
structure Search where
  quiet : Bool := false
  counting : Bool := false
  inverted : Bool := false
  wholeLines : Bool := false
  anyCase : Bool := false
  listing : Bool := false
  numbering : Bool := false
  fixed : Bool := false
  extended : Bool := false
  limit : Option Nat := none
  patterns : List String := []

/-- Turns on what an option letter stands for. -/
def Search.withLetter? (s : Search) : Char → Option Search
  | 'q' => some { s with quiet := true }
  | 'c' => some { s with counting := true }
  | 'v' => some { s with inverted := true }
  | 'x' => some { s with wholeLines := true }
  | 'i' => some { s with anyCase := true }
  | 'l' => some { s with listing := true }
  | 'n' => some { s with numbering := true }
  | 'F' => some { s with fixed := true }
  | 'E' => some { s with extended := true }
  | 'G' | 's' | 'h' | 'a' => some s
  | _ => none

/-- Reads the options of `grep`; what is left are the paths. -/
def readSearch? (s : Search) : List String → Option (Search × List String)
  | "-e" :: p :: rest => readSearch? { s with patterns := s.patterns ++ [p] } rest
  | "-m" :: n :: rest => readSearch? { s with limit := n.toNat? } rest
  | "--" :: rest => some (s, rest)
  | a :: rest =>
    match a.toList with
    | '-' :: c :: cs => do
      let s ← (c :: cs).foldlM Search.withLetter? s
      readSearch? s rest
    | _ =>
      if s.patterns.isEmpty then readSearch? { s with patterns := [a] } rest
      else (readSearch? s rest).map fun (s, paths) => (s, a :: paths)
  | [] => if s.patterns.isEmpty then none else some (s, [])

/-- The lines that are found. -/
def Search.found (s : Search) (text : String) : List (Nat × String) :=
  let fold (t : String) : String := if s.anyCase then t.toLower else t
  let read (p : String) : Regex :=
    if s.fixed then fixedExpression (fold p)
    else readExpression (if s.extended then .extended else .basic) (fold p)
  let r := (s.patterns.map read).foldr Regex.either .never
  let fits (line : String) : Bool :=
    (if s.wholeLines then r.matchLine (fold line) else r.search (fold line)) != s.inverted
  let all := (linesOf text).zipIdx.filterMap fun (line, i) =>
    if fits line then some (i + 1, line) else none
  match s.limit with
  | some n => all.take n
  | none => all

/-- Searches files. -/
def searchEffect (files : Files) (input : String) (args : List String) : Effect :=
  match readSearch? {} args with
  | none => { status := 2 }
  | some (s, paths) =>
    match contents? files input paths with
    | none => { status := 2 }
    | some texts =>
      let found := texts.map s.found
      let status := if found.all (·.isEmpty) then 1 else 0
      let label (i : Nat) : String :=
        if 1 < paths.length then paths.getD i "" ++ ":" else ""
      let report : List (Nat × String) × Nat → List String := fun (ls, i) =>
        if s.listing then (if ls.isEmpty then [] else [paths.getD i "(standard input)"])
        else if s.counting then [label i ++ toString ls.length]
        else ls.map fun (n, l) => label i ++ (if s.numbering then toString n ++ ":" else "") ++ l
      { status, out := if s.quiet then "" else ofLines (found.zipIdx.flatMap report) }

/-! ## 4. Counting, cutting, naming -/

/-- Counts lines, words or bytes. -/
def countEffect (files : Files) (input : String) (args : List String) : Effect :=
  let options := args.takeWhile fun a => a.startsWith "-" && a != "-"
  let letters := options.flatMap fun a => a.toList.drop 1
  let letters := if letters.isEmpty then ['l', 'w', 'c'] else letters
  let paths := args.drop options.length
  match contents? files input paths with
  | none => { status := 1 }
  | some texts =>
    let counts (t : String) : List Nat :=
      (if letters.contains 'l' then [t.toList.count '\n'] else []) ++
        (if letters.contains 'w' then [(wordsOf t).length] else []) ++
        (if letters.contains 'm' then [t.length] else []) ++
        (if letters.contains 'c' then [t.utf8ByteSize] else [])
    { status := 0
      out := ofLines (texts.zipIdx.map fun (t, i) =>
        " ".intercalate ((counts t).map toString ++ (paths[i]?).toList)) }

/-- The numbers of a list such as `1,3-4`. -/
def readFields (s : String) : List Nat :=
  (s.splitOn ",").flatMap fun part =>
    match part.splitOn "-" with
    | [a] => a.toNat?.toList
    | [a, b] => let lo := a.toNat?.getD 1; List.range' lo (b.toNat?.getD lo + 1 - lo)
    | _ => []

/-- Cuts fields out of lines. -/
def cutEffect (files : Files) (input : String) : String → List Nat → List String → Effect
  | _, fields, "-d" :: d :: rest => cutEffect files input d fields rest
  | delimiter, _, "-f" :: f :: rest => cutEffect files input delimiter (readFields f) rest
  | delimiter, fields, a :: rest =>
    match a.toList with
    | '-' :: 'd' :: d => cutEffect files input (String.ofList d) fields rest
    | '-' :: 'f' :: f => cutEffect files input delimiter (readFields (String.ofList f)) rest
    | _ => cutAll delimiter fields (a :: rest)
  | delimiter, fields, [] => cutAll delimiter fields []
where
  cutAll (delimiter : String) (fields : List Nat) (paths : List String) : Effect :=
    match contents? files input paths with
    | none => { status := 1 }
    | some texts =>
      let cut (line : String) : String :=
        let parts := line.splitOn delimiter
        if parts.length ≤ 1 then line
        else delimiter.intercalate (parts.zipIdx.filterMap fun (p, i) =>
          if fields.contains (i + 1) then some p else none)
      { status := 0, out := ofLines ((texts.flatMap linesOf).map cut) }

/-- The last part of a path. -/
def baseName (path : String) : String :=
  ((path.splitOn "/").filter (· != "")).getLast?.getD "/"

/-- The path without its last part. -/
def dirName (path : String) : String :=
  match (path.splitOn "/").dropLast with
  | [] => "."
  | [""] => "/"
  | parts => "/".intercalate parts

/-- A text with its backslash escapes read. -/
def readEscapes : List Char → List Char
  | '\\' :: 'n' :: rest => '\n' :: readEscapes rest
  | '\\' :: 't' :: rest => '\t' :: readEscapes rest
  | '\\' :: '\\' :: rest => '\\' :: readEscapes rest
  | c :: rest => c :: readEscapes rest
  | [] => []

/-- A format with its places filled from left to right. -/
def fillFormat : List Char → List String → List Char
  | '%' :: '%' :: rest, args => '%' :: fillFormat rest args
  | '%' :: _ :: rest, args => (args.headD "").toList ++ fillFormat rest args.tail
  | c :: rest, args => c :: fillFormat rest args
  | [], _ => []

/-- How long a word asks to sleep. -/
def readSleep? (s : String) : Option Duration :=
  match s.toList.getLast? with
  | some 's' => seconds (s.dropEnd 1).toString
  | some 'm' => (seconds (s.dropEnd 1).toString).map fun d => ⟨60 * d.nanos⟩
  | _ => seconds s
where
  seconds (s : String) : Option Duration :=
    if s.toList.any Char.isDigit && s.toList.all (fun c => c == '0' || c == '.') then some .zero
    else (Duration.parse s).toOption

/-! ## 5. All tools -/

/-- What a tool does; nothing for a name that is no tool. -/
def tool? (files : Files) (input : String) (name : String) (args : List String) : Option Effect :=
  match name with
  | "true" | ":" => some { status := 0 }
  | "false" => some { status := 1 }
  | "test" => some { status := conditionStatus files args }
  | "[" =>
    some { status := if args.getLast? = some "]" then conditionStatus files args.dropLast else 2 }
  | "echo" =>
    some (match args with
      | "-n" :: rest => { status := 0, out := " ".intercalate rest }
      | _ => { status := 0, out := " ".intercalate args ++ "\n" })
  | "printf" =>
    some (match args with
      | [] => { status := 2 }
      | format :: rest =>
        { status := 0, out := String.ofList (fillFormat (readEscapes format.toList) rest) })
  | "cat" =>
    some (match contents? files input args with
      | some texts => { status := 0, out := String.join texts }
      | none => { status := 1 })
  | "head" => some (portionEffect files input Portion.head args)
  | "tail" => some (portionEffect files input Portion.tail args)
  | "grep" => some (searchEffect files input args)
  | "egrep" => some (searchEffect files input ("-E" :: args))
  | "fgrep" => some (searchEffect files input ("-F" :: args))
  | "wc" => some (countEffect files input args)
  | "cut" => some (cutEffect files input "\t" [] args)
  | "basename" =>
    some (match args with
      | [p] => { status := 0, out := baseName p ++ "\n" }
      | [p, ending] =>
        let b := baseName p
        let kept := if b.endsWith ending && b != ending then (b.dropEnd ending.length).toString else b
        { status := 0, out := kept ++ "\n" }
      | _ => { status := 1 })
  | "dirname" =>
    some (match args with
      | [p] => { status := 0, out := dirName p ++ "\n" }
      | _ => { status := 1 })
  | "ls" =>
    some (if args.all fun p => (files.read? p).isSome || directories.contains p then
        { status := 0, out := ofLines args }
      else { status := 2 })
  | "sleep" =>
    some (match args.mapM readSleep? with
      | some (d :: ds) => { status := 0, slept := ds.foldl .add d }
      | _ => { status := 1 })
  | "pwd" => some { status := 0, out := "/\n" }
  | "cd" | "export" | "unset" | "umask" | "ulimit" => some { status := 0 }
  | _ => none

end CtlTableau.Shell
