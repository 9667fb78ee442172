import CtlTableau.Shell.Script
import CtlTableau.Shell.Tool
import CtlTableau.Solver.Exit

/-!
# Running scripts

What a shell does with a script: `Shell.run` takes a command and the shell's state to what is
written, how the state changes and, if the shell came to its end, how. Every step into a part of a
command takes one unit of fuel, and so does every round of a loop; a shell that runs out of it is
taken to sleep for ever.
-/

namespace CtlTableau.Shell

open Solver

/-! ## 1. The state of a shell -/

/-- The process number of every shell. -/
def pid : String := "4711"

/-- The process number of whatever runs in the background. -/
def jobPid : String := "4712"

/-- The state of a shell. -/
structure State where
  /-- What the shell is called. -/
  zero : String
  args : List String
  settings : List (String × String) := []
  files : Files
  input : String := ""
  /-- The status of the last command. -/
  status : Nat := 0
  slept : Duration := .zero
  /-- When everything that was started in the background is done. -/
  busyUntil : Duration := .zero
  /-- The status of what was started there last. -/
  jobStatus : Nat := 0
  /-- The signals that are ignored. -/
  ignored : List Nat := []

/-- What came of running a command. -/
structure Result where
  state : State
  out : String := ""
  /-- How the shell ended, if it did. -/
  ended : Option Exit := none

/-- Longer than anyone waits. -/
def forever : Duration := .ofParts 1000000000 0

namespace State

/-- Ends a command with a status. -/
def settle (st : State) (status : Nat) (out : String := "") : Result :=
  { state := { st with status }, out }

/-- The value of a parameter. -/
def value? (st : State) (name : String) : Option String :=
  match name with
  | "#" => some (toString st.args.length)
  | "?" => some (toString st.status)
  | "$" => some pid
  | "!" => some jobPid
  | "0" => some st.zero
  | "@" | "*" => some (" ".intercalate st.args)
  | _ =>
    match name.toNat? with
    | some n => if n = 0 then none else st.args[n - 1]?
    | none => st.settings.lookup name

/-- Sets a variable. -/
def assign (st : State) (name value : String) : State :=
  { st with settings := (name, value) :: st.settings }

/-- Takes over what a command did in a shell of its own. -/
def adopt (st : State) (r : Result) : Result :=
  let st := { st with files := r.state.files, slept := r.state.slept }
  match r.ended with
  | none => { state := { st with status := r.state.status }, out := r.out }
  | some (.code n) => { state := { st with status := n }, out := r.out }
  | some (.signal n) => { state := st, out := r.out, ended := some (.signal n) }

end State

/-! ## 2. Parameters and fields -/

/-- Cuts what fits a file pattern off a text. -/
def cutPattern (atEnd longest : Bool) (pattern s : String) : String :=
  let cs := s.toList
  let fits (cut : List Char) : Bool :=
    fitsFilePattern (pattern.toList.map (·, false)) (String.ofList cut)
  let places := List.range (cs.length + 1)
  let places := if atEnd == longest then places else places.reverse
  let cut? := places.find? fun n => fits (if atEnd then cs.drop n else cs.take n)
  match cut? with
  | some n => String.ofList (if atEnd then cs.take n else cs.drop n)
  | none => s

/-- The value of a parameter after a change. -/
def Change.apply (change : Change) (value : Option String) : String :=
  let s := value.getD ""
  match change with
  | .none => s
  | .length => toString s.length
  | .default word => if s = "" then word else s
  | .cut atEnd longest pattern => cutPattern atEnd longest pattern s

/-- Fields under construction. -/
structure Fields where
  /-- Finished fields, the latest first. -/
  closed : List String := []
  current : Option String := none

namespace Fields

/-- Adds to the current field. -/
def add (fs : Fields) (s : String) : Fields := { fs with current := some (fs.current.getD "" ++ s) }

/-- Finishes the current field. -/
def close (fs : Fields) : Fields :=
  match fs.current with
  | some s => ⟨s :: fs.closed, none⟩
  | none => fs

/-- Adds a text whose blanks separate fields. -/
def addSplit (fs : Fields) (s : String) : Fields :=
  s.toList.foldl (fun fs c =>
    if c = ' ' ∨ c = '\t' ∨ c = '\n' then fs.close else fs.add c.toString) fs

/-- Adds several texts, each a field of its own. -/
def addAll (fs : Fields) : List String → Fields
  | [] => fs
  | [s] => fs.add s
  | s :: rest => addAll (fs.add s).close rest

/-- The fields. -/
def toList (fs : Fields) : List String := fs.close.closed.reverse

end Fields

/-- A text without the line ends that it ends in. -/
def dropFinalLines (s : String) : String :=
  String.ofList (s.toList.reverse.dropWhile (· == '\n')).reverse

/-! ## 3. Signals -/

/-- The number of a signal. -/
def signalNumber? (s : String) : Option Nat :=
  match s.toNat? with
  | some n => some n
  | none => (Exit.signalNames.find? fun (_, name) => name == s || name == "SIG" ++ s).map (·.1)

/-- What `kill` is asked to do: a signal and to whom. -/
def readKill? : List String → Option (Nat × List String)
  | "-s" :: name :: pids => (signalNumber? name).map (·, pids)
  | "--" :: pids => some (15, pids)
  | a :: pids =>
    match a.toList with
    | '-' :: name => (signalNumber? (String.ofList name)).map (·, pids)
    | _ => some (15, a :: pids)
  | [] => none

/-- Sends a signal; the shell is the only process that there is. -/
def kill (st : State) (args : List String) : Result :=
  match readKill? args with
  | none => st.settle 1
  | some (n, pids) =>
    if pids.contains pid then
      if n = 0 ∨ (n ≠ 9 ∧ st.ignored.contains n = true) then st.settle 0
      else if (Exit.signalNames.lookup n).isSome then { state := st, ended := some (.signal n) }
      else st.settle 0
    else st.settle 1

/-- Ignores signals, or no longer. -/
def trapSignals (st : State) (args : List String) : Result :=
  let numbers := args.tail.filterMap signalNumber?
  let others := st.ignored.filter fun n => !numbers.contains n
  { st with ignored := if args.head? = some "" then numbers ++ others else others }.settle 0

/-! ## 4. Small commands of the shell itself -/

/-- Waits for what runs in the background. -/
def waitForJobs (st : State) (args : List String) : Result :=
  { st with slept := ⟨max st.slept.nanos st.busyUntil.nanos⟩ }.settle
    (if args.contains jobPid then st.jobStatus else 0)

/-- Ends the shell; a malformed status ends it with status 2. -/
def leave (st : State) (args : List String) : Result :=
  let status := match args with
    | [] => st.status
    | a :: _ => (a.toNat?.getD 2) % 256
  { state := { st with status }, ended := some (.code status) }

/-- Sets variables to the words of a line; the last one takes the rest. -/
def assignWords (st : State) : List String → List String → State
  | [], _ => st
  | [name], ws => st.assign name (" ".intercalate ws)
  | name :: names, ws => assignWords (st.assign name (ws.headD "")) names ws.tail

/-- Reads a line into variables. -/
def readLine (st : State) (names : List String) : Result :=
  let names := names.filter (· != "-r")
  let cs := st.input.toList
  let line := cs.takeWhile (· != '\n')
  let rest := cs.drop (line.length + 1)
  let st' := assignWords { st with input := String.ofList rest } names (wordsOf (String.ofList line))
  st'.settle (if line.length < cs.length then 0 else 1)

/-- Runs a tool. -/
def runTool (st : State) (name : String) (args : List String) : Result :=
  match tool? st.files st.input name args with
  | some e => { state := { st with status := e.status, slept := st.slept.add e.slept }, out := e.out }
  | none =>
    let known := (st.files.read? name).isSome || directories.contains name
    st.settle (if known then 126 else 127)

/-- Opens what a command is redirected from, if all of it can be read. -/
def openInput (st : State) : List (Redirection × String) → Option State
  | [] => some st
  | (r, path) :: rest =>
    if r.mode = "<" then
      match st.files.read? path with
      | some text => openInput { st with input := text } rest
      | none => none
    else openInput st rest

/-- Sends what a command wrote where it is redirected to. -/
def sendOutput (redirections : List (Redirection × String)) (r : Result) : Result :=
  redirections.foldl (fun r (redirection, path) =>
    if redirection.stream ≠ 1 ∨ redirection.mode.toList.head? = some '<' then r
    else if redirection.mode = ">&" then (if path = "1" then r else { r with out := "" })
    else if path = nullPath then { r with out := "" }
    else
      let before := if redirection.mode = ">>" then (r.state.files.read? path).getD "" else ""
      { r with
        state := { r.state with files := (path, before ++ r.out) :: r.state.files }
        out := "" }) r

/-- Puts what was written before in front. -/
def append (before : String) (r : Result) : Result := { r with out := before ++ r.out }

/-! ## 5. Commands -/

mutual

/-- The text of a piece. -/
def valueOf : Nat → State → Piece → State × String
  | 0, st, _ => (st, "")
  | fuel + 1, st, piece =>
    match piece with
    | .text s _ => (st, s)
    | .param name change _ => (st, change.apply (st.value? name))
    | .output script _ =>
      match readScript? script with
      | none => ({ st with status := 2 }, "")
      | some c =>
        let r := st.adopt (run fuel st c)
        (r.state, dropFinalLines r.out)

/-- The text of a word that is not split. -/
def textOf : Nat → State → Word → State × String
  | 0, st, _ => (st, "")
  | _ + 1, st, [] => (st, "")
  | fuel + 1, st, piece :: rest =>
    let (st, s) := valueOf fuel st piece
    let (st, t) := textOf fuel st rest
    (st, s ++ t)

/-- The file pattern that a word is. -/
def patternOf : Nat → State → Word → State × List PatternChar
  | 0, st, _ => (st, [])
  | _ + 1, st, [] => (st, [])
  | fuel + 1, st, piece :: rest =>
    let quoted := match piece with
      | .text _ quoted | .param _ _ quoted | .output _ quoted => quoted
    let (st, s) := valueOf fuel st piece
    let (st, cs) := patternOf fuel st rest
    (st, s.toList.map (·, quoted) ++ cs)

/-- The fields of a word. -/
def fieldsOf : Nat → State → Word → Fields → State × Fields
  | 0, st, _, fs => (st, fs)
  | _ + 1, st, [], fs => (st, fs)
  | fuel + 1, st, piece :: rest, fs =>
    match piece with
    | .text s _ => fieldsOf fuel st rest (fs.add s)
    | .param "@" .none true => fieldsOf fuel st rest (fs.addAll st.args)
    | .param _ _ quoted | .output _ quoted =>
      let (st, s) := valueOf fuel st piece
      fieldsOf fuel st rest (if quoted then fs.add s else fs.addSplit s)

/-- The fields of several words. -/
def expand : Nat → State → List Word → State × List String
  | 0, st, _ => (st, [])
  | _ + 1, st, [] => (st, [])
  | fuel + 1, st, w :: rest =>
    let (st, fs) := fieldsOf fuel st w {}
    let (st, ss) := expand fuel st rest
    (st, fs.toList ++ ss)

/-- Sets variables. -/
def assignAll : Nat → State → List (String × Word) → State
  | 0, st, _ => st
  | _ + 1, st, [] => st
  | fuel + 1, st, (name, w) :: rest =>
    let (st, s) := textOf fuel st w
    assignAll fuel (st.assign name s) rest

/-- The paths of redirections. -/
def pathsOf : Nat → State → List Redirection → State × List (Redirection × String)
  | 0, st, _ => (st, [])
  | _ + 1, st, [] => (st, [])
  | fuel + 1, st, r :: rest =>
    let (st, path) := textOf fuel st r.target
    let (st, paths) := pathsOf fuel st rest
    (st, (r, path) :: paths)

/-- Runs a command that is given by its name and arguments. -/
def call : Nat → State → String → List String → Result
  | 0, st, _, _ => { state := { st with slept := forever }, ended := some (.code 0) }
  | fuel + 1, st, name, args =>
    match name with
    | "exit" | "return" => leave st args
    | "kill" => kill st args
    | "read" => readLine st args
    | "shift" => { st with args := st.args.drop 1 }.settle 0
    | "set" =>
      (match args with
        | "--" :: args => { st with args }
        | _ => st).settle 0
    | "trap" => trapSignals st args
    | "wait" => waitForJobs st args
    | "command" | "builtin" | "env" =>
      match args with
      | [] => st.settle 0
      | name :: args => call fuel st name args
    | "exec" =>
      match args with
      | [] => st.settle 0
      | name :: args =>
        let r := call fuel st name args
        { r with ended := r.ended <|> some (.code r.state.status) }
    | "eval" => runText fuel st (" ".intercalate args)
    | "sh" =>
      match args with
      | "-c" :: script :: rest =>
        st.adopt (runText fuel
          { st with zero := rest.headD "sh", args := rest.tail, settings := [] } script)
      | _ => st.settle 2
    | name => runTool st name args

/-- Runs a text as a script. -/
def runText : Nat → State → String → Result
  | 0, st, _ => { state := { st with slept := forever }, ended := some (.code 0) }
  | fuel + 1, st, script =>
    match readScript? script with
    | some c => run fuel st c
    | none => { state := { st with status := 2 }, ended := some (.code 2) }

/-- Runs a command. -/
def run : Nat → State → Command → Result
  | 0, st, _ => { state := { st with slept := forever }, ended := some (.code 0) }
  | fuel + 1, st, c =>
    match c with
    | .simple settings words redirections =>
      let (st, fields) := expand fuel st words
      let (st, paths) := pathsOf fuel st redirections
      match openInput st paths with
      | none => st.settle 2
      | some opened =>
        match fields with
        | [] =>
          let st := assignAll fuel st settings
          let asked := words.any holdsOutput || settings.any fun s => holdsOutput s.2
          sendOutput paths { state := if asked then st else { st with status := 0 } }
        | name :: args =>
          let r := call fuel (assignAll fuel opened settings) name args
          let input := if opened.input = st.input then r.state.input else st.input
          sendOutput paths { r with state := { r.state with input } }
    | .redirected c redirections =>
      let (st, paths) := pathsOf fuel st redirections
      match openInput st paths with
      | none => st.settle 2
      | some opened =>
        let r := run fuel opened c
        sendOutput paths { r with state := { r.state with input := st.input } }
    | .pipeline parts => runPipe fuel st st.input parts
    | .negation c =>
      let r := run fuel st c
      if r.ended.isSome then r else r.state.settle (if r.state.status = 0 then 1 else 0) r.out
    | .both c d =>
      let r := run fuel st c
      if r.ended.isSome || r.state.status != 0 then r else append r.out (run fuel r.state d)
    | .orElse c d =>
      let r := run fuel st c
      if r.ended.isSome || r.state.status == 0 then r else append r.out (run fuel r.state d)
    | .sequence cs => runAll fuel st cs
    | .background c =>
      let r := st.adopt (run fuel { st with input := "" } c)
      let job := { st with
        files := r.state.files
        busyUntil := ⟨max st.busyUntil.nanos r.state.slept.nanos⟩
        jobStatus := r.state.status }
      if r.ended.isSome then r else job.settle 0 r.out
    | .subshell c => st.adopt (run fuel st c)
    | .ifThen condition positive negative =>
      let r := run fuel st condition
      if r.ended.isSome then r
      else if r.state.status = 0 then append r.out (run fuel r.state positive)
      else append r.out (run fuel { r.state with status := 0 } negative)
    | .select subject arms =>
      let (st, s) := textOf fuel st subject
      runArms fuel { st with status := 0 } s arms
    | .loop negated condition body =>
      let r := run fuel st condition
      if r.ended.isSome then r
      else if (r.state.status == 0) == negated then r.state.settle 0 r.out
      else
        let r' := append r.out (run fuel r.state body)
        if r'.ended.isSome then r'
        else append r'.out (run fuel r'.state (.loop negated condition body))
    | .each name words body =>
      let (st, values) := expand fuel st words
      runEach fuel st name body values

/-- Runs commands one after another. -/
def runAll : Nat → State → List Command → Result
  | 0, st, _ => { state := { st with slept := forever }, ended := some (.code 0) }
  | _ + 1, st, [] => { state := st }
  | fuel + 1, st, c :: rest =>
    let r := run fuel st c
    if r.ended.isSome then r else append r.out (runAll fuel r.state rest)

/-- Runs commands, each in a shell of its own and on what the one before it wrote. -/
def runPipe : Nat → State → String → List Command → Result
  | 0, st, _, _ => { state := { st with slept := forever }, ended := some (.code 0) }
  | _ + 1, st, input, [] => { state := st, out := input }
  | fuel + 1, st, input, c :: rest =>
    let r := st.adopt (run fuel { st with input } c)
    if r.ended.isSome then r else runPipe fuel r.state r.out rest

/-- Runs the first arm with a pattern that a text fits. -/
def runArms : Nat → State → String → List (List Word × Command) → Result
  | 0, st, _, _ => { state := { st with slept := forever }, ended := some (.code 0) }
  | _ + 1, st, _, [] => st.settle 0
  | fuel + 1, st, s, (patterns, body) :: rest =>
    if patterns.any fun p => fitsFilePattern (patternOf fuel st p).2 s then run fuel st body
    else runArms fuel st s rest

/-- Runs a command for every value of a variable. -/
def runEach : Nat → State → String → Command → List String → Result
  | 0, st, _, _, _ => { state := { st with slept := forever }, ended := some (.code 0) }
  | _ + 1, st, _, _, [] => { state := st }
  | fuel + 1, st, name, body, v :: rest =>
    let r := run fuel (st.assign name v) body
    if r.ended.isSome then r else append r.out (runEach fuel r.state name body rest)

end

end CtlTableau.Shell
