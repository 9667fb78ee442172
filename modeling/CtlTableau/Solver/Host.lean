import CtlTableau.Shell.Run
import CtlTableau.Solver.External

/-!
# A host for solvers

A stand-in for the system that solvers are started on: which commands there are and what they do,
which are the shell and the tools that scripts use, and how long this takes by a clock. A command is
started with arguments, the last of which is the path of the query file. `Host.start` puts this
together to what an engine has to know.
-/

namespace CtlTableau.Solver

open Shell

/-! ## 1. Children by the clock -/

/-- A child as it is by itself: how long it runs and how it ends. -/
structure Life where
  lifetime : Duration
  exit : Exit
  deriving DecidableEq, Repr

/-- No more looks than this are counted. -/
def Life.lookLimit : Nat := 100000

/-- The time between two looks: the given interval, but a millisecond at least. -/
def Life.step (interval : Duration) : Duration := ⟨max interval.nanos 1000000⟩

/-- What the looks at a child find that is started at a time and looked after in fixed intervals. The
    run is called off from the deadline on. -/
def Life.course (life : Life) (interval start : Duration) (deadline : Option Duration) : Course :=
  let step := (step interval).nanos
  let looks := min ((life.lifetime.nanos + step - 1) / step) lookLimit
  let whole : Course := .make looks (.ended life.exit) rfl
  match deadline with
  | none => whole
  | some d =>
    let open_ := (d.nanos - start.nanos + step - 1) / step
    if looks ≤ open_ then whole else .make open_ (.running true) rfl

/-! ## 2. Commands -/

/-- A command to be started on a query. -/
structure Invocation where
  command : String
  /-- The arguments before the query file. -/
  args : List String
  /-- The text in the query file. -/
  query : String
  /-- The files in the directory for queries, by path. -/
  kept : Files := []
  deriving DecidableEq, Repr

namespace Host

/-- The path of the query file while a solver runs. -/
def queryPath : String := "/tmp/ctlsat-Q5gLxZ.qdimacs"

/-- How long a command takes to start and end. -/
def startup : Duration := .ofMillis 1

/-- Fuel for scripts. -/
def scriptFuel : Nat := 4000

/-- The name of a command without the directories that commands are in. -/
def commandName (command : String) : String :=
  match ["/bin/", "/usr/bin/"].find? (fun dir => command.startsWith dir) with
  | some dir => (command.drop dir.length).toString
  | none => command

/-- What the system says of a path that is not there. -/
def missing : String := "No such file or directory (os error 2)"

/-- What the system says of a path that cannot be started. -/
def forbidden : String := "Permission denied (os error 13)"

/-- What the system says of a path below something that is no directory. -/
def notDirectory : String := "Not a directory (os error 20)"

/-- Why a command that is neither shell nor tool cannot be started. -/
def refusal (command : String) : String :=
  if command.toList.contains '/' && (directories.contains command || command == nullPath) then forbidden
  else if command.startsWith (nullPath ++ "/") then notDirectory
  else missing

/-- What scripts can use although it is no command by itself. -/
def builtins : List String :=
  [":", "cd", "export", "unset", "umask", "ulimit"]

/-- Why a directory cannot be made, if so: it is a file, or below one, or where nothing can be
    made. -/
def dirRefusal (path : String) : Option String :=
  let files := [nullPath, "/etc/passwd", "/etc/hosts", "/bin/sh"]
  if files.contains path then some "File exists (os error 17)"
  else if files.any fun f => path.startsWith (f ++ "/") then some notDirectory
  else if path.startsWith "/proc/" then some missing
  else none

/-- Runs a shell. -/
def runShell (name : String) (args : List String) (files : Files) : Life :=
  let run (script zero : String) (args : List String) : Life :=
    let r := runText scriptFuel { zero, args, files } script
    ⟨startup.add r.state.slept, r.ended.getD (.code r.state.status)⟩
  match args with
  | "-c" :: script :: rest => run script (rest.headD name) rest.tail
  | path :: rest =>
    match files.read? path with
    | some script => run script path rest
    | none => ⟨startup, .code 2⟩
  | [] => ⟨startup, .code 0⟩

/-- Starts a command; the result says what it does, or why it cannot be started. -/
def launch (i : Invocation) : Except String Life :=
  let name := commandName i.command
  let files : Files := (queryPath, i.query) :: i.kept
  let args := i.args ++ [queryPath]
  if (i.command :: i.args).any fun s => s.toList.contains '\x00' then
    .error "nul byte found in provided data"
  else if ["sh", "dash", "bash"].contains name then .ok (runShell name args files)
  else if builtins.contains name then .error (refusal i.command)
  else
    match tool? files "" name args with
    | some e => .ok ⟨startup.add e.slept, .code e.status⟩
    | none => .error (refusal i.command)

/-! ## 3. Queries -/

/-- The files in the directory for queries, by path. -/
def keptFiles (config : Config) (s : External) : Files :=
  match config.dumpDir with
  | none => []
  | some dir =>
    let base := if dir = "" || dir.endsWith "/" then dir else dir ++ "/"
    s.dump.map fun (name, text) => (base ++ name, text)

/-- The time that a query takes before a solver is started on it, by the size of its text. -/
def preparation (text : String) : Duration := ⟨200 * text.utf8ByteSize⟩

/-- Starts the command of a configuration on a query; the looks at it go by the clock, and the run is
    called off from the deadline on. -/
def start (config : Config) (deadline : Option Duration) (s : External) (text : String) :
    Except String (Started Course) :=
  match launch ⟨config.command, config.args, text, keptFiles config s⟩ with
  | .error reason => .error reason
  | .ok life =>
    let prepared := preparation text
    let child := life.course config.pollInterval (s.clock.add prepared) deadline
    let elapsed := prepared.add
      ⟨child.watch.pauses * (Life.step config.pollInterval).nanos⟩
    let calledOff := deadline.any fun d => d.nanos ≤ (s.clock.add elapsed).nanos
    .ok { child, elapsed, calledOff }

/-- What an engine has to know of the host. -/
def setting (config : Config) (deadline : Option Duration) : Setting where
  config
  dirRefusal
  start := start config deadline

end Host

end CtlTableau.Solver
