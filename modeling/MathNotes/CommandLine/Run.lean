import MathNotes.CommandLine.Arguments
import MathNotes.CommandLine.Host
import MathNotes.Logging
import MathNotes.Page.Export
import MathNotes.Reference

/-!
# The command line

Two commands: `compile` reads notes and writes them in the format of the output file, and
`reference` prints the reference. Logging is set up before a command's own arguments are read.
-/

namespace MathNotes

namespace CommandLine

/-- What stops a run without the program having caught it. -/
inductive Crash where
  | fault (fault : Fault)
  | file (fault : FileFault)
  deriving Repr, DecidableEq

/-- What a run leaves behind: its exit code, what it printed, the lines that it logged, and what
crashed it. -/
structure Outcome where
  exitCode : Nat := 0
  stdout : Text := []
  stderr : Text := []
  log : List Text := []
  crash : Option Crash := none
  deriving Repr, DecidableEq

/-- The outcome of arguments that do not fit the command. -/
def usage : Outcome := { exitCode := 2, stderr := "Usage: mathscript COMMAND [ARGS]...\n" }

/-- The outcome of a request for help. -/
def help : Outcome := { stdout := "Usage: mathscript COMMAND [ARGS]...\n" }

/-- The outcome of a crash. -/
def crashed (crash : Crash) : Outcome := { exitCode := 1, crash := some crash }

/-- The option that asks for help. -/
def helpRule {κ : Type} (key : κ) : OptionRule κ := { key, long := "--help", short := some 'h' }

/-- The commands. -/
inductive Command where
  | compile
  | reference
  deriving Repr, DecidableEq

/-- The names of the commands. -/
def commands : List (Text × Command) := [("compile", .compile), ("reference", .reference)]

/-- The options in front of the command. -/
inductive MainOption where
  | help
  | logLevel
  deriving Repr, DecidableEq

/-- The rules for the options in front of the command. -/
def mainRules : List (OptionRule MainOption) :=
  [{ key := .logLevel, long := "--log-level", takesValue := true }, helpRule .help]

/-- The levels that may be chosen. -/
def levelChoices : List Text := ["DEBUG", "INFO", "WARNING", "ERROR"]

/-- The chosen level, in upper or lower case. -/
def chooseLevel? (value : Text) : Option Text :=
  levelChoices.find? fun choice => choice.map Char.toLower == value.map Char.toLower

/-- What the arguments up to the command say: the level, the command and the command's arguments. -/
structure Invocation where
  level : Option Text
  command : Command
  arguments : List Text
  deriving Repr, DecidableEq

/-- Reads the arguments up to the command. -/
def readInvocation (arguments : List Text) : Except Outcome Invocation := do
  let some (given, others) := Arguments.read? mainRules false arguments | throw usage
  if (Arguments.last? .help given).isSome then throw help
  let level ← match Arguments.last? .logLevel given with
    | none => pure none
    | some value =>
      match chooseLevel? value with
      | none => throw usage
      | some level => pure (some level)
  match others with
  | [] => throw usage
  | name :: arguments =>
    match commands.lookup name with
    | none => throw usage
    | some command => return { level, command, arguments }

/-- The options of `compile`. -/
inductive CompileOption where
  | help
  | output
  | title
  | author
  | date
  | lineNumbers
  | darkMode
  deriving Repr, DecidableEq

/-- The rules for the options of `compile`. -/
def compileRules : List (OptionRule CompileOption) :=
  [{ key := .output, long := "--output", short := some 'o', takesValue := true },
    { key := .title, long := "--title", takesValue := true },
    { key := .author, long := "--author", takesValue := true },
    { key := .date, long := "--date", takesValue := true },
    { key := .lineNumbers, long := "--line-numbers" },
    { key := .darkMode, long := "--dark-mode" },
    helpRule .help]

/-- What `compile` is asked to do: to compile the bytes of its input into the output. -/
structure Job where
  bytes : ByteArray
  output : Path
  details : PageDetails

/-- Text in which every end of a line is a line feed. -/
def unifyLineEnds : Text → Text
  | [] => []
  | '\r' :: '\n' :: rest => '\n' :: unifyLineEnds rest
  | c :: rest => (if c == '\r' then '\n' else c) :: unifyLineEnds rest

/-- The text that bytes write. -/
def decode (bytes : ByteArray) : Except FileFault Text :=
  match String.fromUTF8? bytes with
  | some text => .ok (unifyLineEnds text.toList)
  | none => .error .notUtf8

/-- The entries that are echoed, one to a line. -/
def echoed (entries : List Entry) : Text :=
  entries.flatMap fun entry =>
    if entry.kind = .warning || entry.kind = .error then
      "[" ++ entry.kind.name ++ "] " ++ entry.message ++ "\n"
    else []

/-- The least width of the first column of the reference. -/
def columnWidth : Nat := 28

/-- A line of the reference. -/
def referenceLine (item : Example) : Text :=
  let padding := List.replicate (columnWidth - item.written.length) ' '
  let description : Text := match item.description with
    | some text => "  (" ++ text ++ ")"
    | none => []
  "  " ++ item.written ++ padding ++ " " ++ item.output ++ description ++ "\n"

/-- The reference as it is printed. -/
def referenceText (chapters : List Chapter) : Text :=
  chapters.flatMap fun chapter =>
    chapter.title ++ "\n" ++ chapter.examples.flatMap referenceLine ++ "\n"

/-- Prints the reference. -/
def runReference (arguments : List Text) : Outcome :=
  match Arguments.read? [helpRule ()] true arguments with
  | none => usage
  | some (given, others) =>
    if !given.isEmpty then help
    else if !others.isEmpty then usage
    else
      match Reference.chapters {} with
      | .ok chapters => { stdout := referenceText chapters }
      | .error fault => crashed (.fault fault)

section Running

variable {m : Type → Type} [Monad m] (host : Host m)

/-- Reads the arguments of `compile`. The input has to be a file. -/
def readJob (arguments : List Text) : m (Except Outcome Job) := do
  let some (given, others) := Arguments.read? compileRules true arguments | return .error usage
  if (Arguments.last? .help given).isSome then return .error help
  let output := Arguments.last? .output given
  if output.any (·.contains '\x00') then return .error (crashed (.file .badName))
  match others with
  | [] => return .error usage
  | input :: extra =>
    match ← host.read (Path.ofText input) with
    | .error .badName => return .error (crashed (.file .badName))
    | .error _ => return .error usage
    | .ok bytes =>
      if Path.spellsFolder input then return .error usage
      match output, extra with
      | some output, [] =>
        let title := PageDetails.given (Arguments.last? .title given)
        let details : PageDetails :=
          { title := title.or (some (Path.ofText input).stem)
            author := Arguments.last? .author given
            date := Arguments.last? .date given
            lineNumbers := (Arguments.last? .lineNumbers given).isSome
            darkMode := (Arguments.last? .darkMode given).isSome }
        return .ok { bytes, output := Path.ofText output, details }
      | _, _ => return .error usage

/-- Writes a result to its output, in a folder that is made when it is missing. -/
def deliver (output : Path) (text : Text) : m (Except FileFault Unit) := do
  match ← host.makeFolder output.parent with
  | .error fault => return .error fault
  | .ok () => host.write output text

/-- Writes a line at the end of a log file. A file that it is too long for is rotated first; of the
older ones some may be missing. -/
def writeLogLine (file : Path) (line : Text) : m (Except FileFault Unit) := do
  let size := match ← host.read file with
    | .ok bytes => bytes.size
    | .error _ => 0
  if Logger.overflows size line then
    (Logger.rotation file).forM fun (old, new) => do
      let _ ← host.rename old new
  host.append file (line ++ "\n")

/-- Writes lines to a log file, which is made when it is missing. -/
def writeLogFile (file : Path) (lines : List Text) : m (Except FileFault Unit) := do
  match ← host.makeFolder file.parent with
  | .error fault => return .error fault
  | .ok () =>
    lines.foldlM (fun done line =>
      match done with
      | .ok () => writeLogLine host file line
      | .error fault => return .error fault) (← host.append file [])

/-- Writes lines to the log files. -/
def writeLog (logger : Logger) (lines : List Text) : m (Except FileFault Unit) :=
  logger.outputs.foldlM (fun done output =>
    match done, output with
    | .ok (), .file path => writeLogFile host path lines
    | done, _ => return done) (.ok ())

/-- Compiles notes and writes the result. -/
def runCompile (clock : Clock) (configuration : Configuration) (logger : Logger)
    (arguments : List Text) : m Outcome := do
  match ← readJob host arguments with
  | .error outcome => return outcome
  | .ok job =>
    match decode job.bytes with
    | .error fault => return crashed (.file fault)
    | .ok source =>
      let compilation := Document.compile configuration.settings source
      let log := (eventsAt logger.level compilation.events).map (Logger.line clock.logged)
      let stderr := echoed compilation.entries
      match ← writeLog host logger log with
      | .error fault => return { crashed (.file fault) with stderr, log }
      | .ok () =>
        match exportTo clock job.details job.output compilation with
        | .error fault =>
          return { exitCode := 1, stderr := stderr ++ "Error: " ++ fault.message ++ "\n", log }
        | .ok text =>
          match ← deliver host job.output text with
          | .error fault => return { crashed (.file fault) with stderr, log }
          | .ok () => return { stdout := "Rendered: " ++ job.output.toText ++ "\n", stderr, log }

/-- Runs the command line. -/
def run (clock : Clock) (environment : Environment) (arguments : List Text) : m Outcome := do
  match readInvocation arguments with
  | .error outcome => return outcome
  | .ok invocation =>
    let configuration := Configuration.ofEnvironment environment
    match Logger.setUp configuration invocation.level none {} with
    | .error fault => return crashed (.fault fault)
    | .ok logger =>
      match ← writeLog host logger [] with
      | .error fault => return crashed (.file fault)
      | .ok () =>
        match invocation.command with
        | .reference => return runReference invocation.arguments
        | .compile => runCompile host clock configuration logger invocation.arguments

end Running

end CommandLine

end MathNotes
