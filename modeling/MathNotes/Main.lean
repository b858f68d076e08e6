import MathNotes.CommandLine.Run
import Std.Time

/-!
# The program

Runs the command line on the machine: its files, its environment and its clock.
-/

namespace MathNotes

open Std.Time

/-- Why an operation of the machine failed. -/
def FileFault.ofError : IO.Error → FileFault
  | .noFileOrDirectory _ _ _ => .missing
  | .alreadyExists _ _ _ => .alreadyFile
  | .inappropriateType _ _ _ => .isFolder
  | _ => .badName

/-- Runs an operation of the machine. -/
def attempt {α : Type} (action : IO α) : IO (Except FileFault α) := do
  try return .ok (← action)
  catch error => return .error (.ofError error)

/-- The name of a path on the machine. -/
def Path.toName (path : Path) : String := String.ofList path.toText

/-- The machine as a host. -/
def machine : Host IO where
  read path := attempt (IO.FS.readBinFile path.toName)
  makeFolder path := attempt (IO.FS.createDirAll path.toName)
  write path text := attempt (IO.FS.writeFile path.toName (String.ofList text))
  append path text := attempt do
    let handle ← IO.FS.Handle.mk path.toName .append
    handle.putStr (String.ofList text)
  rename old new := attempt (IO.FS.rename old.toName new.toName)

/-- The environment variables that are read. -/
def variableNames : List String :=
  ["HOME", "MATHSCRIPT_LOG_LEVEL", "MATHSCRIPT_LOG_FILE", "MATHSCRIPT_MAX_PASSES",
    "MATHSCRIPT_MAX_ITERATIONS", "MATHSCRIPT_MAX_DEPTH", "MATHSCRIPT_INDENT"]

/-- The environment of the machine. -/
def readEnvironment : IO Environment := do
  let entries ← variableNames.filterMapM fun name => do
    return (← IO.getEnv name).map fun value => (name.toList, value.toList)
  return fun name => entries.lookup name

/-- The clock of the machine: the local date, the time in UTC, and the local time. -/
def readClock : IO Clock := do
  let today := (← PlainDate.now).format "uuuu-MM-dd"
  let now := (DateTime.ofTimestampWithZone (← Timestamp.now) .UTC).format
    "uuuu-MM-dd'T'HH:mm:ss.SSSSSSxxx"
  let logged := (← PlainDateTime.now).format "uuuu-MM-dd HH:mm:ss,SSS"
  return ⟨today.toList, now.toList, logged.toList⟩

/-- What a crash says. -/
def CommandLine.Crash.message : CommandLine.Crash → Text
  | .fault found => found.message
  | .file .missing => "No such file"
  | .file .isFolder => "Is a directory"
  | .file .notFolder => "Not a directory"
  | .file .alreadyFile => "File exists"
  | .file .badName => "The file cannot be used"
  | .file .notUtf8 => "The file is not UTF-8 text"

end MathNotes

open MathNotes in
/-- Runs the command line, and prints what it printed, logged and crashed with. -/
def main (arguments : List String) : IO UInt32 := do
  let outcome ← CommandLine.run machine (← readClock) (← readEnvironment)
    (arguments.map String.toList)
  for line in outcome.log do
    IO.eprintln (String.ofList line)
  IO.eprint (String.ofList outcome.stderr)
  IO.print (String.ofList outcome.stdout)
  if let some crash := outcome.crash then
    IO.eprintln (String.ofList crash.message)
  return outcome.exitCode.toUInt32
