import MathNotes.Configuration
import MathNotes.Journal
import MathNotes.Text.Pattern

/-!
# Logging

Where events are written to: the console, and a file that is rotated when it grows too large. The
level may be set again and again; the outputs are attached once.
-/

namespace MathNotes

/-- An output for events. -/
inductive LogOutput where
  | console
  | file (path : Path)
  deriving Repr, DecidableEq

/-- The level from which on events are written, and where they are written to. -/
structure Logger where
  level : Level := .unset
  outputs : List LogOutput := []
  deriving Repr, DecidableEq

namespace Logger

/-- How a line of a log is put together. -/
def lineFormat : Text := "%(asctime)s - %(name)s - %(levelname)s - %(message)s"

/-- A field of a format: its name. -/
def field : Pattern Text := fun _ text => do
  let rest ← "%(".toList.isPrefixOf? text
  let name := rest.takeWhile (· != ')')
  let after ← ")s".toList.isPrefixOf? (rest.drop name.length)
  return .leaving text name after

/-- What the fields hold for an event that is written at the time `now`. -/
def fields (now : Text) (event : Event) : List (Text × Text) :=
  [("asctime", now), ("name", event.channel), ("levelname", event.level.name),
    ("message", event.message)]

/-- An event as a line of a log, written at the time `now`. -/
def line (now : Text) (event : Event) : Text :=
  field.replace (fun name => ((fields now event).lookup name).getD []) lineFormat

/-- The size at which a log file is rotated, in bytes. -/
def maxBytes : Nat := 1000000

/-- How many rotated log files are kept. -/
def backups : Nat := 3

/-- Whether a line is too long for a log file of this size. -/
def overflows (size : Nat) (line : Text) : Bool := maxBytes ≤ size + line.length + 1

/-- The file that holds the lines of a log file from `age` rotations ago. -/
def backup (file : Path) (age : Nat) : Path :=
  if age = 0 then file
  else { file with parts := file.parts.dropLast ++ [file.name ++ "." ++ Text.ofNat age] }

/-- How a rotation renames files, in this order. -/
def rotation (file : Path) : List (Path × Path) :=
  (List.range backups).reverse.map fun age => (backup file age, backup file (age + 1))

/-- The logger once it is set up for a level and a file; what is not given comes from the
configuration. -/
def setUp (configuration : Configuration) (level : Option Text) (file : Option Path)
    (logger : Logger) : Except Fault Logger := do
  let level ← Level.ofName ((level.filter (!·.isEmpty)).getD configuration.logLevel)
  if logger.outputs.isEmpty then
    let files := (file.or configuration.logFile).toList.map LogOutput.file
    return { level, outputs := .console :: files }
  else
    return { logger with level }

end Logger

end MathNotes
