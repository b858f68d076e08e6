import MathNotes.Text.Capital
import MathNotes.Fault

/-!
# Journal

What a compilation reports about itself. Every event has a channel, a level and a message; the
entries among them are also part of the result of a compilation.
-/

namespace MathNotes

/-- How important an event is, from the least to the most. -/
inductive Level where
  | unset
  | debug
  | info
  | warning
  | error
  | critical
  deriving Repr, DecidableEq

namespace Level

/-- The weight of a level. -/
def rank : Level → Nat
  | unset => 0
  | debug => 10
  | info => 20
  | warning => 30
  | error => 40
  | critical => 50

/-- The least weight of the events that a level lets through. A level that is not set lets warnings
through. -/
def threshold : Level → Nat
  | unset => warning.rank
  | level => level.rank

/-- The name of a level. -/
def name : Level → Text
  | unset => "NOTSET"
  | debug => "DEBUG"
  | info => "INFO"
  | warning => "WARNING"
  | error => "ERROR"
  | critical => "CRITICAL"

/-- The names that levels are asked for by. -/
def names : List (Text × Level) :=
  [("NOTSET", unset), ("DEBUG", debug), ("INFO", info), ("WARN", warning), ("WARNING", warning),
    ("ERROR", error), ("FATAL", critical), ("CRITICAL", critical)]

/-- The level of a name, in upper or lower case. -/
def ofName (name : Text) : Except Fault Level :=
  let name := Text.toCapitals name
  match names.lookup name with
  | some level => .ok level
  | none => .error (.unknownLevel name)

end Level

/-- The kinds of entries in the result of a compilation. -/
inductive EntryKind where
  | info
  | success
  | warning
  | error
  deriving Repr, DecidableEq

namespace EntryKind

/-- The name of a kind of entry. -/
def name : EntryKind → Text
  | info => "info"
  | success => "success"
  | warning => "warning"
  | error => "error"

/-- The level at which an entry is reported. -/
def level : EntryKind → Level
  | info | success => .info
  | warning => .warning
  | error => .error

end EntryKind

/-- An entry in the result of a compilation. -/
structure Entry where
  kind : EntryKind
  message : Text
  deriving Repr, DecidableEq

/-- Something that a compilation reports. -/
inductive Event where
  /-- An entry of the result. -/
  | entry (found : Entry)
  /-- A line, counted from one, could not be compiled. -/
  | failed (line : Nat)
  /-- A shortcut was defined. -/
  | defined (name replacement : Text)
  /-- An argument was nested too deeply and kept as written. -/
  | kept (argument : Text)
  /-- Markers are left in a line although passes have run. -/
  | markersLeft (passes : Nat) (line : Text)
  deriving Repr, DecidableEq

namespace Event

/-- The entry that an event is. -/
def entry? : Event → Option Entry
  | .entry found => some found
  | _ => none

/-- The channel that an event is reported on. -/
def channel : Event → Text
  | entry _ | failed _ => "mathscript.compiler.transpiler"
  | defined _ _ => "mathscript.compiler.macros"
  | kept _ => "mathscript.compiler.extractor"
  | markersLeft _ _ => "mathscript.compiler.resolver"

/-- The level of an event. -/
def level : Event → Level
  | .entry found => found.kind.level
  | failed _ => .error
  | defined _ _ | kept _ => .debug
  | markersLeft _ _ => .warning

/-- The message of an event. -/
def message : Event → Text
  | .entry found => found.message
  | failed line => "Failed to compile line " ++ Text.ofNat line
  | defined name replacement =>
    "Defined macro " ++ Text.quoted name ++ " -> " ++ Text.quoted replacement
  | kept argument =>
    "Nesting ceiling reached; keeping " ++ Text.quoted argument ++ " literally"
  | markersLeft passes line =>
    "Placeholder markers left after " ++ Text.ofNat passes ++ " passes: " ++ line

end Event

/-- The events that a level lets through. -/
def eventsAt (level : Level) (events : List Event) : List Event :=
  events.filter fun event => level.threshold ≤ event.level.rank

end MathNotes
