import MathNotes.Expression
import MathNotes.Journal
import MathNotes.Scope
import MathNotes.Shortcut

/-!
# Documents

Notes are compiled line by line. Blank lines and comments give nothing; a definition changes the
shortcuts, a heading or a closing brace the open blocks; every other line is compiled as an
expression under the shortcuts in force. A line that cannot be compiled is shown as prose.

What a line gives depends on earlier lines only through the `Context`.
-/

namespace MathNotes

/-- A line of the result: its identifier, its LaTeX, and the number of the line that it comes
from. -/
structure OutputLine where
  id : Text
  latex : Text
  lineNumber : Int
  deriving Repr, DecidableEq

/-- The result of a compilation. -/
structure Compilation where
  lines : List OutputLine
  events : List Event
  shortcuts : Shortcuts
  deriving Repr, DecidableEq

/-- The entries of a result. -/
def Compilation.entries (compilation : Compilation) : List Entry :=
  compilation.events.filterMap Event.entry?

namespace Document

/-- What earlier lines leave to later ones. -/
structure Context where
  table : ShortcutTable := {}
  scopes : Scopes
  deriving Repr, DecidableEq

/-- The shortcuts in force. -/
def Context.shortcuts (context : Context) : Shortcuts := context.table.shortcuts

/-- What one line adds to the result. -/
structure Output where
  lines : List OutputLine := []
  events : List Event := []
  deriving Repr, DecidableEq

/-- An output that comes behind events. -/
def Output.behind (output : Output) (events : List Event) : Output :=
  { output with events := events ++ output.events }

/-- The event of an entry. -/
def report (kind : EntryKind) (message : Text) : Event := .entry ⟨kind, message⟩

/-- The event of an entry about the line at `index`. -/
def reportLine (kind : EntryKind) (index : Nat) (message : Text) : Event :=
  report kind ("Line " ++ Text.ofNat (index + 1) ++ ": " ++ message)

/-- The line that the line at `index` gives. -/
def lineAt (index : Nat) (latex : Text) : OutputLine :=
  ⟨"line-" ++ Text.ofNat index, latex, index + 1⟩

/-- The space above the heading at `index`. -/
def spacerAt (index : Nat) (latex : Text) : OutputLine :=
  ⟨"spacer-" ++ Text.ofNat index, latex, index + 1⟩

/-- The start of a comment. -/
def commentLead : Text := "//"

/-- Whether a trimmed line gives nothing at all. -/
def isIgnored (line : Text) : Bool := line.isEmpty || commentLead.isPrefixOf line

/-- A definition. -/
def definition (context : Context) (index : Nat) (line : Text) : Context × Output :=
  match context.table.defineLine line with
  | (none, table) =>
    ({ context with table },
      { events := [reportLine .warning index "ignoring malformed macro definition"] })
  | (some (name, replacement), table) =>
    ({ context with table },
      { events := [.defined name replacement,
          report .info ("Defined macro " ++ name ++ " -> " ++ replacement)] })

/-- A line that could not be compiled: it is shown as prose. -/
def failure (context : Context) (index : Nat) (line : Text) (fault : Fault) : Output where
  lines := [lineAt index (context.scopes.indent ++ Latex.prose line)]
  events := [.failed (index + 1), reportLine .error index fault.message]

/-- A heading: it opens a block, and anywhere but on the first line it has space above it. -/
def heading (context : Context) (index : Nat) (heading : Heading) : Context × Output :=
  let line := lineAt index (context.scopes.headingLatex heading)
  ({ context with scopes := context.scopes.enter heading },
    { lines := if index = 0 then [line] else [spacerAt index context.scopes.spacer, line] })

/-- The end of a block. -/
def close (context : Context) (index : Nat) : Context × Output :=
  ({ context with scopes := context.scopes.leave }, { lines := [lineAt index Scopes.closeSpacer] })

/-- A line of content whose shortcuts are replaced. What was reported before a fault stays. -/
def formula (settings : Settings) (context : Context) (index : Nat) (line expanded : Text) :
    Output :=
  let outcome := Expression.run settings expanded
  let kept := outcome.kept.map Event.kept
  match outcome.resolution with
  | .error fault => (failure context index line fault).behind kept
  | .ok resolution =>
    let left := if resolution.unresolved then
        [.markersLeft resolution.passes resolution.latex]
      else []
    match Expression.latexOf resolution with
    | .error fault => (failure context index line fault).behind (kept ++ left)
    | .ok latex =>
      let warning := if resolution.unresolved then
          [reportLine .warning index "unresolved placeholders remain"]
        else []
      { lines := [lineAt index (context.scopes.indent ++ latex)]
        events := kept ++ left ++ warning }

/-- A line of content. -/
def content (settings : Settings) (context : Context) (index : Nat) (line : Text) :
    Context × Output :=
  let (expanded, table) := context.table.expand line
  let output := match expanded with
    | .error fault => failure context index line fault
    | .ok expanded => formula settings context index line expanded
  ({ context with table }, output)

/-- What the line at `index` gives, and the context behind it. -/
def step (settings : Settings) (context : Context) (index : Nat) (line : Text) :
    Context × Output :=
  let line := Text.trim line
  if isIgnored line then (context, {})
  else if Shortcuts.isDefinition line then definition context index line
  else
    match Heading.ofLine? line with
    | .error fault => (context, failure context index line fault)
    | .ok (some found) => heading context index found
    | .ok none =>
      if Scopes.isClose line then close context index
      else content settings context index line

/-- What the lines from `index` on give, one output per line, and the context at the end. -/
def run (settings : Settings) (context : Context) (index : Nat) :
    List Text → Context × List Output
  | [] => (context, [])
  | line :: rest =>
    let (context, output) := step settings context index line
    let (context, outputs) := run settings context (index + 1) rest
    (context, output :: outputs)

/-- The lines of a source, without carriage returns at their ends. -/
def sourceLines (source : Text) : List Text :=
  (Text.splitOn '\n' source).map fun line => (line.reverse.dropWhile (· == '\r')).reverse

/-- The context in front of the first line. -/
def start (settings : Settings) : Context := { scopes := { indentUnit := settings.indent } }

/-- The result of compiling notes. -/
def compile (settings : Settings) (source : Text) : Compilation :=
  let sources := sourceLines source
  let (context, outputs) := run settings (start settings) 0 sources
  let lines := outputs.flatMap (·.lines)
  let depth := context.scopes.depth
  let opened := if depth = 0 then [] else
    [report .warning (Text.ofNat depth ++ " block(s) left open at end of document")]
  { lines
    events := report .info ("Compiling " ++ Text.ofNat sources.length ++ " lines")
      :: outputs.flatMap (·.events) ++ opened
      ++ [report .success ("Compiled " ++ Text.ofNat lines.length ++ " output lines")]
    shortcuts := context.shortcuts }

end Document

end MathNotes
