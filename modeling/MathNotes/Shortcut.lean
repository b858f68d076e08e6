import MathNotes.Fault
import MathNotes.Text.Blank
import MathNotes.Text.Pattern

/-!
# Shortcuts

A line `#define name replacement` introduces a shortcut for the lines below it. Shortcuts are kept
in the order in which their names were first defined, and expanding a line replaces them in one pass
wherever they stand as whole words.

A `ShortcutTable` puts the names that it searches for together only once for all the lines between
two definitions. `Shortcuts.expand` is the same without such a memory.
-/

namespace MathNotes

/-- The shortcuts that are defined: names with their replacements, in the order of the names' first
definitions. -/
abbrev Shortcuts := List (Text × Text)

namespace Shortcuts

/-- Defines a shortcut. A name that is known keeps its place. -/
def define (name replacement : Text) : Shortcuts → Shortcuts
  | [] => [(name, replacement)]
  | (known, old) :: rest =>
    if known = name then (known, replacement) :: rest
    else (known, old) :: define name replacement rest

/-- Whether a name is defined. -/
def isDefined (shortcuts : Shortcuts) (name : Text) : Bool := (shortcuts.lookup name).isSome

/-- The word that starts a definition. -/
def directive : Text := "#define"

/-- Whether a line is meant as a definition. -/
def isDefinition (line : Text) : Bool := directive.isPrefixOf (Text.trim line)

/-- The name and the replacement in a definition. White space sets the three parts off from each
other, and the replacement is on one line. -/
def readDefinition? (line : Text) : Option (Text × Text) := do
  let rest ← directive.isPrefixOf? (Text.trim line)
  guard (rest.head?.any isBlank)
  let named := Text.trimLeft rest
  let name := named.takeWhile (!isBlank ·)
  let replacement := Text.trimLeft (named.drop name.length)
  guard (!replacement.isEmpty)
  guard (!replacement.contains '\n')
  return (name, replacement)

/-- The shortcuts after a definition line, which changes nothing when it is malformed. -/
def defineLine (shortcuts : Shortcuts) (line : Text) : Shortcuts :=
  match readDefinition? line with
  | some (name, replacement) => shortcuts.define name replacement
  | none => shortcuts

/-- The shortcuts as whole words. Of several that apply the one defined first is taken. -/
def words (shortcuts : Shortcuts) : Pattern (Text × Text) :=
  wordPattern isNameChar isNameChar (shortcuts.map fun shortcut => (shortcut.1, shortcut))

/-- The replacements in a line. A shortcut with an empty name is written wherever it applies, in
front of whatever else stands there. -/
def pattern (shortcuts : Shortcuts) : Pattern Text := fun previous text =>
  match shortcuts.words previous text with
  | none => none
  | some ⟨([], insertion), _⟩ =>
    match words (shortcuts.filter (!·.1.isEmpty)) previous text with
    | some hit => some ⟨insertion ++ hit.value.2, hit.width⟩
    | none => some ⟨insertion ++ text.take 1, 1⟩
  | some hit => some ⟨hit.value.2, hit.width⟩

/-- A line with its shortcuts replaced; the replacements are not looked at again. -/
def expand (shortcuts : Shortcuts) (line : Text) : Text :=
  let ending :=
    match shortcuts.words line.getLast? [] with
    | some hit => hit.value.2
    | none => []
  shortcuts.pattern.replace id line ++ ending

end Shortcuts

/-- Shortcuts as they are put to use: a table that remembers the names it searches lines for. -/
structure ShortcutTable where
  shortcuts : Shortcuts := []
  /-- The names that lines are searched for, once a line was; a definition makes them forgotten. -/
  searched : Option (List Text) := none
  deriving Repr, DecidableEq

namespace ShortcutTable

/-- What a search finds in one place: names, and behind them a text that stays. -/
structure Found where
  names : List Text
  kept : Text := []
  deriving Repr, DecidableEq

/-- The names as whole words. -/
def words (names : List Text) : Pattern Text := wholeWords isNameChar isNameChar names

/-- The places where names stand in a line. An empty name is found wherever it applies, in front of
whatever else stands there. -/
def search (names : List Text) : Pattern Found := fun previous text =>
  match words names previous text with
  | none => none
  | some ⟨[], _⟩ =>
    match words (names.filter (!·.isEmpty)) previous text with
    | some hit => some ⟨⟨[[], hit.value], []⟩, hit.width⟩
    | none => some ⟨⟨[[]], text.take 1⟩, 1⟩
  | some hit => some ⟨⟨[hit.value], []⟩, hit.width⟩

/-- Defines a shortcut. -/
def define (name replacement : Text) (table : ShortcutTable) : ShortcutTable where
  shortcuts := table.shortcuts.define name replacement

/-- The table after a definition line, with the definition that it holds. -/
def defineLine (table : ShortcutTable) (line : Text) : Option (Text × Text) × ShortcutTable :=
  match Shortcuts.readDefinition? line with
  | some (name, replacement) => (some (name, replacement), table.define name replacement)
  | none => (none, table)

/-- The names that lines are searched for now. -/
def names (table : ShortcutTable) : List Text :=
  table.searched.getD (table.shortcuts.map (·.1))

/-- What is written in a place that the search found. -/
def replacement (table : ShortcutTable) (found : Found) : Except Fault Text := do
  let replacements ← found.names.mapM (lookUp table.shortcuts)
  return replacements.flatten ++ found.kept

/-- A line with its shortcuts replaced, and the table behind it. A table without shortcuts searches
for nothing. -/
def expand (table : ShortcutTable) (line : Text) : Except Fault Text × ShortcutTable :=
  if table.shortcuts.isEmpty then (.ok line, table)
  else
    let expanded := do
      let front ← (search table.names).replaceM table.replacement line
      match words table.names line.getLast? [] with
      | none => return front
      | some hit => return front ++ (← lookUp table.shortcuts hit.value)
    (expanded, { table with searched := some table.names })

end ShortcutTable

end MathNotes
