import MathNotes.Document

/-!
# Results as JSON

A result is written with two spaces of indentation per level. Strings keep every character that JSON
lets stand for itself.
-/

namespace MathNotes.Json

/-- A character inside a string. -/
def escapeChar (c : Char) : Text :=
  if c == '"' || c == '\\' then ['\\', c]
  else if c == '\n' then "\\n"
  else if c == '\r' then "\\r"
  else if c == '\t' then "\\t"
  else if c == '\x08' then "\\b"
  else if c == '\x0c' then "\\f"
  else if c.toNat < 0x20 then "\\u" ++ Text.hexDigits 4 c.toNat
  else [c]

/-- A string. -/
def string (text : Text) : Text := '"' :: text.flatMap escapeChar ++ ['"']

/-- Items between brackets, each on a line of its own, `level` levels deep. -/
def block (first last : Char) (level : Nat) (items : List Text) : Text :=
  if items.isEmpty then [first, last]
  else
    first :: '\n' ::
      Text.join ",\n" (items.map fun item => Text.copies (level + 1) "  " ++ item)
      ++ '\n' :: Text.copies level "  " ++ [last]

/-- A list of values. -/
def list (level : Nat) (items : List Text) : Text := block '[' ']' level items

/-- An object with the given fields. -/
def object (level : Nat) (fields : List (Text × Text)) : Text :=
  block '{' '}' level (fields.map fun (name, value) => string name ++ ": " ++ value)

/-- A line of a result. -/
def line (level : Nat) (line : OutputLine) : Text :=
  object level [("id", string line.id), ("latex", string line.latex),
    ("original_line_number", Text.ofInt line.lineNumber)]

/-- An entry of a result, made at the time `now`. -/
def entry (now : Text) (level : Nat) (entry : Entry) : Text :=
  object level [("level", string entry.kind.name), ("message", string entry.message),
    ("timestamp", string now)]

/-- A whole result. -/
def document (now : Text) (compilation : Compilation) : Text :=
  object 0
    [("output_lines", list 1 (compilation.lines.map (line 2))),
      ("log_entries", list 1 (compilation.entries.map (entry now 2))),
      ("macros", object 1 (compilation.shortcuts.map fun (name, replacement) =>
        (name, string replacement)))]

end MathNotes.Json
