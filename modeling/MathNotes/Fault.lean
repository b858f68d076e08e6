import MathNotes.Text.Quoted

/-!
# Faults

Everything that can go wrong, by its cause, and the wording of each cause in one place.
-/

namespace MathNotes

/-- Why an operation gave no result. -/
inductive Fault where
  /-- A position lies outside its text, or a token has no first character. -/
  | offText
  /-- A marker's number has more digits than are read. -/
  | longMarker (digits : Nat)
  /-- A table has no entry under this key. -/
  | missingKey (key : Text)
  /-- There is no segment kind of this name. -/
  | unknownKind (name : Text)
  /-- There is no log level of this name. -/
  | unknownLevel (name : Text)
  /-- A file of this name is of no type that can be written. -/
  | unsupportedOutput (fileName : Text) (supported : List Text)
  deriving Repr, DecidableEq

namespace Fault

/-- The most digits that a number may be read from. -/
def digitLimit : Nat := 4300

/-- A heading's keyword matches only up to the case of letters that have no plain lower case: it is
no key of the table of headings. -/
@[match_pattern]
abbrev unknownHeading (keyword : Text) : Fault := .missingKey keyword

/-- The wording of a fault. -/
def message : Fault → Text
  | .offText => "string index out of range"
  | .longMarker digits =>
    "Exceeds the limit (" ++ Text.ofNat digitLimit
      ++ " digits) for integer string conversion: value has " ++ Text.ofNat digits
      ++ " digits; use sys.set_int_max_str_digits() to increase the limit"
  | .missingKey key => Text.quoted key
  | .unknownKind name => Text.quoted name ++ " is not a valid SegmentKind"
  | .unknownLevel name => "Unknown level: " ++ Text.quoted name
  | .unsupportedOutput fileName supported =>
    "Unsupported output type: " ++ fileName ++ " (expected one of " ++ Text.join ", " supported
      ++ ")"

end Fault

/-- The entry of a table under a key. -/
def lookUp {α : Type} (table : List (Text × α)) (key : Text) : Except Fault α :=
  match table.lookup key with
  | some value => .ok value
  | none => .error (.missingKey key)

end MathNotes
