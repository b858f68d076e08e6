import MathNotes.Bracket.Matching
import MathNotes.Construct.Basic

/-!
# Checked extraction

The extraction of a line reads characters at positions of a text and entries of tables, and either
can fail: a position may lie outside its text, and a key may be missing from its table. A
computation that stops at a fault keeps the fragments and arguments that it has put aside until
then.
-/

namespace MathNotes

/-- A computation that puts fragments aside and may fail. -/
abbrev Checked := ExceptT Fault Extract

namespace Checked

/-- A computation that cannot fail. -/
def sure {α : Type} (action : Extract α) : Checked α := ExceptT.lift action

/-- Puts a fragment aside and gives its marker. -/
def store (latex : Text) : Checked Text := sure (Extract.store latex)

/-- Keeps a text as it was written. -/
def keep (text : Text) : Checked Text := sure (Extract.keep text)

/-- How the argument of a construct becomes LaTeX; outside `prose` all words belong to the
formula. -/
abbrev Treatment := (prose : Bool) → Text → Checked Text

/-- A step of the extraction: it puts aside constructs of a line, in at most `rounds` rounds. -/
abbrev Step := (rounds : Nat) → Treatment → Text → Checked Text

/-- The text behind an opening delimiter, cut at the position of the delimiter that closes it. -/
def splitClosing? (pair : Delimiters) (text : Text) : Except Fault (Option (Text × Text)) := do
  let some stop ← pair.closing? text 0 | return none
  return some (Text.slice text 0 stop, Text.slice text (stop + 1) text.length)

end Checked

end MathNotes
