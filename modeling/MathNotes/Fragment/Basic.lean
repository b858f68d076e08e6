import MathNotes.Text.Numeric
import MathNotes.Text.Pattern

/-!
# Fragments and their markers

A finished piece of LaTeX is put aside in a table, and a marker with its number stands for it in the
line. A marker is recognised by its shape alone, with decimal digits of any script.
-/

namespace MathNotes

/-- Finished pieces of LaTeX; a marker names one by its place. -/
abbrev Fragments := List Text

namespace Marker

/-- The start of a marker. -/
def lead : Text := "__PH"

/-- The end of a marker. -/
def tail : Text := "__"

/-- The marker with the given digits. -/
def ofDigits (digits : Text) : Text := lead ++ digits ++ tail

/-- The marker of the fragment with the given number. -/
def ofNat (n : Nat) : Text := ofDigits (Text.ofNat n)

/-- A marker at the front of a text: its digits, and what follows it. -/
def read? (text : Text) : Option (Text × Text) := do
  let rest ← lead.isPrefixOf? text
  let digits := rest.takeWhile isDecimal
  guard (!digits.isEmpty)
  return (digits, ← tail.isPrefixOf? (rest.drop digits.length))

/-- The markers of a text, by their digits. -/
def pattern : Pattern Text := fun _ text =>
  (read? text).map fun (digits, _) => ⟨digits, (ofDigits digits).length⟩

/-- Whether a text holds a marker. -/
def occursIn (text : Text) : Bool := pattern.occursIn text

/-- Whether a text is a marker. -/
def isMarker (text : Text) : Bool :=
  match read? text with
  | some (_, []) => true
  | _ => false

/-- A text that ends in a marker, perhaps with a line feed behind it, cut in front of the marker. -/
def atEnd? (text : Text) : Option (Text × Text) :=
  longestEnd? (fun _ => isMarker) none (dropFinalNewline text)

end Marker

namespace Fragments

/-- Puts a fragment at the end of the table; its marker comes with the longer table. -/
def add (fragments : Fragments) (latex : Text) : Text × Fragments :=
  (Marker.ofNat fragments.length, fragments ++ [latex])

/-- The fragment with a number, if there is one. -/
def get? (fragments : Fragments) : Int → Option Text
  | .ofNat n => fragments[n]?
  | .negSucc _ => none

end Fragments

end MathNotes
