import MathNotes.Fault

/-!
# Positions in a text

A position counts characters from the front, starting at zero; a negative one counts back from the
end, the last character standing at `-1`.
-/

namespace MathNotes.Text

/-- The character at a position. -/
def charAt (text : Text) (position : Int) : Except Fault Char :=
  let index := if position < 0 then position + text.length else position
  match index with
  | .ofNat n => (text[n]?).elim (.error .offText) .ok
  | .negSucc _ => .error .offText

/-- What is read from a position on. From a negative position reading goes on, past the end, with
the whole text again, because position zero follows `-1`. -/
def readFrom (text : Text) : Int → Except Fault Text
  | .ofNat n => .ok (text.drop n)
  | .negSucc n =>
    if n < text.length then .ok (text.drop (text.length - (n + 1)) ++ text) else .error .offText

/-- The place of a position among the gaps between characters: positions beyond either end are
moved to that end. -/
def gapAt (text : Text) (position : Int) : Nat :=
  if position < 0 then (position + text.length).toNat else min position.toNat text.length

/-- The characters between two positions. -/
def slice (text : Text) (start stop : Int) : Text :=
  (text.take (gapAt text stop)).drop (gapAt text start)

/-- How many characters stand in front of the first occurrence of `needle`. -/
def indexOf? (needle text : Text) : Option Nat :=
  (breakOn? needle text).map (·.1.length)

/-- The first occurrence of `needle` that starts at a position or behind it. -/
def indexFrom? (needle text : Text) (start : Int) : Option Nat :=
  if (text.length : Int) < start then none
  else (indexOf? needle (text.drop (gapAt text start))).map (· + gapAt text start)

end MathNotes.Text
