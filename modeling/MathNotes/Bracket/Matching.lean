import MathNotes.Text.Position

/-!
# Matching delimiters

A delimiter pair opens and closes groups. Matching counts nested pairs of the same kind: a group
ends at the first closing delimiter at which the count returns to where it was before the group.
Looking for the opening delimiter is the same walk over the reversed text with the pair swapped.

`closing?`, `opening?` and `group?` speak of positions in a text; `splitClosing?` and
`splitOpening?` cut the text at the delimiter that they find.
-/

namespace MathNotes

/-- A pair of delimiters. Either may be any text, but only one that is a single character is ever
met in a text. -/
structure Delimiters where
  opener : Text
  closer : Text
  deriving Repr, DecidableEq

namespace Delimiters

/-- Round brackets. -/
def round : Delimiters := ⟨['('], [')']⟩

/-- Curly brackets. -/
def curly : Delimiters := ⟨['{'], ['}']⟩

/-- The pair read from right to left. -/
def swap (pair : Delimiters) : Delimiters := ⟨pair.closer, pair.opener⟩

/-- Whether a character is the opening delimiter. -/
def opens (pair : Delimiters) (c : Char) : Bool := pair.opener == [c]

/-- Whether a character is the closing delimiter. -/
def closes (pair : Delimiters) (c : Char) : Bool := pair.closer == [c]

/-- How many characters stand in front of the closing delimiter that ends the current group, when
`depth` further groups are open inside it. -/
def offset? (pair : Delimiters) : (depth : Nat) → Text → Option Nat
  | _, [] => none
  | depth, c :: rest =>
    if pair.opens c then (pair.offset? (depth + 1) rest).map (· + 1)
    else if pair.closes c then
      match depth with
      | 0 => some 0
      | inner + 1 => (pair.offset? inner rest).map (· + 1)
    else (pair.offset? depth rest).map (· + 1)

/-- The position of the delimiter that closes the group which starts at `start`. When both
delimiters are the same, nesting cannot be told apart and the next occurrence closes. -/
def closing? (pair : Delimiters) (text : Text) (start : Int) : Except Fault (Option Int) :=
  if pair.opener = pair.closer then
    return (Text.indexFrom? pair.closer text start).map Int.ofNat
  else do
    let rest ← Text.readFrom text start
    return (pair.offset? 0 rest).map (start + ·)

/-- The position of the delimiter that opens the group which the delimiter at `stop` closes. -/
def opening? (pair : Delimiters) (text : Text) (stop : Int) : Option Nat :=
  match stop with
  | .negSucc _ => none
  | .ofNat n =>
    if (text[n]?).any pair.closes then
      (pair.swap.offset? 0 (text.take n).reverse).map (n - 1 - ·)
    else
      none

/-- The content of the group that opens at `start`, and the position behind its end. A group whose
end stands at position `-1` counts as never closed. -/
def group? (pair : Delimiters) (text : Text) (start : Int) : Except Fault (Option (Text × Int)) :=
  if (text.length : Int) ≤ start then return none
  else do
    let first ← Text.charAt text start
    if !pair.opens first then return none
    match ← pair.closing? text (start + 1) with
    | none => return none
    | some stop =>
      if stop = -1 then return none
      else return some (Text.slice text (start + 1) stop, stop + 1)

/-- The text behind an opening delimiter, cut at the delimiter that closes it. -/
def splitClosing? (pair : Delimiters) (text : Text) : Option (Text × Text) :=
  (pair.offset? 0 text).map fun n => (text.take n, text.drop (n + 1))

/-- The text in front of a closing delimiter, cut at the delimiter that opens it. -/
def splitOpening? (pair : Delimiters) (text : Text) : Option (Text × Text) :=
  (pair.swap.splitClosing? text.reverse).map fun (content, before) =>
    (before.reverse, content.reverse)

end Delimiters

end MathNotes
