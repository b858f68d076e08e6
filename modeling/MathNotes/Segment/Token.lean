import MathNotes.Text.Blank

/-!
# Tokens

A line is cut into tokens: maximal runs of punctuation, of white space, and of everything else.
-/

namespace MathNotes

/-- The three kinds of characters that tokens are made of. -/
inductive CharKind where
  | punctuation
  | blank
  | other
  deriving Repr, DecidableEq

/-- The punctuation of formulas. -/
def punctuation : List Char := "=<>!+-*/()[]\x7b\x7d|.,;:".toList

/-- Whether a character is punctuation. -/
def isPunctuation (c : Char) : Bool := punctuation.contains c

/-- The kind of a character. -/
def CharKind.of (c : Char) : CharKind :=
  if isPunctuation c then .punctuation else if isBlank c then .blank else .other

/-- The tokens of a line, from left to right. -/
def tokenize : Text → List Text
  | [] => []
  | c :: rest =>
    match tokenize rest with
    | (next :: token) :: more =>
      if CharKind.of c = CharKind.of next then (c :: next :: token) :: more
      else [c] :: (next :: token) :: more
    | more => [c] :: more

end MathNotes
