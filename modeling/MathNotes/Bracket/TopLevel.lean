import MathNotes.Text.Basic

/-!
# The top level of a text

A character is at the top level where no round, square or curly bracket is open. All three kinds
share one count, and a closing bracket with nothing open does not lower it.
-/

namespace MathNotes

/-- Whether a character is an opening bracket of any kind. -/
def isOpeningBracket (c : Char) : Bool := c == '(' || c == '[' || c == '{'

/-- Whether a character is a closing bracket of any kind. -/
def isClosingBracket (c : Char) : Bool := c == ')' || c == ']' || c == '}'

/-- How many brackets are open behind a character. -/
def bracketDepth (depth : Nat) (c : Char) : Nat :=
  if isOpeningBracket c then depth + 1
  else if isClosingBracket c then depth - 1
  else depth

namespace Text

/-- The parts between the separators at the top level, when `depth` brackets are open. A separator
counts where nothing is open behind it. -/
def splitTopFrom (separator : Text) : (depth : Nat) → Text → List Text
  | _, [] => [[]]
  | depth, c :: rest =>
    let depth := bracketDepth depth c
    if separator == [c] && depth == 0 then [] :: splitTopFrom separator depth rest
    else
      match splitTopFrom separator depth rest with
      | [] => [[c]]
      | part :: parts => (c :: part) :: parts

/-- The parts between the separators at the top level. -/
def splitTop (separator : Text) (text : Text) : List Text := splitTopFrom separator 0 text

/-- How many characters stand in front of the first target at the top level, when `depth` brackets
are open. A bracket that opens or closes something is never the target. -/
def findTopFrom? (target : Text) : (depth : Nat) → Text → Option Nat
  | _, [] => none
  | depth, c :: rest =>
    if isOpeningBracket c then (findTopFrom? target (depth + 1) rest).map (· + 1)
    else if isClosingBracket c && 0 < depth then
      (findTopFrom? target (depth - 1) rest).map (· + 1)
    else if target == [c] && depth == 0 then some 0
    else (findTopFrom? target depth rest).map (· + 1)

/-- How many characters stand in front of the first target at the top level. -/
def findTop? (target : Text) (text : Text) : Option Nat := findTopFrom? target 0 text

end Text

end MathNotes
