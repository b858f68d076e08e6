import MathNotes.Text.Basic

/-!
# Patterns

A pattern recognises something at the front of a text, and may look at the character before it. A
text is read from left to right as *pieces*: where the pattern applies it yields a hit, and reading
goes on behind the characters of the hit; everywhere else a piece is one character. Replacing and
listing occurrences are functions of the pieces; `find?` is the cut at the first hit.
-/

namespace MathNotes

/-- What a pattern found: its value, and how many characters it took. -/
structure Hit (α : Type) where
  value : α
  width : Nat
  deriving Repr, DecidableEq

/-- A recogniser for the front of a text, given the character before it. -/
abbrev Pattern (α : Type) := (previous : Option Char) → Text → Option (Hit α)

/-- A piece of a text: a character on its own, or a hit of a pattern. -/
inductive Piece (α : Type) where
  | char (c : Char)
  | hit (value : α)
  deriving Repr, DecidableEq

/-- A text cut at a hit: what stands before it, its characters and its value, what stands after. -/
structure Cut (α : Type) where
  before : Text
  matched : Text
  value : α
  after : Text
  deriving Repr, DecidableEq

/-- The hit in `text` that leaves `rest`, an end of the text, unread. -/
def Hit.leaving {α : Type} (text : Text) (value : α) (rest : Text) : Hit α :=
  ⟨value, text.length - rest.length⟩

namespace Pattern

variable {α : Type} (pattern : Pattern α)

/-- The pieces of a text, given the character before it and how many characters of an earlier hit
still have to be passed over. -/
def piecesFrom (previous : Option Char) (skip : Nat) : Text → List (Piece α)
  | [] => []
  | c :: rest =>
    match skip with
    | k + 1 => piecesFrom (some c) k rest
    | 0 =>
      match pattern previous (c :: rest) with
      | some hit => .hit hit.value :: piecesFrom (some c) (hit.width - 1) rest
      | none => .char c :: piecesFrom (some c) 0 rest

/-- The pieces of a text. -/
def pieces (text : Text) : List (Piece α) := piecesFrom pattern none 0 text

/-- The values of the hits in a text, from left to right. -/
def hits (text : Text) : List α :=
  (pattern.pieces text).filterMap fun
    | .char _ => none
    | .hit value => some value

/-- Whether the pattern applies anywhere in a text. -/
def occursIn (text : Text) : Bool := !(pattern.hits text).isEmpty

/-- A text with each hit replaced. -/
def replace (replacement : α → Text) (text : Text) : Text :=
  (pattern.pieces text).flatMap fun
    | .char c => [c]
    | .hit value => replacement value

/-- A text with each hit replaced by an action, the actions running from left to right. -/
def replaceM {m : Type → Type} [Monad m] (replacement : α → m Text) (text : Text) : m Text := do
  let parts ← (pattern.pieces text).mapM fun
    | .char c => pure [c]
    | .hit value => replacement value
  return parts.flatten

/-- A text cut at its first hit, given the character before it. -/
def find? (previous : Option Char) : Text → Option (Cut α)
  | [] => none
  | c :: rest =>
    match pattern previous (c :: rest) with
    | some hit =>
      some ⟨[], (c :: rest).take hit.width, hit.value, (c :: rest).drop hit.width⟩
    | none => (find? (some c) rest).map fun cut => { cut with before := c :: cut.before }

end Pattern

/-- The text in front of the first hit, and behind each hit its value and the text up to the
next. -/
def Piece.gaps {α : Type} : List (Piece α) → Text × List (α × Text)
  | [] => ([], [])
  | .char c :: rest =>
    let (gap, more) := gaps rest
    (c :: gap, more)
  | .hit value :: rest =>
    let (gap, more) := gaps rest
    ([], (value, gap) :: more)

/-- Whole words, each with its value: a word applies where the character before it is not of the
class `bars` and the character behind it not of the class `follows`. Of several words that apply the
first listed is taken. -/
def wordPattern {α : Type} (bars follows : Char → Bool) (words : List (Text × α)) : Pattern α :=
  fun previous text =>
    if previous.any bars then none
    else words.findSome? fun (word, value) => do
      let rest ← word.isPrefixOf? text
      guard (!rest.head?.any follows)
      return ⟨value, word.length⟩

/-- Whole words on their own. -/
def wholeWords (bars follows : Char → Bool) (words : List Text) : Pattern Text :=
  wordPattern bars follows (words.map fun word => (word, word))

/-- The longest end of a text, given the character before it, of which `accepts` holds; the text is
cut in front of it. -/
def longestEnd? (accepts : (previous : Option Char) → Text → Bool) (previous : Option Char) :
    Text → Option (Text × Text)
  | [] => if accepts previous [] then some ([], []) else none
  | c :: rest =>
    if accepts previous (c :: rest) then some ([], c :: rest)
    else (longestEnd? accepts (some c) rest).map fun (before, found) => (c :: before, found)

/-- A text without one final line feed. -/
def dropFinalNewline (text : Text) : Text :=
  if text.getLast? == some '\n' then text.dropLast else text

end MathNotes
