import MathNotes.Bracket.Matching
import MathNotes.Bracket.Pipe
import MathNotes.Bracket.TopLevel
import MathNotes.Construct.Basic
import MathNotes.Latex
import MathNotes.Symbol.Substitution

/-!
# Enclosed constructs

Vectors between angle brackets, sets between braces, and absolute values between pipes.
-/

namespace MathNotes

namespace Vector

/-- Whether an angle bracket next to a component of this character is a relation instead. -/
def barsEdge (c : Char) : Bool := isBlank c || c == '='

/-- The components of a vector: no angle bracket, at least one comma, and no character at either
edge that makes the angle bracket a relation or an arrow. -/
def pattern : Pattern Text := fun _ text => do
  let rest ← Text.after? '<' text
  let components := rest.takeWhile fun c => c != '<' && c != '>'
  let after ← Text.after? '>' (rest.drop components.length)
  guard (components.contains ',')
  guard (!components.head?.any barsEdge)
  guard (!components.getLast?.any fun c => barsEdge c || c == '-')
  return .leaving text components after

/-- A vector with its components treated. -/
def latex (treat : Treatment) (components : Text) : Extract Text := do
  let components ← (Text.splitTop "," components).mapM (treat true)
  return "\\langle " ++ Text.join ",\\; " components ++ " \\rangle"

end Vector

namespace SetBuilder

/-- Whether a text ends in a command, perhaps with white space behind it. -/
def endsInCommand (text : Text) : Bool :=
  let ending := (Text.trimRight text).reverse
  let letters := ending.takeWhile Char.isAlpha
  !letters.isEmpty && (ending.drop letters.length).head? == some '\\'

/-- Whether a brace behind this text belongs to a command or a script, or is escaped. -/
def isGroupArgument (before : Text) : Bool :=
  before.getLast?.any ("\\_^".toList.contains ·) || endsInCommand before

/-- A set: its elements, and behind a colon, or else a pipe, the condition on them. -/
def latex (treat : Treatment) (content : Text) : Extract Text := do
  match (Text.findTop? ":" content).or (Text.findTop? "|" content) with
  | none => return "\\\x7b" ++ (← treat true (Symbol.substituteSetWords content)) ++ "\\\x7d"
  | some n =>
    let element ← treat true (Symbol.substituteSetWords (content.take n))
    let condition ← treat true (Symbol.substituteSetWords (content.drop (n + 1)))
    return "\\\x7b" ++ element ++ " \\mid " ++ condition ++ "\\\x7d"

/-- Puts the sets of a text aside, from left to right, behind the text `before` that is done. A
brace that is never closed is escaped; every brace that is met counts as a round. -/
def collect (treat : Treatment) : (rounds : Nat) → (before : Text) → Text → Extract Text
  | 0, before, text => return before ++ text
  | rounds + 1, before, text =>
    match Text.breakOn? ['{'] text with
    | none => return before ++ text
    | some (skipped, after) => do
      let before := before ++ skipped
      if isGroupArgument before then collect treat rounds (before ++ ['{']) after
      else
        match Delimiters.curly.splitClosing? after with
        | none => collect treat rounds (before ++ ['\\', '{']) after
        | some (content, after) =>
          let marker ← Extract.store (← latex treat content)
          collect treat rounds (before ++ marker) after

end SetBuilder

namespace Construct

/-- Vectors, the innermost first. -/
def vectors : Step := fun rounds treat text =>
  match rounds with
  | 0 => pure text
  | rounds + 1 => do
    let updated ← Vector.pattern.replaceM (fun components => do
      Extract.store (← Vector.latex treat components)) text
    if updated = text then return text else vectors rounds treat updated

/-- Sets. -/
def setBuilders : Step := fun rounds treat text => SetBuilder.collect treat rounds [] text

/-- Absolute values, the innermost first. Pipes that do not pair up are left. -/
def absoluteValues : Step := fun rounds treat text =>
  match rounds with
  | 0 => pure text
  | rounds + 1 =>
    match Pipe.pair? text with
    | none => pure text
    | some (first, last) => do
      let inner ← treat true ((text.take last).drop (first + 1))
      let marker ← Extract.store ("\\left|" ++ inner ++ "\\right|")
      absoluteValues rounds treat (text.take first ++ marker ++ text.drop (last + 1))

end Construct

end MathNotes
