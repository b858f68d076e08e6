import MathNotes.Segment.Line
import MathNotes.Symbol.Substitution

/-!
# Checked lines

A pattern finds a word or an operator, and what stands for it is looked up in its table; a token is
classified by its first character. Each of these can fail.
-/

namespace MathNotes.Checked

/-- A text with the whole words of a table replaced, each by its entry. -/
def substitute (bars follows : Char → Bool) (table : List (Text × Text)) (text : Text) :
    Except Fault Text :=
  (wholeWords bars follows (table.map (·.1))).replaceM (lookUp table) text

/-- A text with the constants of the `Math` package replaced. -/
def substituteConstants (text : Text) : Except Fault Text :=
  substitute (fun c => isNameChar c || c == '.') isNameChar Symbol.constants text

/-- A text with set words replaced. -/
def substituteSetWords (text : Text) : Except Fault Text :=
  substitute (fun c => isNameChar c || c == '\\') isNameChar Symbol.setWords text

/-- The operators, each with whether a letter follows it. -/
def operatorPattern : Pattern (Text × Bool) := fun _ text =>
  Symbol.operators.findSome? fun (operator, _) => do
    let rest ← operator.isPrefixOf? text
    return ⟨(operator, rest.head?.any isLetter), operator.length⟩

/-- The command of an operator, set off from a letter behind it by a space. -/
def operatorCommand : Text × Bool → Except Fault Text
  | (operator, runsOn) => do
    let command ← lookUp Symbol.operators operator
    return if runsOn then command ++ " " else command

/-- A text outside `\text{…}` with names and operators replaced. -/
def substituteNames (text : Text) : Except Fault Text := do
  let text ← substitute (fun c => c.isAlphanum || c == '\\') Char.isAlphanum Symbol.names text
  operatorPattern.replaceM operatorCommand text

/-- Finished LaTeX with names and operators replaced outside `\text{…}` spans. -/
def symbolPass (latex : Text) : Except Fault Text := do
  let (start, spans) := Piece.gaps (Symbol.prosePattern.pieces latex)
  let start ← substituteNames start
  let spans ← spans.mapM fun (span, gap) => return span ++ (← substituteNames gap)
  return start ++ spans.flatten

/-- A line as LaTeX. When the line is not `prose`, all its words belong to the formula. -/
def segmentLine (prose : Bool) (line : Text) : Except Fault Text := do
  let segments ← Segment.classify (tokenize line)
  let segments := if prose then segments else segments.map Segment.asMath
  return Segment.render (Segment.mergeText segments)

end MathNotes.Checked
