import MathNotes.Symbol.Table
import MathNotes.Text.Letter
import MathNotes.Text.Pattern

/-!
# Substituting symbols

Three passes over a text: constants before anything else is recognised, set words inside the braces
of a set, and names and operators in finished LaTeX. The last one leaves `\text{…}` spans alone and
never touches a name behind a backslash. The passes here search for the entries of a table, those in
`Checked` for its keys, which they look up once they are found.
-/

namespace MathNotes.Symbol

/-- The constants, as whole names. -/
def constantPattern : Pattern Text :=
  wordPattern (fun c => isNameChar c || c == '.') isNameChar constants

/-- A text with the constants of the `Math` package replaced. -/
def substituteConstants (text : Text) : Text := constantPattern.replace id text

/-- The set words, as whole names that are not commands. -/
def setWordPattern : Pattern Text :=
  wordPattern (fun c => isNameChar c || c == '\\') isNameChar setWords

/-- A text with set words replaced. -/
def substituteSetWords (text : Text) : Text := setWordPattern.replace id text

/-- The width of the rest of a `\text{…}` span, its closing brace included. A backslash takes the
next character with it, unless that ends the line; an open brace ends the attempt. -/
def proseBodyWidth? : Text → Option Nat
  | [] => none
  | c :: rest =>
    if c == '}' then some 1
    else if c == '{' then none
    else if c == '\\' then
      match rest with
      | [] => none
      | escaped :: rest =>
        if escaped == '\n' then none else (proseBodyWidth? rest).map (· + 2)
    else (proseBodyWidth? rest).map (· + 1)

/-- The start of a `\text{…}` span. -/
def proseLead : Text := "\\text\x7b"

/-- A whole `\text{…}` span. -/
def prosePattern : Pattern Text := fun _ text => do
  let width ← proseBodyWidth? (← proseLead.isPrefixOf? text)
  return ⟨text.take (proseLead.length + width), proseLead.length + width⟩

/-- The names, as whole words that are not commands. -/
def namePattern : Pattern Text :=
  wordPattern (fun c => c.isAlphanum || c == '\\') Char.isAlphanum names

/-- The operators. A command that would run into a letter behind it is set off by a space. -/
def operatorPattern : Pattern Text := fun _ text =>
  operators.findSome? fun (operator, command) => do
    let rest ← operator.isPrefixOf? text
    return ⟨if rest.head?.any isLetter then command ++ " " else command, operator.length⟩

/-- A text outside `\text{…}` with names and operators replaced. -/
def substituteNames (text : Text) : Text :=
  operatorPattern.replace id (namePattern.replace id text)

/-- Finished LaTeX with names and operators replaced outside `\text{…}` spans. -/
def symbolPass (latex : Text) : Text :=
  let (start, spans) := Piece.gaps (prosePattern.pieces latex)
  substituteNames start ++ spans.flatMap fun (span, gap) => span ++ substituteNames gap

end MathNotes.Symbol
