import MathNotes.Construct.Call
import MathNotes.Construct.ScriptShape

/-!
# Operators with bounds

Integrals, sums and limits. Their bounds are written lightly: scripts get braces and the signs of
plus and minus their commands, but no construct is looked for.
-/

namespace MathNotes

namespace Bound

/-- Whether a character can carry an exponent in a bound. -/
def isExponentBase (c : Char) : Bool := c.isAlphanum || c == '}'

/-- A text with every occurrence of `needle` replaced. -/
def replaceAll (needle replacement : Text) (text : Text) : Text :=
  (wordPattern (fun _ => false) (fun _ => false) [(needle, replacement)]).replace id text

/-- A bound as LaTeX. -/
def normalize (bound : Text) : Text :=
  let bound := Text.trim bound
  let bound := (Script.grouped Char.isAlpha '_').replace (Script.inBraces '_') bound
  let bound := (Script.bare Char.isAlpha '_').replace (Script.inBraces '_') bound
  let bound := (Script.grouped isExponentBase '^').replace (Script.inBraces '^') bound
  let bound := (Script.bare isExponentBase '^').replace (Script.inBraces '^') bound
  replaceAll "-+" "\\mp" (replaceAll "+-" "\\pm" bound)

/-- The operators that take bounds, with their commands. -/
def operators : List (Text × Text) :=
  [("integral", "\\int"), ("sum", "\\sum"), ("lim", "\\lim")]

/-- An operator's name with an opening bracket; an underscore and white space may stand between. -/
def head : Pattern (Text × Text) := fun previous text =>
  if previous.any Call.barsName then none
  else operators.findSome? fun (name, command) => do
    let rest := Text.trimLeft (← name.isPrefixOf? text)
    let rest := ((Text.after? '_' rest).map Text.trimLeft).getD rest
    let bounds ← Text.after? '(' rest
    return .leaving text (name, command) bounds

/-- An operator with its bounds. An arrow separates the lower from the upper bound, or a variable
from its limit. -/
def latex (operator : Text × Text) (bounds : Text) : Text :=
  let (name, command) := operator
  if (Text.trim bounds).isEmpty then command
  else
    match Text.breakOn? "->" bounds with
    | none => Latex.withSubscript command (normalize bounds)
    | some (lower, upper) =>
      if name = "lim" then
        Latex.withSubscript command (normalize lower ++ " \\to " ++ normalize upper)
      else
        Latex.withExponent (Latex.withSubscript command (normalize lower)) (normalize upper)

end Bound

namespace Construct

/-- Integrals, sums and limits with their bounds. -/
def boundedOperators : Step := fun rounds _ text =>
  Call.collect Bound.head (fun operator bounds => return some (Bound.latex operator bounds))
    rounds none text

end Construct

end MathNotes
