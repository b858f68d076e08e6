import MathNotes.Latex
import MathNotes.Text.Pattern

/-!
# Shapes of scripts

A subscript or exponent is joined to its base by a mark. It is bare, a run of letters and digits, or
grouped in round brackets.
-/

namespace MathNotes

namespace Script

/-- A base character with the given mark and a script in round brackets that holds none: the base
and the script. -/
def grouped (isBase : Char → Bool) (mark : Char) : Pattern (Char × Text) := fun _ text => do
  let base :: rest := text | none
  guard (isBase base)
  let rest ← Text.after? mark rest
  let rest ← Text.after? '(' rest
  let script := rest.takeWhile fun c => c != '(' && c != ')'
  let after ← Text.after? ')' (rest.drop script.length)
  return .leaving text (base, script) after

/-- A base character with the given mark and a run of letters and digits: the base and the run. -/
def bare (isBase : Char → Bool) (mark : Char) : Pattern (Char × Text) := fun _ text => do
  let base :: rest := text | none
  guard (isBase base)
  let rest ← Text.after? mark rest
  let script := rest.takeWhile Char.isAlphanum
  guard (!script.isEmpty)
  return .leaving text (base, script) (rest.drop script.length)

/-- A base with its script in braces. -/
def inBraces (mark : Char) : Char × Text → Text
  | (base, script) => base :: mark :: Latex.braced script

end Script

end MathNotes
