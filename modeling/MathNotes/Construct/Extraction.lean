import MathNotes.Construct.Bound
import MathNotes.Construct.Call
import MathNotes.Construct.Enclosed
import MathNotes.Construct.Fraction
import MathNotes.Construct.Script
import MathNotes.Segment.Line

/-!
# Extracting constructs

The steps run over a line in a fixed order, and each sees what earlier ones found only as markers.
`Checked.extract` is the same extraction with every reading that can fail.
-/

namespace MathNotes

namespace Construct

/-- The steps, in the order in which they run. -/
def steps : List Step :=
  [factorials, boundedOperators, rootsAndArrows, floorsAndCeilings, functions, vectors, binomials,
    setBuilders, absoluteValues, fractions, subscripts, exponents]

/-- All steps, one after the other. -/
def runSteps (rounds : Nat) (treat : Treatment) (text : Text) : Extract Text :=
  steps.foldlM (fun text step => step rounds treat text) text

/-- A line with its constructs put aside, where constructs may nest `depth` levels deep. An argument
is trimmed, and written as LaTeX once its own constructs are put aside; below the last level it is
kept as it is. -/
def extract (rounds : Nat) : (depth : Nat) → Text → Extract Text
  | 0, text => Extract.keep text
  | depth + 1, text =>
    runSteps rounds (fun prose argument =>
      if depth = 0 then Extract.keep (Text.trim argument)
      else do return segmentLine prose (← extract rounds depth (Text.trim argument))) text

end Construct

end MathNotes
