import MathNotes.Checked.Extraction
import MathNotes.Fragment.Resolution

/-!
# Expressions

A single line of notes becomes LaTeX: constants are replaced, constructs put aside, what is left is
written as prose and formulas, the fragments are put back, and names and operators are replaced. A
position outside its text, a key missing from its table or a marker that is too long ends it with a
fault.
-/

namespace MathNotes

/-- Limits and layout of a compilation. A limit below one allows nothing. -/
structure Settings where
  /-- How many passes may put fragments back. -/
  passes : Int := 20
  /-- How many rounds each extraction step may run. -/
  rounds : Int := 64
  /-- How deep constructs may nest. -/
  depth : Int := 32
  /-- What a line inside a block is indented with, once per block. -/
  indent : Text := "\\quad "
  deriving Repr, DecidableEq

namespace Expression

/-- A line before its fragments are put back. -/
def segment (settings : Settings) (line : Text) : Checked Text := do
  let source ← Checked.substituteConstants line
  let working ← Checked.extract settings.rounds.toNat settings.depth.toNat source
  Checked.segmentLine true working

/-- What becomes of a line: the arguments kept as written, and the line with its fragments put back
as far as the passes reach. -/
structure Outcome where
  kept : List Text
  resolution : Except Fault Resolution

/-- What becomes of a line. -/
def run (settings : Settings) (line : Text) : Outcome :=
  let (segmented, extraction) := (segment settings line).run {}
  ⟨extraction.kept, do extraction.fragments.resolve settings.passes (← segmented)⟩

/-- The LaTeX of a resolved line. -/
def latexOf (resolution : Resolution) : Except Fault Text := Checked.symbolPass resolution.latex

/-- A line as LaTeX, and whether markers are left in it. -/
def compile (settings : Settings) (line : Text) : Except Fault (Text × Bool) := do
  let resolution ← (run settings line).resolution
  return (← latexOf resolution, resolution.unresolved)

end Expression

end MathNotes
