import MathNotes.Document

/-!
# Lines of a page

The lines of a result are told apart by what they show, and the formulas among them are numbered.
-/

namespace MathNotes

/-- What a line shows. -/
inductive LineKind where
  | spacer
  | header
  | empty
  | math
  deriving Repr, DecidableEq

namespace LineKind

/-- The name of a kind of line. -/
def name : LineKind → Text
  | spacer => "spacer"
  | header => "header"
  | empty => "empty"
  | math => "math"

/-- A text without the steps of indentation in front of it. -/
def unindented (latex : Text) : Text :=
  go latex latex.length
where
  /-- Each step of indentation takes characters, so their number bounds the steps. -/
  go (latex : Text) : (budget : Nat) → Text
    | 0 => latex
    | budget + 1 =>
      match "\\quad ".toList.isPrefixOf? latex with
      | some rest => go rest budget
      | none => latex

/-- How the LaTeX of a heading starts, its indentation apart. -/
def headerLeads : List Text :=
  (["huge", "Large", "large", "normalsize"] : List Text).flatMap fun size =>
    (["bf", "it"] : List Text).map fun style =>
      "\x7b\\" ++ size ++ " \\text" ++ style ++ "\x7b"

/-- Whether a line starts like a heading. -/
def startsHeader (latex : Text) : Bool :=
  headerLeads.any fun lead => lead.isPrefixOf (unindented latex)

/-- The kind of a line. -/
def of (line : OutputLine) : LineKind :=
  if "spacer-".toList.isPrefixOf line.id || line.latex == Scopes.closeSpacer then spacer
  else if (Text.trim line.latex).isEmpty then empty
  else if startsHeader line.latex then header
  else math

end LineKind

/-- A line of a page, with its number when it shows a formula. -/
structure NumberedLine where
  id : Text
  latex : Text
  kind : LineKind
  number : Option Nat
  deriving Repr, DecidableEq

/-- Lines with their numbers, when `count` formulas stand before them. -/
def numberFrom (count : Nat) : List OutputLine → List NumberedLine
  | [] => []
  | line :: rest =>
    if LineKind.of line = .math then
      ⟨line.id, line.latex, .math, some (count + 1)⟩ :: numberFrom (count + 1) rest
    else
      ⟨line.id, line.latex, LineKind.of line, none⟩ :: numberFrom count rest

/-- Lines with the formulas numbered from one on. -/
def numberLines (lines : List OutputLine) : List NumberedLine := numberFrom 0 lines

/-- What is printed around the lines of a page. -/
structure PageDetails where
  title : Option Text := none
  author : Option Text := none
  date : Option Text := none
  lineNumbers : Bool := false
  darkMode : Bool := false
  deriving Repr, DecidableEq

namespace PageDetails

/-- A detail, unless it is missing or empty. -/
def given (detail : Option Text) : Option Text := detail.filter (!·.isEmpty)

/-- The title of a page. -/
def shownTitle (details : PageDetails) : Text := (given details.title).getD "Untitled"

/-- The date of a page: today's, unless another one is given. -/
def shownDate (today : Text) (details : PageDetails) : Text := (given details.date).getD today

end PageDetails

end MathNotes
