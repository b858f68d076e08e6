import MathNotes.Page.Line

/-!
# Pages as LaTeX documents

Each line becomes a block of a standalone document: a vertical space, or a displayed formula, which
is an equation when lines are numbered.
-/

namespace MathNotes.Tex

/-- The gap that a text ends in: what stands between a line break's square brackets, with nothing
but white space behind them. -/
def gapPattern : Pattern Text := fun _ text => do
  let rest ← "\\\\[".toList.isPrefixOf? text
  let gap := rest.takeWhile (· != ']')
  guard (!gap.isEmpty)
  let ending ← Text.after? ']' (rest.drop gap.length)
  guard (ending.all isBlank)
  return .leaving text gap []

/-- The height of a spacer. -/
def gapOf (latex : Text) : Text :=
  match gapPattern.find? none latex with
  | some cut => cut.value
  | none => "0.5em"

/-- An environment around a formula. -/
def display (first latex last : Text) : Text := first ++ "\n  " ++ latex ++ "\n" ++ last

/-- The block of a line. -/
def block (lineNumbers : Bool) (line : NumberedLine) : Text :=
  match line.kind with
  | .spacer => Latex.command "vspace" [gapOf line.latex]
  | .empty => "\\medskip"
  | kind =>
    if lineNumbers && kind = .math then
      display (Latex.command "begin" ["equation"]) line.latex (Latex.command "end" ["equation"])
    else display "\\[" line.latex "\\]"

/-- The blocks of a page. -/
def blocks (lineNumbers : Bool) (lines : List OutputLine) : List Text :=
  (numberLines lines).map (block lineNumbers)

/-- The packages of a document. -/
def packages : List Text :=
  ["\\documentclass[11pt]\x7barticle\x7d",
    "\\usepackage[utf8]\x7binputenc\x7d",
    "\\usepackage[margin=1in]\x7bgeometry\x7d",
    "\\usepackage\x7bamsmath\x7d",
    "\\usepackage\x7bamssymb\x7d",
    ""]

/-- The title of a document, with its author and date. -/
def titleLines (today : Text) (details : PageDetails) : List Text :=
  let author := (PageDetails.given details.author).elim [] Latex.escapeText
  [Latex.command "title" [Latex.escapeText details.shownTitle],
    Latex.command "author" [author],
    Latex.command "date" [Latex.escapeText (details.shownDate today)],
    ""]

/-- The start of a document's body. -/
def opening : List Text := ["\\begin\x7bdocument\x7d", "\\maketitle", ""]

/-- The end of a document. -/
def ending : List Text := ["", "\\end\x7bdocument\x7d"]

/-- A page as a document. -/
def document (today : Text) (details : PageDetails) (lines : List OutputLine) : Text :=
  Text.join "\n"
    (packages ++ titleLines today details ++ opening ++ blocks details.lineNumbers lines ++ ending)

end MathNotes.Tex
