import MathNotes.Fault
import MathNotes.Latex
import MathNotes.Text.Blank
import MathNotes.Text.Numeric

/-!
# Headings and blocks

A heading is a keyword, perhaps a title, and an opening brace; it opens a block that a line with a
single closing brace ends. The number of open blocks decides how far lines are indented and how
large a heading is set.
-/

namespace MathNotes

/-- A heading: its keyword, its title, and whether it is set in italics instead of bold. -/
structure Heading where
  keyword : Text
  title : Text
  italic : Bool := false
  deriving Repr, DecidableEq

namespace Heading

/-- The keywords of bold headings. -/
def boldKeywords : List Text :=
  ["Problem", "Subproblem", "Section", "Part", "Theorem", "Lemma", "Definition", "Corollary",
    "Proposition", "Case"]

/-- The keywords of italic headings. -/
def italicKeywords : List Text := ["Proof", "Claim", "Remark", "Example"]

/-- All keywords. -/
def keywords : List Text := boldKeywords ++ italicKeywords

/-- The letters outside ASCII that are the same as a letter of a keyword up to case. -/
def caseVariants : List (Char × Char) :=
  [('\u017f', 's'), ('\u0131', 'i'), ('\u0130', 'i'), ('\u212a', 'k')]

/-- Whether a character is a keyword's letter, up to case. -/
def sameLetter (letter c : Char) : Bool :=
  c.toLower == letter.toLower || caseVariants.contains (c, letter.toLower)

/-- The lower case of a character that matches a letter of a keyword. Two of the letters outside
ASCII have none, and the dotted capital keeps its dot as a mark of its own. -/
def lowerCase (c : Char) : Text :=
  if c == '\u212a' then ['k'] else if c == '\u0130' then ['i', '\u0307'] else [c.toLower]

/-- A keyword at the front of a text, up to case: the characters that match it, and what follows. -/
def matchKeyword? : (keyword : Text) → Text → Option (Text × Text)
  | [], text => some ([], text)
  | _ :: _, [] => none
  | letter :: letters, c :: rest =>
    if sameLetter letter c then
      (matchKeyword? letters rest).map fun (matched, rest) => (c :: matched, rest)
    else none

/-- The keyword that the characters of a text spell in lower case. -/
def keywordFor (spelling : Text) : Except Fault Text :=
  let lowered := spelling.flatMap lowerCase
  match keywords.find? fun keyword => keyword.map Char.toLower == lowered with
  | some keyword => .ok keyword
  | none => .error (.unknownHeading lowered)

/-- The spelling of the keyword and the title of a heading. The keyword is a whole word, the title
stands on one line, and the brace ends the heading. -/
def read? (line : Text) : Option (Text × Text) :=
  let line := Text.trim line
  if line.getLast? == some '{' then
    keywords.findSome? fun keyword => do
      let (spelling, rest) ← matchKeyword? keyword line.dropLast
      guard (!rest.head?.any isWordChar)
      guard (!(Text.trim rest).contains '\n')
      return (spelling, Text.trim rest)
  else none

/-- The heading that a line holds. -/
def ofLine? (line : Text) : Except Fault (Option Heading) :=
  match read? line with
  | none => .ok none
  | some (spelling, title) => do
    let keyword ← keywordFor spelling
    return some ⟨keyword, title, italicKeywords.contains keyword⟩

/-- What a heading says. -/
def label (heading : Heading) : Text := Text.trim (heading.keyword ++ ' ' :: heading.title)

end Heading

/-- The blocks that are open, innermost first, and what each indents its lines with. -/
structure Scopes where
  indentUnit : Text := "\\quad "
  opened : List Heading := []
  deriving Repr, DecidableEq

namespace Scopes

/-- How many blocks are open. -/
def depth (scopes : Scopes) : Nat := scopes.opened.length

/-- What a line is indented with. -/
def indent (scopes : Scopes) : Text := Text.copies scopes.depth scopes.indentUnit

/-- The gap above a heading and the size that it is set in, by the number of blocks around it. -/
def tier : Nat → Text × Text
  | 0 => ("1.5em", "huge")
  | 1 => ("1em", "Large")
  | 2 => ("0.5em", "large")
  | _ => ("0.2em", "normalsize")

/-- A line break with a gap below it. -/
def lineBreak (gap : Text) : Text := "\\\\[" ++ gap ++ "]"

/-- The space above a heading. -/
def spacer (scopes : Scopes) : Text :=
  "\\phantom\x7b.\x7d " ++ lineBreak (tier scopes.depth).1

/-- The space that the end of a block leaves. -/
def closeSpacer : Text := lineBreak "0.5em"

/-- A heading as LaTeX, set inside the blocks that are open. -/
def headingLatex (scopes : Scopes) (heading : Heading) : Text :=
  let style : Text := if heading.italic then "textit" else "textbf"
  scopes.indent ++ Latex.braced
    ('\\' :: (tier scopes.depth).2 ++ " " ++ Latex.command style [Latex.prose heading.label])

/-- The blocks once a heading has opened one more. -/
def enter (scopes : Scopes) (heading : Heading) : Scopes :=
  { scopes with opened := heading :: scopes.opened }

/-- The blocks once the innermost is closed. -/
def leave (scopes : Scopes) : Scopes := { scopes with opened := scopes.opened.tail }

/-- Whether a line closes a block. -/
def isClose (line : Text) : Bool := Text.trim line == ['}']

end Scopes

end MathNotes
