import MathNotes.Latex
import MathNotes.Segment.Basic

/-!
# Lines of segments

Words that only white space separates are merged into one run of prose, and a line of segments is
written as LaTeX: prose inside `\text{…}`, set off from a formula next to it, and white space only
between two formulas.
-/

namespace MathNotes

namespace Segment

/-- The prose behind one or more white-space segments, and what follows it. -/
def textBehindSpace? : List Segment → Option (Text × List Segment)
  | space _ :: text content :: rest => some (content, rest)
  | space _ :: rest => textBehindSpace? rest
  | _ => none

/-- A word in front of merged segments: it joins prose that only white space separates from it. -/
def consText (word : Text) (merged : List Segment) : List Segment :=
  match textBehindSpace? merged with
  | some (content, rest) => text (word ++ ' ' :: content) :: rest
  | none => text word :: merged

/-- Segments with the words that only white space separates merged into one, a single space between
them. -/
def mergeText : List Segment → List Segment
  | [] => []
  | text word :: rest => consText word (mergeText rest)
  | segment :: rest => segment :: mergeText rest

/-- The commands that punctuation stands for. They are set off from a formula next to them, so that
no letter runs into them. -/
def operatorCommands : List Text :=
  (Symbol.tokens.filter fun (token, _) => token.all isPunctuation).map (·.2)

/-- Whether prose behind this formula stands close to it. -/
def endsOpen (content : Text) : Bool := content.getLast?.any (['(', '[', '{'].contains ·)

/-- Whether prose in front of this formula stands close to it. -/
def startsClosed (content : Text) : Bool :=
  content.head?.any (")]\x7d,.;:!?".toList.contains ·) || "\\\x7d".toList.isPrefixOf content

/-- The nearest segment that is not white space. -/
def nearest? (segments : List Segment) : Option Segment := segments.find? (!·.isSpace)

/-- The separator between prose and its nearest segment on one side: a control space next to a
formula that does not stand close. -/
def proseGap (standsClose : Text → Bool) : Option Segment → Text
  | some (math content) => if standsClose content then [] else "\\ "
  | _ => []

/-- A space next to a formula. -/
def operatorGap (neighbour : Option Segment) : Text :=
  if neighbour.any isMath then [' '] else []

/-- A segment as LaTeX, between what stands before it (nearest first) and what stands after. -/
def renderOne (before : List Segment) (segment : Segment) (after : List Segment) : Text :=
  match segment with
  | math content =>
    if operatorCommands.contains content then
      operatorGap before.head? ++ content ++ operatorGap after.head?
    else content
  | space _ => if before.head?.any isMath && after.head?.any isMath then [' '] else []
  | text content =>
    proseGap endsOpen (nearest? before) ++ Latex.prose content
      ++ proseGap startsClosed (nearest? after)

/-- Segments as LaTeX, behind the segments `before` (nearest first). -/
def renderBehind (before : List Segment) : List Segment → Text
  | [] => []
  | segment :: after => renderOne before segment after ++ renderBehind (segment :: before) after

/-- Segments as LaTeX. -/
def render (segments : List Segment) : Text := renderBehind [] segments

/-- The segments of a line, all of them formulas if the line is not `prose`. -/
def ofLine (prose : Bool) (tokens : List Text) : List Segment :=
  if prose then ofTokens tokens else (ofTokens tokens).map asMath

end Segment

/-- A line as LaTeX. When the line is not `prose`, all its words belong to the formula. -/
def segmentLine (prose : Bool) (line : Text) : Text :=
  Segment.render (Segment.mergeText (Segment.ofLine prose (tokenize line)))

end MathNotes
