import MathNotes.Bracket.Matching
import MathNotes.Bracket.TopLevel
import MathNotes.Construct.Basic
import MathNotes.Latex
import MathNotes.Symbol.Table
import MathNotes.Text.Blank

/-!
# Calls

A call is a name with an argument in round brackets: roots, vectors with an arrow, floors and
ceilings, factorials, functions and binomials. A name that continues another name, or follows a
backslash, starts no call.
-/

namespace MathNotes

namespace Call

/-- Whether a character in front of a name makes it part of something else. -/
def barsName (c : Char) : Bool := isNameChar c || c == '\\'

/-- One of the names with an opening bracket, white space allowed between them. -/
def head (names : List Text) : Pattern Text := fun previous text =>
  if previous.any barsName then none
  else names.findSome? fun name => do
    let rest ← name.isPrefixOf? text
    let argument ← Text.after? '(' (Text.trimLeft rest)
    return .leaving text name argument

section Collecting

variable {α : Type} (head : Pattern α) (build : α → Text → Extract (Option Text))

/-- Puts aside what `build` makes of the call at a cut: its marker, and the text behind the call. A
call whose bracket is never closed, or of which `build` makes nothing, stays. -/
def putAside (cut : Cut α) : Extract (Option (Text × Text)) :=
  match Delimiters.round.splitClosing? cut.after with
  | none => pure none
  | some (argument, after) => do
    match ← build cut.value argument with
    | none => return none
    | some latex => return some (← Extract.store latex, after)

/-- Puts aside, from left to right, the calls that start with `head`; every call that is met counts
as a round. -/
def collect : (rounds : Nat) → (previous : Option Char) → Text → Extract Text
  | 0, _, text => pure text
  | rounds + 1, previous, text =>
    match head.find? previous text with
    | none => pure text
    | some cut => do
      match ← putAside build cut with
      | none =>
        let rest ← collect rounds cut.matched.getLast? cut.after
        return cut.before ++ cut.matched ++ rest
      | some (marker, after) =>
        let rest ← collect rounds marker.getLast? after
        return cut.before ++ marker ++ rest

end Collecting

/-- The step that puts aside the calls of the given names. -/
def step (names : List Text) (build : Treatment → Text → Text → Extract (Option Text)) : Step :=
  fun rounds treat text => collect (head names) (build treat) rounds none text

end Call

namespace Construct

/-- Whether a factorial's argument is put into brackets. -/
def isCompound (argument : Text) : Bool :=
  argument.any fun c => isBlank c || "+-*/^".toList.contains c

/-- Factorials. -/
def factorials : Step :=
  Call.step ["factorial"] fun treat _ argument => do
    let inner ← treat true argument
    if isCompound (Text.trim argument) then return some ("(" ++ inner ++ ")!")
    else return some (inner ++ "!")

/-- Square roots and vectors with an arrow. -/
def rootsAndArrows : Step :=
  Call.step ["sqrt", "vec"] fun treat name argument => do
    return some (Latex.command name [← treat true argument])

/-- Floors and ceilings. -/
def floorsAndCeilings : Step :=
  Call.step ["floor", "ceil"] fun treat name argument => do
    return some ("\\l" ++ name ++ " " ++ (← treat true argument) ++ " \\r" ++ name)

/-- Functions such as the sine. -/
def functions : Step :=
  Call.step Symbol.functionNames fun treat name argument => do
    return some ('\\' :: name ++ "(" ++ (← treat true argument) ++ ")")

/-- Binomials. Two arguments are needed, neither of them blank. -/
def binomials : Step :=
  Call.step ["choose"] fun treat _ argument => do
    let [top, bottom] := Text.splitTop "," argument | return none
    if (Text.trim top).isEmpty || (Text.trim bottom).isEmpty then return none
    return some (Latex.command "binom" [← treat true top, ← treat true bottom])

end Construct

end MathNotes
