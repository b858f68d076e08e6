import MathNotes.Checked.Basic
import MathNotes.Checked.Line
import MathNotes.Checked.Operand
import MathNotes.Construct.Extraction

/-!
# Checked constructs

The steps of the extraction, with every reading of a position and of a table. They go the way of the
steps in `Construct`, which work on texts that are already cut and have nothing to look up, and
share their patterns and what they write.
-/

namespace MathNotes.Checked

/-! ## Calls -/

section Collecting

variable {α : Type} (head : Pattern α) (build : α → Text → Checked (Option Text))

/-- Puts aside what `build` makes of the call at a cut: its marker, and the text behind the call. A
call whose bracket is never closed, or of which `build` makes nothing, stays. -/
def putAside (cut : Cut α) : Checked (Option (Text × Text)) := do
  match ← splitClosing? .round cut.after with
  | none => return none
  | some (argument, after) =>
    match ← build cut.value argument with
    | none => return none
    | some latex => return some (← store latex, after)

/-- Puts aside, from left to right, the calls that start with `head`; every call that is met counts
as a round. -/
def collectCalls : (rounds : Nat) → (previous : Option Char) → Text → Checked Text
  | 0, _, text => return text
  | rounds + 1, previous, text =>
    match head.find? previous text with
    | none => return text
    | some cut => do
      match ← putAside build cut with
      | none =>
        let rest ← collectCalls rounds cut.matched.getLast? cut.after
        return cut.before ++ cut.matched ++ rest
      | some (marker, after) =>
        let rest ← collectCalls rounds marker.getLast? after
        return cut.before ++ marker ++ rest

end Collecting

/-- The step that puts aside the calls of the given names. -/
def calls (names : List Text) (build : Treatment → Text → Text → Checked (Option Text)) : Step :=
  fun rounds treat text => collectCalls (Call.head names) (build treat) rounds none text

/-- Factorials. -/
def factorials : Step :=
  calls ["factorial"] fun treat _ argument => do
    let inner ← treat true argument
    if Construct.isCompound (Text.trim argument) then return some ("(" ++ inner ++ ")!")
    else return some (inner ++ "!")

/-- Integrals, sums and limits with their bounds. -/
def boundedOperators : Step := fun rounds _ text =>
  collectCalls Bound.head (fun (name, _) bounds => do
    let command ← lookUp Bound.operators name
    return some (Bound.latex (name, command) bounds)) rounds none text

/-- The calls that enclose their argument, with what they write before and behind it. -/
def enclosures : List (Text × Text × Text) :=
  [("sqrt", "\\sqrt\x7b", "\x7d"), ("vec", "\\vec\x7b", "\x7d"),
    ("floor", "\\lfloor ", " \\rfloor"), ("ceil", "\\lceil ", " \\rceil")]

/-- The calls of the given names, which enclose their argument. -/
def enclosing (names : List Text) : Step :=
  calls names fun treat name argument => do
    let (front, back) ← lookUp enclosures name
    return some (front ++ (← treat true argument) ++ back)

/-- Functions such as the sine. -/
def functions : Step :=
  calls Symbol.functionNames fun treat name argument => do
    return some ('\\' :: name ++ "(" ++ (← treat true argument) ++ ")")

/-- Binomials. Two arguments are needed, neither of them blank. -/
def binomials : Step :=
  calls ["choose"] fun treat _ argument => do
    let [top, bottom] := Text.splitTop "," argument | return none
    if (Text.trim top).isEmpty || (Text.trim bottom).isEmpty then return none
    return some (Latex.command "binom" [← treat true top, ← treat true bottom])

/-! ## Enclosed constructs -/

/-- A vector with its components treated. -/
def vectorLatex (treat : Treatment) (components : Text) : Checked Text := do
  let components ← (Text.splitTop "," components).mapM (treat true)
  return "\\langle " ++ Text.join ",\\; " components ++ " \\rangle"

/-- Vectors, the innermost first. -/
def vectors : Step := fun rounds treat text =>
  match rounds with
  | 0 => return text
  | rounds + 1 => do
    let updated ← Vector.pattern.replaceM (fun components => do
      store (← vectorLatex treat components)) text
    if updated = text then return text else vectors rounds treat updated

/-- A set: its elements, and behind a colon, or else a pipe, the condition on them. -/
def setLatex (treat : Treatment) (content : Text) : Checked Text := do
  match (Text.findTop? ":" content).or (Text.findTop? "|" content) with
  | none =>
    let elements ← treat true (← substituteSetWords content)
    return "\\\x7b" ++ elements ++ "\\\x7d"
  | some n =>
    let element ← treat true (← substituteSetWords (content.take n))
    let condition ← treat true (← substituteSetWords (content.drop (n + 1)))
    return "\\\x7b" ++ element ++ " \\mid " ++ condition ++ "\\\x7d"

/-- Puts the sets of a text aside, from left to right, behind the text `before` that is done. A
brace that is never closed is escaped; every brace that is met counts as a round. -/
def collectSets (treat : Treatment) : (rounds : Nat) → (before : Text) → Text → Checked Text
  | 0, before, text => return before ++ text
  | rounds + 1, before, text =>
    match Text.breakOn? ['{'] text with
    | none => return before ++ text
    | some (skipped, after) => do
      let before := before ++ skipped
      if ← isGroupArgument before then collectSets treat rounds (before ++ ['{']) after
      else
        match ← splitClosing? .curly after with
        | none => collectSets treat rounds (before ++ ['\\', '{']) after
        | some (content, after) =>
          let marker ← store (← setLatex treat content)
          collectSets treat rounds (before ++ marker) after

/-- Sets. -/
def setBuilders : Step := fun rounds treat text => collectSets treat rounds [] text

/-- Absolute values, the innermost first. Pipes that do not pair up are left. -/
def absoluteValues : Step := fun rounds treat text =>
  match rounds with
  | 0 => return text
  | rounds + 1 => do
    match ← pipePair? text with
    | none => return text
    | some (first, last) =>
      let inner ← treat true (Text.slice text (first + 1) last)
      let marker ← store ("\\left|" ++ inner ++ "\\right|")
      absoluteValues rounds treat (text.take first ++ marker ++ text.drop (last + 1))

/-! ## Fractions and scripts -/

/-- Puts the fractions of a text aside, from left to right. -/
def collectFractions (grouped : Bool) (treat : Treatment) : (rounds : Nat) → Text → Checked Text
  | 0, text => return text
  | rounds + 1, text => do
    match ← fractionFrom? grouped text 0 text with
    | none => return text
    | some fraction =>
      let numerator ← treat true fraction.numerator
      let denominator ← treat true fraction.denominator
      let marker ← store (Latex.command "frac" [numerator, denominator])
      collectFractions grouped treat rounds (fraction.before ++ marker ++ fraction.after)

/-- Fractions. -/
def fractions : Step := fun rounds treat text => do
  let text ← collectFractions true treat rounds text
  collectFractions false treat rounds text

/-- Subscripts. -/
def subscripts : Step := fun rounds treat text => do
  let text ← collectCalls Script.subscriptHead (fun letter argument => do
    return some (Latex.withSubscript [letter] (← treat false argument))) rounds none text
  (Script.bare Char.isAlpha '_').replaceM (fun script => store (Script.inBraces '_' script)) text

/-- Puts aside the exponents in brackets, behind the text `before` that is passed. An exponent that
is found becomes part of what the next one may stand on. -/
def collectExponents (treat : Treatment) : (rounds : Nat) → (before : Text) → Text → Checked Text
  | 0, before, text => return before ++ text
  | rounds + 1, before, text =>
    match Text.breakOn? "^(" text with
    | none => return before ++ text
    | some (skipped, after) => do
      let before := before ++ skipped
      match ← splitClosing? .round after,
        ← exponentBase? (before ++ "^(" ++ after) before.length with
      | some (argument, after), some (start, base) =>
        let exponent ← treat false argument
        let marker ← store (Latex.withExponent base exponent)
        collectExponents treat rounds (before.take start) (marker ++ after)
      | _, _ => collectExponents treat rounds (before ++ "^(") after

/-- Exponents. -/
def exponents : Step := fun rounds treat text => do
  let text ← collectExponents treat rounds [] text
  let text ← Script.bareExponent.replaceM (fun script => store (Script.inBraces '^' script)) text
  sure (Script.collectMarkerExponents rounds text)

/-! ## All steps -/

/-- The steps, in the order in which they run. -/
def steps : List Step :=
  [factorials, boundedOperators, enclosing ["sqrt", "vec"], enclosing ["floor", "ceil"], functions,
    vectors, binomials, setBuilders, absoluteValues, fractions, subscripts, exponents]

/-- All steps, one after the other. -/
def runSteps (rounds : Nat) (treat : Treatment) (text : Text) : Checked Text :=
  steps.foldlM (fun text step => step rounds treat text) text

/-- A line with its constructs put aside, where constructs may nest `depth` levels deep. An argument
is trimmed, and written as LaTeX once its own constructs are put aside; below the last level it is
kept as it is. -/
def extract (rounds : Nat) : (depth : Nat) → Text → Checked Text
  | 0, text => keep text
  | depth + 1, text =>
    runSteps rounds (fun prose argument =>
      if depth = 0 then keep (Text.trim argument)
      else do segmentLine prose (← extract rounds depth (Text.trim argument))) text

end MathNotes.Checked
