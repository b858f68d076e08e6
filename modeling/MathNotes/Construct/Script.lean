import MathNotes.Construct.Call
import MathNotes.Construct.ScriptShape

/-!
# Subscripts and exponents

Scripts in brackets go through the extraction of arguments; bare scripts are taken as written. An
exponent on something that already carries one puts the whole into braces first, so that chains fold
to the left.
-/

namespace MathNotes

namespace Script

/-- A letter with an underscore and an opening bracket: the letter. -/
def subscriptHead : Pattern Char := fun _ text => do
  let letter :: rest := text | none
  guard letter.isAlpha
  let rest ← Text.after? '_' rest
  let rest ← Text.after? '(' rest
  return .leaving text letter rest

/-- What an exponent behind this text is put on: where it starts, and its LaTeX. A marker is put in
braces, a group keeps its brackets, and otherwise it is one character. -/
def exponentBase? (before : Text) : Option (Nat × Text) :=
  match Marker.atEnd? before with
  | some (lead, marker) => some (lead.length, Latex.braced marker)
  | none =>
    match before.getLast? with
    | none => none
    | some last =>
      if last == ')' then
        (Delimiters.round.splitOpening? before.dropLast).map fun (lead, _) =>
          (lead.length, before.drop lead.length)
      else if isLetterOrNumber last || last == '}' then some (before.length - 1, [last])
      else none

/-- Puts aside the exponents in brackets, behind the text `before` that is passed. An exponent that
is found becomes part of what the next one may stand on. -/
def collectExponents (treat : Treatment) : (rounds : Nat) → (before : Text) → Text → Extract Text
  | 0, before, text => return before ++ text
  | rounds + 1, before, text =>
    match Text.breakOn? "^(" text with
    | none => return before ++ text
    | some (skipped, after) => do
      let before := before ++ skipped
      match Delimiters.round.splitClosing? after, exponentBase? before with
      | some (argument, after), some (start, base) =>
        let exponent ← treat false argument
        let marker ← Extract.store (Latex.withExponent base exponent)
        collectExponents treat rounds (before.take start) (marker ++ after)
      | _, _ => collectExponents treat rounds (before ++ "^(") after

/-- The run of letters and digits at the front of a text, and what follows it. -/
def bareRun? (text : Text) : Option (Text × Text) := do
  let run := text.takeWhile Char.isAlphanum
  guard (!run.isEmpty)
  return (run, text.drop run.length)

/-- The content of the braces at the front of a text, neither empty nor with braces of its own, and
what follows them. -/
def bracedRun? (text : Text) : Option (Text × Text) := do
  let rest ← Text.after? '{' text
  let run := rest.takeWhile fun c => c != '{' && c != '}'
  guard (!run.isEmpty)
  return (run, ← Text.after? '}' (rest.drop run.length))

/-- The marker at the front of a text, and what follows it. -/
def markerRun? (text : Text) : Option (Text × Text) :=
  (Marker.read? text).map fun (digits, rest) => (Marker.ofDigits digits, rest)

/-- Whether a character can carry a bare exponent. -/
def isExponentBase (c : Char) : Bool := c.isAlphanum || c == '}' || c == ')'

/-- A character that can carry a bare exponent, with the exponent: a marker or a run of letters and
digits. -/
def bareExponent : Pattern (Char × Text) := fun _ text => do
  let base :: rest := text | none
  guard (isExponentBase base)
  let rest ← Text.after? '^' rest
  let (exponent, after) ← (markerRun? rest).or (bareRun? rest)
  return .leaving text (base, exponent) after

/-- A marker with an exponent that stands in braces or is a run of letters and digits: the marker
and the exponent. -/
def markerExponent : Pattern (Text × Text) := fun _ text => do
  let (marker, rest) ← markerRun? text
  let rest ← Text.after? '^' rest
  let (exponent, after) ← (bracedRun? rest).or (bareRun? rest)
  return .leaving text (marker, exponent) after

/-- Puts aside the exponents on markers, from left to right. -/
def collectMarkerExponents : (rounds : Nat) → Text → Extract Text
  | 0, text => pure text
  | rounds + 1, text =>
    match markerExponent.find? none text with
    | none => pure text
    | some cut => do
      let (base, exponent) := cut.value
      let marker ← Extract.store (Latex.withExponent (Latex.braced base) exponent)
      collectMarkerExponents rounds (cut.before ++ marker ++ cut.after)

end Script

namespace Construct

/-- Subscripts. -/
def subscripts : Step := fun rounds treat text => do
  let text ← Call.collect Script.subscriptHead (fun letter argument => do
    return some (Latex.withSubscript [letter] (← treat false argument))) rounds none text
  (Script.bare Char.isAlpha '_').replaceM (fun script => Extract.store (Script.inBraces '_' script))
    text

/-- Exponents. -/
def exponents : Step := fun rounds treat text => do
  let text ← Script.collectExponents treat rounds [] text
  let text ← Script.bareExponent.replaceM
    (fun script => Extract.store (Script.inBraces '^' script)) text
  Script.collectMarkerExponents rounds text

end Construct

end MathNotes
