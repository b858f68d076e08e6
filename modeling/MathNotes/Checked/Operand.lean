import MathNotes.Bracket.Pipe
import MathNotes.Construct.Enclosed
import MathNotes.Construct.Fraction
import MathNotes.Construct.Script

/-!
# Checked operands

What stands around a slash, a caret, a brace or a pipe is read at positions of the whole text. A
position counts the characters in front of it, so the character before position `n` is the one at
`n - 1`; at the start of a text that is a negative position, which counts from the end, and at the
end of a text there is no character behind it.
-/

namespace MathNotes.Checked

/-! ## Operands -/

/-- Where the atom, call or group in front of a position starts. -/
def operandStart? (text : Text) (stop : Nat) : Except Fault (Option Nat) := do
  if stop = 0 then return none
  if (← Text.charAt text (stop - 1)) == ')' then
    return (Delimiters.round.opening? text (stop - 1)).map fun opening =>
      (Operand.identifierStart? (text.take opening)).getD opening
  else return Operand.atomStart? (text.take stop)

/-- Where the atom or group behind a position ends. An underscore in front of a bracket joins a
script and is no part of the name, unless it ends a marker. -/
def operandEnd? (text : Text) (start : Nat) : Except Fault (Option Nat) := do
  if text.length ≤ start then return none
  if (← Text.charAt text start) == '(' then
    return (← Delimiters.round.closing? text (start + 1)).map fun stop => (stop + 1).toNat
  else
    let stop := start + Operand.atomWidth (text.drop start)
    if stop = start then return none
    let joinsScript := (← Text.charAt text (stop - 1)) == '_' && (text.drop stop).head? == some '('
      && (Marker.atEnd? (text.take stop)).isNone
    let stop := if joinsScript then stop - 1 else stop
    return if stop ≤ start then none else some stop

/-- Moves the start of an operand over the bases that it is a script of, at most `budget` times. -/
def baseStart (text : Text) : (budget : Nat) → (start : Nat) → Except Fault Nat
  | 0, start => return start
  | _ + 1, 0 => return 0
  | budget + 1, mark + 1 => do
    if Operand.isScriptMark (← Text.charAt text mark) then
      match ← operandStart? text mark with
      | some base => baseStart text budget base
      | none => return mark + 1
    else return mark + 1

/-- Moves the end of an operand over the scripts that belong to it, at most `budget` times. -/
def scriptedEnd (text : Text) : (budget : Nat) → (stop : Nat) → Except Fault Nat
  | 0, stop => return stop
  | budget + 1, stop => do
    if text.length ≤ stop then return stop
    if Operand.isScriptMark (← Text.charAt text stop) then
      match ← operandEnd? text (stop + 1) with
      | some scripted => scriptedEnd text budget scripted
      | none => return stop
    else return stop

/-- The text between two positions, without its brackets when it is exactly one group. -/
def operandText (text : Text) (start stop : Nat) : Except Fault Text := do
  if (← Text.charAt text start) == '(' then
    if (← Delimiters.round.closing? text (start + 1)).getD (-1) = (stop : Int) - 1 then
      return Text.slice text (start + 1) (stop - 1)
  return Text.slice text start stop

/-! ## Fractions -/

/-- Moves a position back over the white space in front of it. -/
def backOverBlanks (text : Text) : (stop : Nat) → Except Fault Nat
  | 0 => return 0
  | stop + 1 => do
    if isBlank (← Text.charAt text stop) then backOverBlanks text stop else return stop + 1

/-- Moves a position over the white space behind it, with `ahead` characters left to the end. -/
def overBlanks (text : Text) : (ahead : Nat) → (start : Nat) → Except Fault Nat
  | 0, start => return start
  | ahead + 1, start => do
    if isBlank (← Text.charAt text start) then overBlanks text ahead (start + 1) else return start

/-- An operand of a fraction: the position at its outer end, its text, and whether it is in
brackets. -/
structure FractionOperand where
  edge : Nat
  text : Text
  grouped : Bool

/-- The operand in front of a slash. -/
def operandBefore? (text : Text) (slash : Nat) : Except Fault (Option FractionOperand) := do
  let stop ← backOverBlanks text slash
  let some start ← operandStart? text stop | return none
  let start ← baseStart text stop start
  return some ⟨start, ← operandText text start stop, (← Text.charAt text (stop - 1)) == ')'⟩

/-- The operand behind a slash. -/
def operandAfter? (text : Text) (slash : Nat) : Except Fault (Option FractionOperand) := do
  let start ← overBlanks text (text.length - (slash + 1)) (slash + 1)
  let some stop ← operandEnd? text start | return none
  let grouped := (← Text.charAt text start) == '('
  let stop ← scriptedEnd text (text.length - start) stop
  return some ⟨stop, ← operandText text start stop, grouped⟩

/-- The fraction at a slash. When `grouped`, one of its operands has to be in brackets. -/
def fractionAt? (grouped : Bool) (text : Text) (slash : Nat) : Except Fault (Option Fraction) := do
  match ← operandBefore? text slash, ← operandAfter? text slash with
  | some left, some right =>
    if !grouped || left.grouped || right.grouped then
      return some ⟨text.take left.edge, left.text, right.text, text.drop right.edge⟩
    else return none
  | _, _ => return none

/-- The first fraction of a text whose slash stands among the characters from a position on. -/
def fractionFrom? (grouped : Bool) (text : Text) : (position : Nat) → (rest : Text) →
    Except Fault (Option Fraction)
  | _, [] => return none
  | position, c :: rest => do
    if c == '/' then
      match ← fractionAt? grouped text position with
      | some fraction => return some fraction
      | none => fractionFrom? grouped text (position + 1) rest
    else fractionFrom? grouped text (position + 1) rest

/-! ## Exponents, sets and absolute values -/

/-- What the exponent at a caret is put on: where it starts, and its LaTeX. -/
def exponentBase? (text : Text) (caret : Nat) : Except Fault (Option (Nat × Text)) := do
  if caret = 0 then return none
  match Marker.atEnd? (text.take caret) with
  | some (lead, marker) => return some (lead.length, Latex.braced marker)
  | none =>
    let previous ← Text.charAt text (caret - 1)
    if previous == ')' then
      return (Delimiters.round.opening? text (caret - 1)).map fun opening =>
        (opening, Text.slice text opening caret)
    else if isLetterOrNumber previous || previous == '}' then return some (caret - 1, [previous])
    else return none

/-- Whether a brace behind this text belongs to a command or a script, or is escaped. -/
def isGroupArgument (before : Text) : Except Fault Bool := do
  if before.isEmpty then return false
  let last ← Text.charAt before (-1)
  return "\\_^".toList.contains last || SetBuilder.endsInCommand before

/-- The character in front of a position, if there is one. -/
def charBefore? (text : Text) (index : Nat) : Except Fault (Option Char) :=
  if 0 < index then some <$> Text.charAt text (index - 1) else return none

/-- The character behind the one at a position, if there is one. -/
def charBehind? (text : Text) (index : Nat) : Except Fault (Option Char) :=
  if index + 1 < text.length then some <$> Text.charAt text (index + 1) else return none

/-- The walk over the pipes among the characters from a position on. -/
def walkPipes (text : Text) (state : Pipe.State) : (index : Nat) → (rest : Text) →
    Except Fault (Option Pipe.State)
  | _, [] => return some state
  | index, c :: rest => do
    if c == '|' then
      match Pipe.step state index (← charBefore? text index) (← charBehind? text index) with
      | none => return none
      | some state => walkPipes text state (index + 1) rest
    else walkPipes text state (index + 1) rest

/-- The positions of the pair of pipes that closes first, if all pipes pair up. -/
def pipePair? (text : Text) : Except Fault (Option (Nat × Nat)) := do
  match ← walkPipes text ⟨[], none⟩ 0 text with
  | some ⟨[], first⟩ => return first
  | _ => return none

end MathNotes.Checked
