import MathNotes.Bracket.Matching
import MathNotes.Fragment.Basic
import MathNotes.Text.Blank

/-!
# Operands

The operands on either side of a fraction bar or below an exponent: a name or number, a call, or a
group in round brackets, together with the scripts that belong to it. What stands at the end of a
text is found there also when a line feed follows it.
-/

namespace MathNotes

namespace Operand

/-- A name or number: letters, digits and underscores, perhaps as a command. -/
def isAtom : Text → Bool
  | [] => false
  | c :: rest =>
    if c == '\\' then !rest.isEmpty && rest.all isNameChar else isNameChar c && rest.all isNameChar

/-- A letter with letters, digits and primes behind it. -/
def isPlainIdentifier : Text → Bool
  | [] => false
  | c :: rest => c.isAlpha && rest.all fun c => c.isAlphanum || c == '\''

/-- The name of a called function, where the character before it does not continue it. -/
def isIdentifier (previous : Option Char) (text : Text) : Bool :=
  !previous.any (fun c => isNameChar c || c == '\\')
    && isPlainIdentifier ((Text.after? '\\' text).getD text)

/-- Where the atom at the end of a text starts. -/
def atomStart? (text : Text) : Option Nat :=
  (longestEnd? (fun _ => isAtom) none (dropFinalNewline text)).map (·.1.length)

/-- Where the function name at the end of a text starts. -/
def identifierStart? (text : Text) : Option Nat :=
  (longestEnd? isIdentifier none (dropFinalNewline text)).map (·.1.length)

/-- Where the atom, call or group at the end of a text starts. -/
def unscriptedStart? (text : Text) : Option Nat :=
  if text.getLast? == some ')' then
    (Delimiters.round.splitOpening? text.dropLast).map fun (before, _) =>
      (identifierStart? before).getD before.length
  else atomStart? text

/-- Whether a character joins a script to its base. -/
def isScriptMark (c : Char) : Bool := c == '^' || c == '_'

/-- Moves the start of an operand over the bases that it is a script of, at most `budget` times. -/
def baseStart (text : Text) : (budget : Nat) → (start : Nat) → Nat
  | 0, start => start
  | budget + 1, start =>
    if (text.take start).getLast?.any isScriptMark then
      match unscriptedStart? (text.take (start - 1)) with
      | some base => baseStart text budget base
      | none => start
    else start

/-- Where the operand at the end of a text starts, the base of a script included: every move goes to
the left, so there are fewer of them than characters. -/
def start? (text : Text) : Option Nat :=
  (unscriptedStart? text).map (baseStart text text.length)

/-- How many characters at the front of a text form an atom. -/
def atomWidth (text : Text) : Nat :=
  match Text.after? '\\' text with
  | some rest =>
    let run := rest.takeWhile isNameChar
    if run.isEmpty then 0 else run.length + 1
  | none => (text.takeWhile isNameChar).length

/-- How many characters the atom or group at the front of a text takes, behind the text `before`. An
underscore in front of a bracket joins a script and is no part of the name, unless it ends a
marker. -/
def unscriptedWidth? (before text : Text) : Option Nat :=
  match Text.after? '(' text with
  | some rest => (Delimiters.round.offset? 0 rest).map (· + 2)
  | none =>
    let width := atomWidth text
    let atom := text.take width
    let joinsScript := atom.getLast? == some '_' && (text.drop width).head? == some '('
      && (Marker.atEnd? (before ++ atom)).isNone
    let width := if joinsScript then width - 1 else width
    if width = 0 then none else some width

/-- Widens an operand by the scripts that belong to it, at most `budget` times. -/
def scriptedWidth (before text : Text) : (budget : Nat) → (width : Nat) → Nat
  | 0, width => width
  | budget + 1, width =>
    match text.drop width with
    | mark :: rest =>
      if isScriptMark mark then
        match unscriptedWidth? (before ++ text.take (width + 1)) rest with
        | some more => scriptedWidth before text budget (width + 1 + more)
        | none => width
      else width
    | [] => width

/-- How many characters the operand at the front of a text takes, its scripts included: every script
takes characters, so there are fewer of them than characters. -/
def width? (before text : Text) : Option Nat :=
  (unscriptedWidth? before text).map (scriptedWidth before text text.length)

/-- An operand without its brackets, when it is exactly one group. -/
def ungrouped (operand : Text) : Text :=
  match (Text.after? '(' operand).bind Delimiters.round.splitClosing? with
  | some (content, []) => content
  | _ => operand

end Operand

end MathNotes
