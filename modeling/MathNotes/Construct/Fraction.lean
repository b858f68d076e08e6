import MathNotes.Construct.Basic
import MathNotes.Construct.Operand
import MathNotes.Latex

/-!
# Fractions

A slash between two operands. Fractions with an operand in brackets bind first, the others follow
from left to right.
-/

namespace MathNotes

/-- A fraction found in a text, with what stands around it. -/
structure Fraction where
  before : Text
  numerator : Text
  denominator : Text
  after : Text
  deriving Repr, DecidableEq

namespace Fraction

/-- The fraction at a slash between two texts. When `grouped`, one of its operands has to be in
brackets. -/
def at? (grouped : Bool) (before after : Text) : Option Fraction :=
  let left := Text.trimRight before
  let right := Text.trimLeft after
  let blanks := after.takeWhile isBlank
  match Operand.start? left, Operand.width? (before ++ '/' :: blanks) right with
  | some start, some width =>
    if !grouped || left.getLast? == some ')' || right.head? == some '(' then
      some ⟨left.take start, Operand.ungrouped (left.drop start),
        Operand.ungrouped (right.take width), right.drop width⟩
    else none
  | _, _ => none

/-- The first fraction of a text, when the characters `behind` it, nearest first, are passed. -/
def findFrom? (grouped : Bool) (behind : Text) : Text → Option Fraction
  | [] => none
  | c :: rest =>
    if c == '/' then (at? grouped behind.reverse rest).or (findFrom? grouped (c :: behind) rest)
    else findFrom? grouped (c :: behind) rest

/-- The first fraction of a text. -/
def find? (grouped : Bool) (text : Text) : Option Fraction := findFrom? grouped [] text

/-- Puts the fractions of a text aside, from left to right. -/
def collect (grouped : Bool) (treat : Treatment) : (rounds : Nat) → Text → Extract Text
  | 0, text => pure text
  | rounds + 1, text =>
    match find? grouped text with
    | none => pure text
    | some fraction => do
      let numerator ← treat true fraction.numerator
      let denominator ← treat true fraction.denominator
      let marker ← Extract.store (Latex.command "frac" [numerator, denominator])
      collect grouped treat rounds (fraction.before ++ marker ++ fraction.after)

end Fraction

namespace Construct

/-- Fractions. -/
def fractions : Step := fun rounds treat text => do
  let text ← Fraction.collect true treat rounds text
  Fraction.collect false treat rounds text

end Construct

end MathNotes
