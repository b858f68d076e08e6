import MathNotes.Fault
import MathNotes.Fragment.Basic

/-!
# Resolving markers

Markers are replaced by their fragments, pass after pass, until none is left, a pass changes nothing
or the passes are used up. A marker without a fragment stays as it is.
-/

namespace MathNotes

/-- What became of a line: its text, how many passes ran, and whether markers are left. -/
structure Resolution where
  latex : Text
  passes : Nat
  unresolved : Bool
  deriving Repr, DecidableEq

namespace Fragments

/-- The text that a marker stands for; the number of a marker must not be too long to be read. -/
def lookup (fragments : Fragments) (digits : Text) : Except Fault Text :=
  if Fault.digitLimit < digits.length then .error (.longMarker digits.length)
  else .ok ((fragments[decimalNumber digits]?).getD (Marker.ofDigits digits))

/-- One pass over a line. -/
def resolveOnce (fragments : Fragments) (line : Text) : Except Fault Text :=
  Marker.pattern.replaceM fragments.lookup line

/-- At most `budget` passes over a line, after `passes` earlier ones. -/
def resolveFrom (fragments : Fragments) (passes : Nat) : (budget : Nat) → Text →
    Except Fault Resolution
  | 0, line => .ok ⟨line, passes, Marker.occursIn line⟩
  | budget + 1, line =>
    if Marker.occursIn line then do
      let updated ← fragments.resolveOnce line
      if updated = line then return ⟨line, passes + 1, true⟩
      else fragments.resolveFrom (passes + 1) budget updated
    else .ok ⟨line, passes, false⟩

/-- A line with its markers resolved in at most `limit` passes; a negative limit allows none. -/
def resolve (fragments : Fragments) (limit : Int) (line : Text) : Except Fault Resolution :=
  fragments.resolveFrom 0 limit.toNat line

end Fragments

end MathNotes
