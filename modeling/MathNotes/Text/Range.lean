/-!
# Tables of code points

A character property is a table of code point ranges in ascending order; membership stops at the
first range that starts behind the character.
-/

namespace MathNotes

/-- Ranges of code points, each given by its first and its last member, in ascending order. -/
abbrev RangeTable := List (Nat × Nat)

/-- Whether a code point lies in one of the ranges. -/
def RangeTable.contains : RangeTable → Nat → Bool
  | [], _ => false
  | (first, last) :: rest, n => first ≤ n && (n ≤ last || RangeTable.contains rest n)

end MathNotes
