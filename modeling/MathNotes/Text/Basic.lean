/-!
# Text

A text is the list of its characters, so that every position, length and cut counts code points.
String literals stand for texts through a coercion; `String` itself appears only where texts enter
and leave the library.
-/

namespace MathNotes

/-- A text, as the list of its characters. -/
abbrev Text := List Char

instance : Coe String Text := ⟨String.toList⟩

namespace Text

/-- The decimal numeral of a natural number. -/
def ofNat (n : Nat) : Text := Nat.toDigits 10 n

/-- The decimal numeral of an integer, a minus sign in front of a negative one. -/
def ofInt : Int → Text
  | .ofNat n => ofNat n
  | .negSucc n => '-' :: ofNat (n + 1)

/-- `count` copies of `unit`, one after the other. -/
def copies (count : Nat) (unit : Text) : Text := (List.replicate count unit).flatten

/-- The parts, with `separator` between neighbours. -/
def join (separator : Text) (parts : List Text) : Text := separator.intercalate parts

/-- The pieces between the separators: one more piece than there are separators, so the empty text
has one empty piece. -/
def splitOn (separator : Char) : Text → List Text
  | [] => [[]]
  | c :: rest =>
    if c == separator then [] :: splitOn separator rest
    else
      match splitOn separator rest with
      | [] => [[c]]
      | piece :: pieces => (c :: piece) :: pieces

/-- The text behind a given first character. -/
def after? (first : Char) : Text → Option Text
  | [] => none
  | c :: rest => if c == first then some rest else none

/-- The text in front of the first occurrence of `needle` and the text behind it. -/
def breakOn? (needle : Text) : Text → Option (Text × Text)
  | [] => if needle.isEmpty then some ([], []) else none
  | c :: rest =>
    match needle.isPrefixOf? (c :: rest) with
    | some after => some ([], after)
    | none => (breakOn? needle rest).map fun (before, after) => (c :: before, after)

end Text

/-- A letter, digit or underscore of ASCII: what a name may hold. -/
def isNameChar (c : Char) : Bool := c.isAlphanum || c == '_'

end MathNotes
