import MathNotes.Text.Basic
import MathNotes.Text.Range

/-!
# White space

The white-space characters of Unicode, with the four separators of ASCII, and what it means to trim
a text.
-/

namespace MathNotes

/-- The white-space characters. -/
def blankTable : RangeTable :=
  [(0x09, 0x0d), (0x1c, 0x20), (0x85, 0x85), (0xa0, 0xa0), (0x1680, 0x1680), (0x2000, 0x200a),
    (0x2028, 0x2029), (0x202f, 0x202f), (0x205f, 0x205f), (0x3000, 0x3000)]

/-- Whether a character is white space. -/
def isBlank (c : Char) : Bool := blankTable.contains c.toNat

namespace Text

/-- A text without its leading white space. -/
def trimLeft (text : Text) : Text := text.dropWhile isBlank

/-- A text without its trailing white space. -/
def trimRight (text : Text) : Text := (text.reverse.dropWhile isBlank).reverse

/-- A text without its leading and trailing white space. -/
def trim (text : Text) : Text := trimRight (trimLeft text)

/-- Whether a text has characters, and white space only. -/
def isBlankRun (text : Text) : Bool := !text.isEmpty && text.all isBlank

end Text

end MathNotes
