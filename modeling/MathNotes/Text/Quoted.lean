import MathNotes.Text.Basic
import MathNotes.Text.Printable

/-!
# Quoted text

How a text is shown inside a message: between single quotes, or between double quotes when it holds
a single quote and no double quote. The quote in use and the backslash are escaped, and so is every
character that is not printable: three control characters by a letter, the others by their code
point in as few hexadecimal digits as two, four or eight allow.
-/

namespace MathNotes.Text

/-- The last `width` hexadecimal digits of a number, the most significant first. -/
def hexDigits : (width : Nat) → Nat → Text
  | 0, _ => []
  | width + 1, n => hexDigits width (n / 16) ++ [Nat.digitChar (n % 16)]

/-- A character that is not printable, by its code point. -/
def codePointEscape (c : Char) : Text :=
  if c.toNat < 0x100 then "\\x" ++ hexDigits 2 c.toNat
  else if c.toNat < 0x10000 then "\\u" ++ hexDigits 4 c.toNat
  else "\\U" ++ hexDigits 8 c.toNat

/-- A character inside the given quotes. -/
def quotedChar (quote : Char) (c : Char) : Text :=
  if c == quote || c == '\\' then ['\\', c]
  else if c == '\t' then "\\t"
  else if c == '\n' then "\\n"
  else if c == '\r' then "\\r"
  else if isPrintable c then [c]
  else codePointEscape c

/-- The quotes that a text is shown in. -/
def quoteFor (text : Text) : Char :=
  if text.contains '\'' && !text.contains '"' then '"' else '\''

/-- A text in quotes. -/
def quoted (text : Text) : Text :=
  let quote := quoteFor text
  quote :: text.flatMap (quotedChar quote) ++ [quote]

end MathNotes.Text
