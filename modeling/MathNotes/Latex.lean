import MathNotes.Text.Basic

/-!
# LaTeX text

The few shapes that all generated LaTeX is put together from: groups in braces, commands with
arguments, scripts, and prose inside `\text{…}`, where every special character is escaped.
-/

namespace MathNotes.Latex

/-- A group in braces. -/
def braced (body : Text) : Text := '{' :: body ++ ['}']

/-- A command applied to arguments in braces. -/
def command (name : Text) (arguments : List Text) : Text :=
  '\\' :: name ++ arguments.flatMap braced

/-- A base with a subscript in braces. -/
def withSubscript (base index : Text) : Text := base ++ '_' :: braced index

/-- A base with an exponent in braces. -/
def withExponent (base exponent : Text) : Text := base ++ '^' :: braced exponent

/-- A character of prose: the characters that are special inside `\text{…}` are escaped. -/
def escapeChar (c : Char) : Text :=
  if c == '\\' then "\\textbackslash "
  else if "\x7b\x7d#$%&_".toList.contains c then ['\\', c]
  else [c]

/-- Prose, with its special characters escaped. -/
def escapeText (text : Text) : Text := text.flatMap escapeChar

/-- Prose inside a formula. -/
def prose (text : Text) : Text := command "text" [escapeText text]

end MathNotes.Latex
