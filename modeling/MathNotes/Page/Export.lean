import MathNotes.Page.Html
import MathNotes.Page.Json
import MathNotes.Page.Tex
import MathNotes.Path

/-!
# Exports

The suffix of a file decides in which format a result is written to it.
-/

namespace MathNotes

/-- The time of a run: the date, the moment as it is written into results, and as it is written into
logs. -/
structure Clock where
  today : Text
  now : Text
  logged : Text
  deriving Repr, DecidableEq

/-- The formats that results are written in. -/
inductive Format where
  | html
  | tex
  | json
  deriving Repr, DecidableEq

namespace Format

/-- The suffixes of the formats. -/
def suffixes : List (Text × Format) :=
  [(".html", html), (".htm", html), (".tex", tex), (".json", json)]

/-- The format of a file, by its suffix in upper or lower case. -/
def ofPath (path : Path) : Except Fault Format :=
  match suffixes.lookup (path.suffix.map Char.toLower) with
  | some format => .ok format
  | none => .error (.unsupportedOutput path.name (suffixes.map (·.1)))

/-- A result in a format. -/
def render (clock : Clock) (details : PageDetails) (compilation : Compilation) : Format → Text
  | html => Html.page clock.today details compilation.lines
  | tex => Tex.document clock.today details compilation.lines
  | json => Json.document clock.now compilation

end Format

/-- What is written to a file for a result. -/
def exportTo (clock : Clock) (details : PageDetails) (path : Path) (compilation : Compilation) :
    Except Fault Text := do
  return (← Format.ofPath path).render clock details compilation

end MathNotes
