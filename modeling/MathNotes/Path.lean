import MathNotes.Text.Basic

/-!
# Paths

A path is a root, which is empty, one slash or two, and the parts below it. Repeated slashes and
parts that are a single dot do not count.
-/

namespace MathNotes

/-- A path. -/
structure Path where
  root : Text
  parts : List Text
  deriving Repr, DecidableEq

namespace Path

/-- The path that a text spells. Exactly two slashes in front are a root of their own; any other
number of them is one. -/
def ofText (text : Text) : Path :=
  let slashes := (text.takeWhile (· == '/')).length
  { root := if slashes = 0 then [] else if slashes = 2 then ['/', '/'] else ['/']
    parts := (Text.splitOn '/' text).filter fun part => !part.isEmpty && part != ['.'] }

/-- Whether a text can only spell a folder: its last part is empty or a single dot. -/
def spellsFolder (text : Text) : Bool :=
  (Text.splitOn '/' text).getLast?.any fun part => part.isEmpty || part == ['.']

/-- The text that spells a path. -/
def toText (path : Path) : Text :=
  if path.root.isEmpty && path.parts.isEmpty then ['.']
  else path.root ++ Text.join ['/'] path.parts

/-- The last part of a path. -/
def name (path : Path) : Text := path.parts.getLast?.getD []

/-- The folder that a path lies in. -/
def parent (path : Path) : Path := { path with parts := path.parts.dropLast }

/-- The suffix of a path's name: its last dot and what follows, unless the dot is the name's first
or last character. -/
def suffix (path : Path) : Text :=
  let extension := (path.name.reverse.takeWhile (· != '.')).reverse
  let dot := path.name.length - (extension.length + 1)
  if path.name.contains '.' && !extension.isEmpty && dot != 0 then '.' :: extension else []

/-- The name of a path without its suffix. -/
def stem (path : Path) : Text := path.name.take (path.name.length - path.suffix.length)

/-- A path that starts in the home folder, written out. -/
def expandHome (home : Option Text) (path : Path) : Path :=
  match path, home with
  | ⟨[], ['~'] :: rest⟩, some home =>
    let home := (home.reverse.dropWhile (· == '/')).reverse
    let start := ofText (if home.isEmpty then ['/'] else home)
    { start with parts := start.parts ++ rest }
  | _, _ => path

/-- The parts of a path once every step up has taken back the step before it. -/
def straighten (parts : List Text) : List Text :=
  (parts.foldl (fun done part =>
    match done with
    | last :: before => if part = ".." && last ≠ ".." then before else part :: done
    | [] => [part]) []).reverse

end Path

end MathNotes
