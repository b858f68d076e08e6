import MathNotes.Fragment.Basic

/-!
# Extraction

Every construct that is recognised in a line is put aside as a fragment, and its marker takes its
place. The arguments of a construct go through the same extraction first; how deep arguments may
nest is limited, and an argument beyond the limit is kept as it was written.

An extraction step is given the number of rounds that it may run and the treatment of arguments. The
steps in this folder work on texts that are already cut, so there is nothing in them that can fail;
a line is compiled by the steps in `Checked`, which read the same at positions and from tables.
-/

namespace MathNotes

/-- What an extraction leaves behind: the fragments put aside, and the arguments that were kept as
written because they were nested too deeply. -/
structure Extraction where
  fragments : Fragments := []
  kept : List Text := []
  deriving Repr, DecidableEq

/-- A computation that puts fragments aside. -/
abbrev Extract := StateM Extraction

namespace Extract

/-- Puts a fragment aside and gives its marker. -/
def store (latex : Text) : Extract Text := fun state =>
  let (marker, fragments) := state.fragments.add latex
  (marker, { state with fragments })

/-- Keeps a text as it was written. -/
def keep (text : Text) : Extract Text := fun state =>
  (text, { state with kept := state.kept ++ [text] })

end Extract

/-- How the argument of a construct becomes LaTeX; outside `prose` all words belong to the
formula. -/
abbrev Treatment := (prose : Bool) → Text → Extract Text

/-- A step of the extraction: it puts aside constructs of a line, in at most `rounds` rounds. -/
abbrev Step := (rounds : Nat) → Treatment → Text → Extract Text

end MathNotes
