import MathNotes.Text.Blank
import MathNotes.Text.Numeric

/-!
# Pairs of pipes

A pipe opens and closes with the same character, so its neighbours decide. A pipe may open at the
start of the text, behind white space, an operator or an opening bracket, and right behind a pipe
that opened; it then opens if an operand follows, if no pipe is open, or if it stands right behind
the innermost open pipe. Any other pipe closes the innermost open one. Pipes that do not pair up
pair up nowhere.
-/

namespace MathNotes

namespace Pipe

/-- The characters, white space apart, behind which a pipe may open. -/
def leads : List Char := "=<>!+-*/,;:([\x7b".toList

/-- Whether a pipe may open behind a character. -/
def mayFollow (c : Char) : Bool := isBlank c || leads.contains c

/-- Whether a character can start an operand. -/
def startsOperand (c : Char) : Bool :=
  isLetterOrNumber c || c == '(' || c == '\\' || c == '_' || c == '-'

/-- What a walk over the pipes of a text holds: the positions of the open pipes, innermost first,
and the first pair that was closed. -/
structure State where
  opened : List Nat
  first : Option (Nat × Nat)
  deriving Repr, DecidableEq

/-- One pipe at position `index`, between its neighbours: the state behind it, or nothing when it
can neither open nor close. -/
def step (state : State) (index : Nat) (previous next : Option Char) : Option State :=
  let behindOpen := state.opened.head?.any (· + 1 == index)
  let mayOpen := previous.all mayFollow || behindOpen
  if mayOpen && (next.any startsOperand || state.opened.isEmpty || behindOpen) then
    some { state with opened := index :: state.opened }
  else
    match state.opened with
    | [] => none
    | innermost :: outer =>
      some { opened := outer, first := state.first.or (some (innermost, index)) }

/-- The walk over the pipes from position `index` on. -/
def walk (state : State) (index : Nat) (previous : Option Char) : Text → Option State
  | [] => some state
  | c :: rest =>
    if c == '|' then
      match step state index previous rest.head? with
      | none => none
      | some state => walk state (index + 1) (some c) rest
    else
      walk state (index + 1) (some c) rest

/-- The positions of the pair of pipes that closes first, if all pipes pair up. -/
def pair? (text : Text) : Option (Nat × Nat) :=
  match walk ⟨[], none⟩ 0 none text with
  | some ⟨[], first⟩ => first
  | _ => none

end Pipe

end MathNotes
