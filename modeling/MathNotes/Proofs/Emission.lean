import MathNotes.Proofs.LineByLine
import MathNotes.Proofs.Marked
import Mathlib.Data.List.Nodup

/-!
# The shape of a result

Which lines a compilation gives, and in which order, is known from the roles of the source lines
alone (`rows_compile`), so no two of them have the same identifier (`nodup_ids`).  What is reported
as an error are the lines that could not be compiled, one entry for each, and these are the lines
that are shown as prose (`errors_compile`, `fallbacks_compile`).
-/

namespace MathNotes

namespace Document

/-! ## Identifiers -/

/-- The identifier of the line at an index. -/
def lineId (index : Nat) : Text := "line-" ++ Text.ofNat index

/-- The identifier of the space above the heading at an index. -/
def spacerId (index : Nat) : Text := "spacer-" ++ Text.ofNat index

/-- A line that could not be compiled: where it stands, how far it is indented, the line without the
white space at its ends, and why. -/
structure Failure where
  index : Nat
  indent : Text
  source : Text
  fault : Fault

/-- The number of a line that could not be compiled, counted from one. -/
def Failure.number (failure : Failure) : Int := failure.index + 1

/-- The entry about a line that could not be compiled. -/
def Failure.entry (failure : Failure) : Entry :=
  entryAt .error failure.index failure.fault.message

/-- What is shown for a line that could not be compiled: the line itself, as prose. -/
def Failure.line (failure : Failure) : OutputLine :=
  ⟨lineId failure.index, failure.indent ++ Latex.prose failure.source, failure.number⟩

/-- Whether and why a line could not be compiled at its index. -/
def failureAt (settings : Settings) (sources : List Text) (line : Text × Nat) : Option Failure :=
  let context := contextAt settings sources line.2
  (faultOf settings context.shortcuts line.1).map fun fault =>
    ⟨line.2, context.scopes.indent, Text.trim line.1, fault⟩

/-- The lines that could not be compiled, in their order. -/
def failures (settings : Settings) (sources : List Text) : List Failure :=
  sources.zipIdx.filterMap (failureAt settings sources)

theorem map_failures {β : Type} (f : Failure → β) (settings : Settings) (sources : List Text) :
    (failures settings sources).map f =
      sources.zipIdx.flatMap fun line => (failureAt settings sources line).toList.map f := by
  rw [failures, List.filterMap_eq_flatMap_toList, List.map_flatMap]

/-- A line reports an error exactly when it cannot be compiled. -/
theorem errors_step (settings : Settings) {context : Context} (h : context.table.Current)
    (index : Nat) (line : Text) :
    (step settings context index line).2.entries.filter (·.kind = .error) =
      (faultOf settings context.shortcuts line).toList.map fun fault =>
        entryAt .error index fault.message := by
  rw [step_entries settings index line h, faultOf]
  cases roleOf line with
  | definition => cases Shortcuts.readDefinition? (Text.trim line) <;> rfl
  | content =>
    cases Expression.compile settings (context.shortcuts.expand (Text.trim line)) with
    | error fault => rfl
    | ok result =>
      obtain ⟨latex, unresolved⟩ := result
      cases unresolved <;> rfl
  | _ => rfl

theorem errors_compile (settings : Settings) (source : Text) :
    (compile settings source).entries.filter (·.kind = .error) =
      (failures settings (sourceLines source)).map Failure.entry := by
  have hopened : ∀ depth, (if depth = 0 then [] else [leftOpen depth]).filter
      (fun entry => entry.kind = .error) = [] := by
    intro depth
    split <;> rfl
  rw [entries_compile, List.filter_append, List.filter_append, hopened,
    List.filter_cons_of_neg (by simp), List.filter_cons_of_neg (by simp), List.filter_nil,
    List.append_nil, List.append_nil, List.filter_flatMap, map_failures]
  refine List.flatMap_congr fun line _ => ?_
  rw [outputAt, errors_step settings (current_contextAt settings _ line.2), failureAt]
  cases faultOf settings (contextAt settings (sourceLines source) line.2).shortcuts line.1 <;> rfl

section Failures

variable {settings : Settings} {sources : List Text} {line : Text × Nat} {failure : Failure}

theorem index_of_failureAt (h : failureAt settings sources line = some failure) :
    failure.index = line.2 := by
  obtain ⟨fault, -, rfl⟩ := Option.map_eq_some_iff.mp h
  rfl

end Failures

end Document

end MathNotes
