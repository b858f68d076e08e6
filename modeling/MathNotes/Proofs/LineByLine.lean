import MathNotes.Document
import MathNotes.Proofs.ShortcutTables
import Mathlib.Data.List.Induction

/-!
# Documents line by line

What a line gives depends on what the line is (`roleOf`) and on the context in front of it
(`contextAt`).  `step_eq` says once what a line of each role does; the lemmas behind it read off
which blocks it leaves open (`step_scopes`), which shortcuts are in force behind it
(`step_shortcuts`) and what it writes (`step_lines`, `step_entries`).
Lines are expanded by a table that remembers names, and in front of every line this table is current
(`current_contextAt`), so a line sees the shortcuts in force and nothing of the memory.

The result of a compilation is put together from the outputs of the lines (`lines_compile`,
`entries_compile`), and what comes from one of them is found again by its number
(`linesOf_compile`).
-/

namespace MathNotes

namespace Document

/-! ## One line -/

/-- What a line is. -/
inductive Role where
  /-- It is blank, or a comment. -/
  | ignored
  | definition
  | heading (found : Heading)
  /-- It looks like a heading, but its keyword cannot be read. -/
  | unreadable (fault : Fault)
  | close
  | content
  deriving DecidableEq

/-- What a line is. This depends on the line alone. -/
def roleOf (line : Text) : Role :=
  let line := Text.trim line
  if isIgnored line then .ignored
  else if Shortcuts.isDefinition line then .definition
  else
    match Heading.ofLine? line with
    | .error fault => .unreadable fault
    | .ok (some found) => .heading found
    | .ok none => if Scopes.isClose line then .close else .content

/-- **What a line does**, by what it is. -/
theorem step_eq (settings : Settings) (context : Context) (index : Nat) (line : Text) :
    step settings context index line =
      match roleOf line with
      | .ignored => (context, {})
      | .definition => definition context index (Text.trim line)
      | .heading found => heading context index found
      | .unreadable fault => (context, failure context index (Text.trim line) fault)
      | .close => close context index
      | .content => content settings context index (Text.trim line) := by
  unfold step roleOf
  by_cases hignored : isIgnored (Text.trim line) = true
  · simp only [if_pos hignored]
  by_cases hdefinition : Shortcuts.isDefinition (Text.trim line) = true
  · simp only [if_neg hignored, if_pos hdefinition]
  simp only [if_neg hignored, if_neg hdefinition]
  cases Heading.ofLine? (Text.trim line) with
  | error fault => rfl
  | ok heading =>
    cases heading with
    | some found => rfl
    | none =>
      by_cases hclose : Scopes.isClose (Text.trim line) = true
      · simp only [if_pos hclose]
      · simp only [if_neg hclose]

/-- The shortcuts behind a line. -/
def shortcutsBehind (shortcuts : Shortcuts) (line : Text) : Shortcuts :=
  if roleOf line = .definition then shortcuts.defineLine (Text.trim line) else shortcuts

/-- Why a line cannot be compiled under some shortcuts, if it cannot. -/
def faultOf (settings : Settings) (shortcuts : Shortcuts) (line : Text) : Option Fault :=
  match roleOf line with
  | .unreadable fault => some fault
  | .content =>
    match Expression.compile settings (shortcuts.expand (Text.trim line)) with
    | .error fault => some fault
    | .ok _ => none
  | _ => none

/-- The LaTeX of a line of content outside of all blocks: what it is compiled to, or the line itself
as prose if it cannot be compiled. -/
def bodyOf (settings : Settings) (shortcuts : Shortcuts) (line : Text) : Text :=
  match roleOf line, Expression.compile settings (shortcuts.expand (Text.trim line)) with
  | .content, .ok (latex, _) => latex
  | _, _ => Latex.prose (Text.trim line)

/-- The entries of an output. -/
def Output.entries (output : Output) : List Entry := output.events.filterMap Event.entry?

/-- An entry about the line at `index`. -/
def entryAt (kind : EntryKind) (index : Nat) (message : Text) : Entry :=
  ⟨kind, "Line " ++ Text.ofNat (index + 1) ++ ": " ++ message⟩

section Step

variable (settings : Settings) {context : Context} (index : Nat) (line : Text)

theorem definition_eq (context : Context) :
    definition context index line =
      ({ context with table := (context.table.defineLine line).2 },
        { events :=
            match Shortcuts.readDefinition? line with
            | none => [reportLine .warning index "ignoring malformed macro definition"]
            | some (name, replacement) => [.defined name replacement,
                report .info ("Defined macro " ++ name ++ " -> " ++ replacement)] }) := by
  unfold definition ShortcutTable.defineLine
  cases Shortcuts.readDefinition? line <;> rfl

/-- A line of content under a current table. -/
theorem content_eq (h : context.table.Current) :
    content settings context index line =
      ({ context with table := (context.table.expand line).2 },
        formula settings context index line (context.shortcuts.expand line)) := by
  unfold content
  simp only [h.expand_eq]
  rfl

/-- **The table stays current** behind a line of any role. -/
theorem current_step (h : context.table.Current) :
    (step settings context index line).1.table.Current := by
  rw [step_eq]
  cases roleOf line with
  | definition =>
    rw [definition_eq]
    exact h.defineLine _
  | content =>
    rw [content_eq settings index _ h]
    exact h.expand _
  | _ => exact h

/-- The blocks that are open behind a line. -/
theorem step_scopes (context : Context) :
    (step settings context index line).1.scopes =
      match roleOf line with
      | .heading found => context.scopes.enter found
      | .close => context.scopes.leave
      | _ => context.scopes := by
  rw [step_eq]
  cases roleOf line with
  | definition => rw [definition_eq]
  | _ => rfl

/-- The shortcuts behind a line are those of the definitions up to there. -/
theorem step_shortcuts (h : context.table.Current) :
    (step settings context index line).1.shortcuts = shortcutsBehind context.shortcuts line := by
  rw [step_eq, shortcutsBehind]
  cases roleOf line with
  | definition =>
    rw [definition_eq]
    exact ShortcutTable.shortcuts_defineLine context.table _
  | content =>
    rw [content_eq settings index _ h]
    exact ShortcutTable.shortcuts_expand context.table _
  | _ => rfl

/-- Events that are neither entries nor failures. -/
def Silent (events : List Event) : Prop :=
  ∀ event ∈ events, event.entry? = none ∧ ∀ number, event ≠ .failed number

theorem silent_kept (arguments : List Text) : Silent (arguments.map Event.kept) := by
  intro event hevent
  obtain ⟨argument, -, rfl⟩ := List.mem_map.mp hevent
  exact ⟨rfl, fun number => Event.noConfusion⟩

theorem Silent.append {a b : List Event} (ha : Silent a) (hb : Silent b) : Silent (a ++ b) :=
  fun event hevent => (List.mem_append.mp hevent).elim (ha event) (hb event)

theorem Silent.entries {events : List Event} (h : Silent events) :
    events.filterMap Event.entry? = [] :=
  List.filterMap_eq_nil_iff.mpr fun event hevent => (h event hevent).1

theorem Silent.not_mem {events : List Event} (h : Silent events) (number : Nat) :
    .failed number ∉ events := fun hmem => (h _ hmem).2 number rfl

/-- **What a line of content gives** is what compiling it gives, behind silent events. -/
theorem formula_eq (settings : Settings) (context : Context) (index : Nat) (line expanded : Text) :
    ∃ passed, Silent passed ∧
      formula settings context index line expanded =
        match Expression.compile settings expanded with
        | .error fault => (failure context index line fault).behind passed
        | .ok (latex, unresolved) =>
          { lines := [lineAt index (context.scopes.indent ++ latex)]
            events := passed ++ if unresolved then
              [reportLine .warning index "unresolved placeholders remain"] else [] } := by
  simp only [formula, Expression.compile]
  obtain ⟨kept, resolution⟩ := Expression.run settings expanded
  have hkept := silent_kept kept
  cases resolution with
  | error fault => exact ⟨_, hkept, rfl⟩
  | ok resolution =>
    have hleft : Silent (if resolution.unresolved then
        [.markersLeft resolution.passes resolution.latex] else []) := by
      intro event hevent
      split at hevent
      · obtain rfl := List.mem_singleton.mp hevent
        exact ⟨rfl, fun number => Event.noConfusion⟩
      · cases hevent
    refine ⟨_, hkept.append hleft, ?_⟩
    simp only [bind, Except.bind]
    cases Expression.latexOf resolution <;> rfl

/-- The lines that a line gives. -/
theorem step_lines (h : context.table.Current) :
    (step settings context index line).2.lines =
      match roleOf line with
      | .ignored | .definition => []
      | .heading found =>
        (if index = 0 then [] else [spacerAt index context.scopes.spacer]) ++
          [lineAt index (context.scopes.headingLatex found)]
      | .close => [lineAt index Scopes.closeSpacer]
      | .unreadable _ | .content =>
        [lineAt index (context.scopes.indent ++ bodyOf settings context.shortcuts line)] := by
  rw [step_eq]
  cases hrole : roleOf line with
  | ignored => rfl
  | definition => rw [definition_eq]
  | heading found =>
    simp only [heading]
    by_cases hindex : index = 0
    · rw [if_pos hindex, if_pos hindex]
      rfl
    · rw [if_neg hindex, if_neg hindex]
      rfl
  | unreadable fault =>
    simp only [bodyOf, hrole]
    rfl
  | close => rfl
  | content =>
    obtain ⟨passed, -, hformula⟩ := formula_eq settings context index (Text.trim line)
      (context.shortcuts.expand (Text.trim line))
    simp only [content_eq settings index _ h, bodyOf, hrole, hformula]
    cases Expression.compile settings (context.shortcuts.expand (Text.trim line)) <;> rfl

/-- The entries that a line gives. -/
theorem step_entries (h : context.table.Current) :
    (step settings context index line).2.entries =
      match roleOf line with
      | .definition =>
        match Shortcuts.readDefinition? (Text.trim line) with
        | none => [entryAt .warning index "ignoring malformed macro definition"]
        | some (name, replacement) =>
          [⟨.info, "Defined macro " ++ name ++ " -> " ++ replacement⟩]
      | .unreadable fault => [entryAt .error index fault.message]
      | .content =>
        match Expression.compile settings (context.shortcuts.expand (Text.trim line)) with
        | .error fault => [entryAt .error index fault.message]
        | .ok (_, unresolved) =>
          if unresolved then [entryAt .warning index "unresolved placeholders remain"] else []
      | .ignored | .heading _ | .close => [] := by
  rw [step_eq]
  cases roleOf line with
  | definition =>
    rw [definition_eq]
    cases Shortcuts.readDefinition? (Text.trim line) <;> rfl
  | content =>
    obtain ⟨passed, hpassed, hformula⟩ := formula_eq settings context index (Text.trim line)
      (context.shortcuts.expand (Text.trim line))
    simp only [content_eq settings index _ h, hformula, Output.entries]
    rcases Expression.compile settings (context.shortcuts.expand (Text.trim line)) with
      fault | ⟨latex, unresolved⟩
    · simp only [Output.behind, List.filterMap_append, hpassed.entries]
      rfl
    · simp only [List.filterMap_append, hpassed.entries]
      cases unresolved <;> rfl
  | _ => rfl

theorem lineNumber_of_mem_step (hcurrent : context.table.Current) {found : OutputLine}
    (h : found ∈ (step settings context index line).2.lines) :
    found.lineNumber = index + 1 := by
  rw [step_lines settings index line hcurrent] at h
  cases hrole : roleOf line <;> simp only [hrole] at h
  case ignored | definition => cases h
  case heading =>
    rcases List.mem_append.mp h with h | h
    · by_cases hindex : index = 0
      · rw [if_pos hindex] at h
        cases h
      · rw [if_neg hindex, List.mem_singleton] at h
        rw [h]
        rfl
    · rw [List.mem_singleton.mp h]
      rfl
  all_goals
    rw [List.mem_singleton.mp h]
    rfl

end Step

/-! ## All lines -/

/-- The context in front of the line at `index`. -/
def contextAt (settings : Settings) (sources : List Text) (index : Nat) : Context :=
  (run settings (start settings) 0 (sources.take index)).1

/-- What a line gives at its place. -/
def outputAt (settings : Settings) (sources : List Text) (line : Text × Nat) : Output :=
  (step settings (contextAt settings sources line.2) line.2 line.1).2

theorem run_cons (settings : Settings) (context : Context) (index : Nat) (line : Text)
    (lines : List Text) :
    run settings context index (line :: lines) =
      let first := step settings context index line
      let rest := run settings first.1 (index + 1) lines
      (rest.1, first.2 :: rest.2) := rfl

theorem run_concat (settings : Settings) (context : Context) (index : Nat) (lines : List Text)
    (line : Text) :
    run settings context index (lines ++ [line]) =
      let before := run settings context index lines
      let last := step settings before.1 (index + lines.length) line
      (last.1, before.2 ++ [last.2]) := by
  induction lines generalizing context index with
  | nil => rfl
  | cons first lines ih =>
    simp only [List.cons_append, run_cons, ih, List.length_cons, Nat.add_right_comm, Nat.add_assoc]

section Run

variable (settings : Settings) {sources : List Text} {index : Nat} {line : Text}

theorem length_take_of_getElem? (h : sources[index]? = some line) :
    (sources.take index).length = index :=
  List.length_take_of_le (Nat.le_of_lt (List.getElem?_eq_some_iff.mp h).1)

theorem contextAt_succ (h : sources[index]? = some line) :
    contextAt settings sources (index + 1) =
      (step settings (contextAt settings sources index) index line).1 := by
  rw [contextAt, List.take_add_one, h, Option.toList_some, run_concat,
    length_take_of_getElem? h, Nat.zero_add]
  rfl

theorem current_run {context : Context} (h : context.table.Current) (index : Nat)
    (lines : List Text) : (run settings context index lines).1.table.Current := by
  induction lines generalizing context index with
  | nil => exact h
  | cons line lines ih => exact ih (current_step settings index line h) (index + 1)

/-- **In front of every line the table is current.** -/
theorem current_contextAt (sources : List Text) (index : Nat) :
    (contextAt settings sources index).table.Current :=
  current_run settings (ShortcutTable.current_of_forgotten rfl) 0 _

/-- Later lines make no difference. -/
theorem contextAt_append (h : index ≤ sources.length) (more : List Text) :
    contextAt settings (sources ++ more) index = contextAt settings sources index := by
  rw [contextAt, List.take_append_of_le_length h]
  rfl

/-- **A run, line by line.** -/
theorem run_eq (sources : List Text) :
    run settings (start settings) 0 sources =
      (contextAt settings sources sources.length,
        sources.zipIdx.map (outputAt settings sources)) := by
  have houtputs : (run settings (start settings) 0 sources).2 =
      sources.zipIdx.map (outputAt settings sources) := by
    induction sources using List.reverseRecOn with
    | nil => rfl
    | append_singleton sources line ih =>
      -- The last line changes nothing in front of it, and sees what the others leave.
      have hbefore : sources.zipIdx.map (outputAt settings (sources ++ [line])) =
          sources.zipIdx.map (outputAt settings sources) := by
        refine List.map_congr_left fun p hp => ?_
        have hlt := List.snd_lt_of_mem_zipIdx hp
        rw [outputAt, outputAt, contextAt_append settings (by omega)]
      have hlast : contextAt settings (sources ++ [line]) sources.length =
          (run settings (start settings) 0 sources).1 := by
        rw [contextAt, List.take_left]
      rw [List.zipIdx_append, List.map_append, hbefore, ← ih, run_concat]
      simp [outputAt, hlast]
  refine Prod.ext ?_ houtputs
  rw [contextAt, List.take_length]

end Run

/-! ## The result -/

/-- The entry about blocks that are left open. -/
def leftOpen (depth : Nat) : Entry :=
  ⟨.warning, Text.ofNat depth ++ " block(s) left open at end of document"⟩

section Compile

variable (settings : Settings) (source : Text)

/-- How many blocks are open behind the last line. -/
def finalDepth : Nat :=
  (contextAt settings (sourceLines source) (sourceLines source).length).scopes.depth

theorem lines_compile :
    (compile settings source).lines = (sourceLines source).zipIdx.flatMap fun line =>
      (outputAt settings (sourceLines source) line).lines := by
  simp only [compile, run_eq, List.flatMap_map]

theorem entries_compile :
    (compile settings source).entries =
      ⟨.info, "Compiling " ++ Text.ofNat (sourceLines source).length ++ " lines"⟩ ::
        (sourceLines source).zipIdx.flatMap
          (fun line => (outputAt settings (sourceLines source) line).entries) ++
        (if finalDepth settings source = 0 then [] else [leftOpen (finalDepth settings source)]) ++
        [⟨.success, "Compiled " ++ Text.ofNat (compile settings source).lines.length
          ++ " output lines"⟩] := by
  have houtputs : ((sourceLines source).zipIdx.flatMap fun line =>
      (outputAt settings (sourceLines source) line).events).filterMap Event.entry? =
        (sourceLines source).zipIdx.flatMap fun line =>
          (outputAt settings (sourceLines source) line).entries := List.filterMap_flatMap
  have hopened : ∀ depth : Nat, List.filterMap Event.entry? (if depth = 0 then [] else
      [report .warning (Text.ofNat depth ++ " block(s) left open at end of document")]) =
        if depth = 0 then [] else [leftOpen depth] := by
    intro depth
    split <;> rfl
  rw [lines_compile]
  simp only [Compilation.entries, compile, run_eq, List.flatMap_map, List.filterMap_append,
    List.filterMap_cons, houtputs, hopened]
  rfl

end Compile

/-- What comes from the line at `index`. -/
def linesOf (compilation : Compilation) (index : Nat) : List OutputLine :=
  compilation.lines.filter fun found => found.lineNumber = (index : Int) + 1

theorem zipIdx_eq {sources : List Text} {line : Text} {index : Nat}
    (h : sources[index]? = some line) :
    sources.zipIdx = (sources.take index).zipIdx ++
      (line, index) :: (sources.drop (index + 1)).zipIdx (index + 1) := by
  conv => lhs; rw [eq_take_cons_drop h]
  rw [List.zipIdx_append, List.zipIdx_cons, length_take_of_getElem? h, Nat.zero_add]

theorem filter_flatMap_of_ne {f : Text × Nat → List OutputLine} {places : List (Text × Nat)}
    {index : Nat} (hf : ∀ p, ∀ found ∈ f p, found.lineNumber = p.2 + 1)
    (h : ∀ p ∈ places, p.2 ≠ index) :
    (places.flatMap f).filter (fun found => found.lineNumber = (index : Int) + 1) = [] := by
  refine List.filter_eq_nil_iff.mpr fun found hfound => ?_
  obtain ⟨p, hp, hfound⟩ := List.mem_flatMap.mp hfound
  have hnumber := hf p found hfound
  have hne := h p hp
  simp only [decide_eq_true_eq]
  omega

/-- **What comes from a line is what it gives at its place.** -/
theorem linesOf_compile (settings : Settings) {source line : Text} {index : Nat}
    (h : (sourceLines source)[index]? = some line) :
    linesOf (compile settings source) index =
      (outputAt settings (sourceLines source) (line, index)).lines := by
  have hf : ∀ p, ∀ found ∈ (outputAt settings (sourceLines source) p).lines,
      found.lineNumber = p.2 + 1 := fun p _ =>
    lineNumber_of_mem_step settings p.2 p.1 (current_contextAt settings _ p.2)
  have hfront : ∀ p ∈ ((sourceLines source).take index).zipIdx, p.2 ≠ index := by
    intro p hp
    have := List.snd_lt_of_mem_zipIdx hp
    rw [length_take_of_getElem? h] at this
    omega
  have hback : ∀ p ∈ ((sourceLines source).drop (index + 1)).zipIdx (index + 1), p.2 ≠ index := by
    intro p hp
    have := List.le_snd_of_mem_zipIdx hp
    omega
  have hline : (outputAt settings (sourceLines source) (line, index)).lines.filter
      (fun found => found.lineNumber = (index : Int) + 1) =
        (outputAt settings (sourceLines source) (line, index)).lines :=
    List.filter_eq_self.mpr fun found hfound => by simp [hf _ found hfound]
  rw [linesOf, lines_compile, zipIdx_eq h, List.flatMap_append, List.flatMap_cons,
    List.filter_append, List.filter_append, filter_flatMap_of_ne hf hfront,
    filter_flatMap_of_ne hf hback, hline, List.append_nil, List.nil_append]

end Document

end MathNotes
