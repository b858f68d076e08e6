import MathNotes.Proofs.LineByLine
import MathNotes.Proofs.Marked
import Mathlib.Data.Finset.Lattice.Fold

/-!
# The depth of blocks

A heading opens a block and a closing brace ends one, but a surplus closing brace ends nothing.  The
number of open blocks is therefore no difference of two counts: it is the `balance` of headings and
closing braces, less the `lowest` balance that there has been (`depth_contextAt`).

The depth is all that a line sees of the blocks around it: it is indented once for each, and the
gap above a heading and its size are those of its depth (`compile_depth`).
-/

namespace MathNotes

namespace Document

/-! ## The balance -/

/-- Whether lines of a role open a block. -/
def Role.opens : Role → Bool
  | .heading _ => true
  | _ => false

/-- Whether lines of a role end a block. -/
def Role.closes : Role → Bool
  | .close => true
  | _ => false

/-- How many more headings than closing braces there are among the first lines. -/
def balance (sources : List Text) (count : Nat) : Int :=
  (sources.take count).countP (fun line => (roleOf line).opens) -
    (sources.take count).countP (fun line => (roleOf line).closes)

/-- The least balance up to a place. -/
def lowest (sources : List Text) (count : Nat) : Int :=
  (Finset.range (count + 1)).inf' Finset.nonempty_range_add_one (balance sources)

section Balance

variable {sources : List Text} {index : Nat} {line : Text}

theorem balance_succ (h : sources[index]? = some line) :
    balance sources (index + 1) = balance sources index +
      ((if (roleOf line).opens then 1 else 0) - if (roleOf line).closes then 1 else 0) := by
  unfold balance
  rw [List.take_add_one, h, Option.toList_some, List.countP_append, List.countP_append,
    List.countP_singleton, List.countP_singleton]
  split <;> split <;> omega

theorem lowest_zero (sources : List Text) : lowest sources 0 = balance sources 0 := by
  simp [lowest]

theorem lowest_succ (sources : List Text) (index : Nat) :
    lowest sources (index + 1) = min (balance sources (index + 1)) (lowest sources index) := by
  unfold lowest
  simp only [Finset.range_add_one (n := index + 1)]
  exact Finset.inf'_insert _ _

end Balance

/-! ## The depth -/

section Depth

variable (settings : Settings) {sources : List Text} {index : Nat} {line : Text}

/-- What a line does to the depth. A closing brace outside of all blocks does nothing. -/
theorem depth_succ (h : sources[index]? = some line) :
    (contextAt settings sources (index + 1)).scopes.depth =
      (contextAt settings sources index).scopes.depth +
        (if (roleOf line).opens then 1 else 0) - if (roleOf line).closes then 1 else 0 := by
  rw [contextAt_succ settings h, step_scopes]
  cases roleOf line with
  | close => exact List.length_tail
  | _ => rfl

/-- **The depth is the balance less the lowest balance.** -/
theorem depth_contextAt (h : index ≤ sources.length) :
    ((contextAt settings sources index).scopes.depth : Int) =
      balance sources index - lowest sources index := by
  induction index with
  | zero =>
    rw [lowest_zero, Int.sub_self]
    rfl
  | succ index ih =>
    have hline : sources[index]? = some sources[index] := List.getElem?_eq_getElem h
    have hdepth := depth_succ settings hline
    have hbalance := balance_succ hline
    have hlowest := lowest_succ sources index
    have hbefore := ih (Nat.le_of_succ_le h)
    -- A closing brace reaches a new lowest balance at depth zero only, and there the depth stays.
    by_cases hopens : (roleOf sources[index]).opens = true <;>
      by_cases hcloses : (roleOf sources[index]).closes = true <;>
        simp only [hopens, hcloses, if_true, if_false, Bool.false_eq_true] at hdepth hbalance <;>
          omega

theorem indentUnit_contextAt (h : index ≤ sources.length) :
    (contextAt settings sources index).scopes.indentUnit = settings.indent := by
  induction index with
  | zero => rfl
  | succ index ih =>
    rw [contextAt_succ settings (List.getElem?_eq_getElem h), step_scopes,
      ← ih (Nat.le_of_succ_le h)]
    cases roleOf sources[index] <;> rfl

end Depth

/-! ## Lines outside of blocks -/

/-- The context with all blocks ended. -/
def Context.outside (context : Context) : Context :=
  { context with scopes := { context.scopes with opened := [] } }

/-- The lines of a heading, with what its line is indented by, the gap above it, its size, and what
stands behind the size command. -/
def headingLines (index : Nat) (indent gap size rest : Text) : List OutputLine :=
  (if index = 0 then [] else [spacerAt index ("\\phantom\x7b.\x7d \\\\[" ++ gap ++ "]")]) ++
    [lineAt index (indent ++ ("\x7b\\" ++ size ++ " " ++ rest))]

/-- The gap above a heading and its size, by the number of blocks around it; three and more are the
same. -/
def gapsAndSizes : List (Text × Text) :=
  [("1.5em", "huge"), ("1em", "Large"), ("0.5em", "large"), ("0.2em", "normalsize")]

theorem gapsAndSizes_tier (depth : Nat) :
    gapsAndSizes[min depth 3]? = some (Scopes.tier depth) := by
  rcases depth with _ | _ | _ | depth
  · rfl
  · rfl
  · rfl
  · rw [Nat.min_eq_right (Nat.le_add_left 3 depth)]
    rfl

theorem spacer_eq (scopes : Scopes) :
    scopes.spacer = "\\phantom\x7b.\x7d \\\\[" ++ (Scopes.tier scopes.depth).1 ++ "]" := by
  have hlead : "\\phantom\x7b.\x7d \\\\[".toList =
      "\\phantom\x7b.\x7d ".toList ++ "\\\\[".toList := by decide
  rw [hlead]
  unfold Scopes.spacer Scopes.lineBreak
  simp only [List.append_assoc]

/-- The blocks around a heading decide what stands up to its size command, and nothing else. -/
theorem exists_headingLatex (found : Heading) :
    ∃ rest, ∀ scopes : Scopes, scopes.headingLatex found =
      scopes.indent ++ ("\x7b\\" ++ (Scopes.tier scopes.depth).2 ++ " " ++ rest) := by
  refine ⟨Latex.command (if found.italic then "textit" else "textbf") [Latex.prose found.label] ++
    ['}'], fun scopes => ?_⟩
  simp only [Scopes.headingLatex, Latex.braced, List.append_assoc, List.cons_append]
  rfl

section Outside

variable (settings : Settings) {context : Context} (hcurrent : context.table.Current) (index : Nat)
  {line : Text}
include hcurrent

/-- A line of content is indented once for each block around it. -/
theorem exists_lines_content
    (h : roleOf line = .content ∨ ∃ fault, roleOf line = .unreadable fault) :
    ∃ latex, (step settings context.outside index line).2.lines = [lineAt index latex] ∧
      (step settings context index line).2.lines =
        [lineAt index (Text.copies context.scopes.depth context.scopes.indentUnit ++ latex)] := by
  have hlines : ∀ context : Context, context.table.Current →
      (step settings context index line).2.lines =
        [lineAt index (context.scopes.indent ++ bodyOf settings context.shortcuts line)] := by
    intro context hcurrent
    rcases h with h | ⟨fault, h⟩ <;> rw [step_lines settings index line hcurrent, h]
  exact ⟨bodyOf settings context.shortcuts line, hlines context.outside hcurrent,
    hlines context hcurrent⟩

/-- A heading is indented once for each block around it, and their number gives the gap above it and
its size. -/
theorem exists_lines_heading (h : (roleOf line).opens = true) :
    ∃ gap size rest, gapsAndSizes[min context.scopes.depth 3]? = some (gap, size) ∧
      (step settings context.outside index line).2.lines =
        headingLines index [] "1.5em" "huge" rest ∧
      (step settings context index line).2.lines =
        headingLines index (Text.copies context.scopes.depth context.scopes.indentUnit) gap size
          rest := by
  cases hrole : roleOf line with
  | heading found =>
    obtain ⟨rest, hlatex⟩ := exists_headingLatex found
    have hlines : ∀ context : Context, context.table.Current →
        (step settings context index line).2.lines =
          headingLines index context.scopes.indent (Scopes.tier context.scopes.depth).1
            (Scopes.tier context.scopes.depth).2 rest := by
      intro context hcurrent
      rw [step_lines settings index line hcurrent, hrole]
      simp only [hlatex, spacer_eq, headingLines]
    exact ⟨_, _, rest, gapsAndSizes_tier _, hlines context.outside hcurrent,
      hlines context hcurrent⟩
  | _ =>
    rw [hrole] at h
    cases h

end Outside

/-! ## Blocks that are left open -/

theorem leftOpen_injective {m n : Nat} (h : leftOpen m = leftOpen n) : m = n := by
  have hmessage : (leftOpen m).message = (leftOpen n).message := congrArg Entry.message h
  exact Text.ofNat_injective (List.append_cancel_right hmessage)

/-- An entry about a line is none about open blocks: that one starts with a digit. -/
theorem leftOpen_not_mem_entryAt (depth : Nat) (kind : EntryKind) (index : Nat) (message : Text) :
    leftOpen depth ∉ [entryAt kind index message] := by
  intro h
  replace h := List.mem_singleton.mp h
  have hmessage : Text.ofNat depth ++ " block(s) left open at end of document" =
      'L' :: ("ine " ++ Text.ofNat (index + 1) ++ ": " ++ message) := congrArg Entry.message h
  rcases List.append_eq_cons_iff.mp hmessage with ⟨hnil, -⟩ | ⟨digits, hdigits, -⟩
  · exact Marker.textOfNat_ne_nil depth hnil
  · have hdigit : 'L' ∈ Text.ofNat depth := hdigits ▸ List.mem_cons_self
    exact absurd (Marker.digit_of_mem_ofNat hdigit) (by decide)

theorem leftOpen_not_mem_step (settings : Settings) {context : Context}
    (h : context.table.Current) (index : Nat) (line : Text) (depth : Nat) :
    leftOpen depth ∉ (step settings context index line).2.entries := by
  rw [step_entries settings index line h]
  cases roleOf line with
  | definition =>
    cases Shortcuts.readDefinition? (Text.trim line) with
    | none => exact leftOpen_not_mem_entryAt depth _ index _
    | some found => exact fun h => nomatch List.mem_singleton.mp h
  | content =>
    cases Expression.compile settings (context.shortcuts.expand (Text.trim line)) with
    | error fault => exact leftOpen_not_mem_entryAt depth _ index _
    | ok compiled =>
      obtain ⟨latex, unresolved⟩ := compiled
      cases unresolved with
      | false => exact List.not_mem_nil
      | true => exact leftOpen_not_mem_entryAt depth _ index _
  | unreadable fault => exact leftOpen_not_mem_entryAt depth _ index _
  | _ => exact List.not_mem_nil

/-- **The entry about open blocks** is there exactly if blocks are open, with their number. -/
theorem leftOpen_mem_entries {settings : Settings} {source : Text} {count : Nat} :
    leftOpen count ∈ (compile settings source).entries ↔
      0 < count ∧ count = finalDepth settings source := by
  have hlines : leftOpen count ∉ (sourceLines source).zipIdx.flatMap fun line =>
      (outputAt settings (sourceLines source) line).entries := by
    intro h
    obtain ⟨line, -, h⟩ := List.mem_flatMap.mp h
    exact leftOpen_not_mem_step settings (current_contextAt settings _ _) _ _ _ h
  have hopened : ∀ depth, leftOpen count ∈ (if depth = 0 then [] else [leftOpen depth]) ↔
      0 < count ∧ count = depth := by
    intro depth
    split
    · simp only [List.not_mem_nil, false_iff]
      omega
    · rw [List.mem_singleton]
      refine ⟨fun h => ?_, fun h => h.2 ▸ rfl⟩
      have := leftOpen_injective h
      omega
  rw [entries_compile, List.mem_append, List.mem_append, List.mem_cons, hopened]
  simp only [hlines, or_false]
  constructor
  · rintro ((h | h) | h)
    · cases h
    · exact h
    · cases List.mem_singleton.mp h
  · exact fun h => .inl (.inr h)

/-- Only the closing entry stands behind it. -/
theorem getLast?_dropLast_entries {settings : Settings} {source : Text}
    (h : 0 < finalDepth settings source) :
    (compile settings source).entries.dropLast.getLast? =
      some (leftOpen (finalDepth settings source)) := by
  rw [entries_compile, List.dropLast_concat, if_neg (by omega), List.getLast?_concat]

/-! ## The law -/

/-- **The depth law.** The number of blocks around a line is the balance of headings and closing
braces in front of it, less the lowest balance up to there.  Its LaTeX is indented that many times,
and is for the rest what the line gives outside of all blocks; the gap above a heading and its size
are those of that number, which no number above three changes.  What is left open at the end is
reported exactly if there is something, as the last entry but one. -/
theorem compile_depth (settings : Settings) (source : Text) :
    let sources := sourceLines source
    let result := compile settings source
    let depth := fun index => (balance sources index - lowest sources index).toNat
    (∀ index ≤ sources.length, ((contextAt settings sources index).scopes.depth : Int) =
      balance sources index - lowest sources index) ∧
    (∀ index line, sources[index]? = some line →
      let context := (contextAt settings sources index).outside
      ((roleOf line = .content ∨ ∃ fault, roleOf line = .unreadable fault) →
        ∃ latex, (step settings context index line).2.lines = [lineAt index latex] ∧
          linesOf result index =
            [lineAt index (Text.copies (depth index) settings.indent ++ latex)]) ∧
      ((roleOf line).opens = true →
        ∃ gap size rest,
          ([("1.5em", "huge"), ("1em", "Large"), ("0.5em", "large"), ("0.2em", "normalsize")] :
            List (Text × Text))[min (depth index) 3]? = some (gap, size) ∧
          (step settings context index line).2.lines =
            headingLines index [] "1.5em" "huge" rest ∧
          linesOf result index =
            headingLines index (Text.copies (depth index) settings.indent) gap size rest)) ∧
    (∀ count, leftOpen count ∈ result.entries ↔ 0 < count ∧ count = depth sources.length) ∧
    (0 < depth sources.length →
      result.entries.dropLast.getLast? = some (leftOpen (depth sources.length))) := by
  intro sources result depth
  have hlaw : ∀ index ≤ sources.length, ((contextAt settings sources index).scopes.depth : Int) =
      balance sources index - lowest sources index := fun index h => depth_contextAt settings h
  have hdepth : ∀ index ≤ sources.length,
      (contextAt settings sources index).scopes.depth = depth index := by
    intro index h
    have := hlaw index h
    simp only [depth]
    omega
  have hfinal : finalDepth settings source = depth sources.length := hdepth _ (Nat.le_refl _)
  refine ⟨hlaw, fun index line hline => ?_, fun count => ?_, fun h => ?_⟩
  · have hindex : index ≤ sources.length := Nat.le_of_lt (List.getElem?_eq_some_iff.mp hline).1
    intro context
    rw [linesOf_compile settings hline, ← hdepth index hindex,
      ← indentUnit_contextAt settings hindex]
    have hcurrent := current_contextAt settings sources index
    exact ⟨exists_lines_content settings hcurrent index,
      exists_lines_heading settings hcurrent index⟩
  · rw [← hfinal]
    exact leftOpen_mem_entries
  · rw [← hfinal] at h ⊢
    exact getLast?_dropLast_entries h

/-- A surplus closing brace does not count against the blocks that are opened behind it. -/
theorem compile_depth_surplus :
    let source : Text := "\x7d\nLemma A \x7b\nx\nProof \x7b"
    let result := compile {} source
    balance (sourceLines source) 4 = 1 ∧ lowest (sourceLines source) 4 = -1 ∧
      (∃ latex, linesOf result 2 = [⟨"line-2", "\\quad " ++ latex, 3⟩]) ∧
      (∃ rest, linesOf result 3 = [⟨"spacer-3", "\\phantom\x7b.\x7d \\\\[1em]", 4⟩,
        ⟨"line-3", "\\quad \x7b\\Large " ++ rest, 4⟩]) ∧
      result.entries.dropLast.getLast? = some (leftOpen 2) := by
  intro source result
  obtain ⟨-, hlines, -, hlast⟩ := compile_depth {} source
  obtain ⟨latex, -, hcontent⟩ := (hlines 2 "x" (by decide)).1 (.inl (by decide))
  obtain ⟨gap, size, rest, htier, -, hheading⟩ :=
    (hlines 3 "Proof \x7b" (by decide)).2 (by decide)
  cases htier
  exact ⟨by decide, by decide, ⟨latex, hcontent⟩, ⟨rest, hheading⟩, hlast (by decide)⟩

end Document

end MathNotes
