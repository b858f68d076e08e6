import MathNotes.Page.Line
import MathNotes.Proofs.BlockDepth
import MathNotes.Proofs.ControlWords
import MathNotes.Proofs.Visibility
import MathNotes.Proofs.WrittenOut

/-!
# The kinds of lines

A page tells its lines apart by their LaTeX, and that agrees with what the source lines are
(`Document.compile_kinds`): a heading is found by its size command, which no formula has
(`LineKind.startsHeader_of_spelt`); the end of a block by two backslashes in a row; and a line of
content is never blank.  So the formulas are numbered in the order of their source lines.
-/

namespace MathNotes

/-! ## Indentation -/

theorem Text.copies_succ (count : Nat) (unit : Text) :
    copies (count + 1) unit = unit ++ copies count unit := rfl

namespace LineKind

/-- The steps that are left do not matter, if they are enough. -/
theorem go_congr {latex : Text} {budget budget' : Nat} (h : latex.length ≤ budget)
    (h' : latex.length ≤ budget') : unindented.go latex budget = unindented.go latex budget' := by
  induction budget generalizing latex budget' with
  | zero =>
    obtain rfl := List.length_eq_zero_iff.mp (Nat.le_zero.mp h)
    cases budget' <;> rfl
  | succ budget ih =>
    cases budget' with
    | zero =>
      obtain rfl := List.length_eq_zero_iff.mp (Nat.le_zero.mp h')
      rfl
    | succ budget' =>
      rw [unindented.go, unindented.go]
      cases hrest : "\\quad ".toList.isPrefixOf? latex with
      | none => rfl
      | some rest =>
        have hlength := congrArg List.length (isPrefixOf?_eq_some_iff.mp hrest)
        rw [List.length_append, show "\\quad ".toList.length = 6 from rfl] at hlength
        exact ih (by omega) (by omega)

theorem unindented_step (latex : Text) :
    unindented ("\\quad ".toList ++ latex) = unindented latex := by
  rw [unindented, List.length_append, show "\\quad ".toList.length = 5 + 1 from rfl,
    Nat.add_right_comm, unindented.go, isPrefixOf?_append]
  exact go_congr (by omega) (Nat.le_refl _)

/-- Indentation does not count. -/
theorem unindented_copies (count : Nat) (latex : Text) :
    unindented (Text.copies count "\\quad ".toList ++ latex) = unindented latex := by
  induction count with
  | zero => rfl
  | succ count ih =>
    rw [Text.copies_succ, List.append_assoc, unindented_step, ih]

theorem exists_go_eq (latex : Text) (budget : Nat) :
    ∃ count, latex = Text.copies count "\\quad ".toList ++ unindented.go latex budget := by
  induction budget generalizing latex with
  | zero => exact ⟨0, rfl⟩
  | succ budget ih =>
    rw [unindented.go]
    split
    · rename_i rest hrest
      obtain ⟨count, hcount⟩ := ih rest
      refine ⟨count + 1, ?_⟩
      rw [isPrefixOf?_eq_some_iff.mp hrest, Text.copies_succ, List.append_assoc, ← hcount]
    · exact ⟨0, rfl⟩

/-- What is taken away is indentation. -/
theorem exists_unindented_eq (latex : Text) :
    ∃ count, latex = Text.copies count "\\quad ".toList ++ unindented latex :=
  exists_go_eq latex latex.length

theorem unindented_of_ne {latex : Text} (h : "\\quad ".toList.isPrefixOf? latex = none) :
    unindented latex = latex := by
  rw [unindented]
  cases latex.length with
  | zero => rfl
  | succ budget => rw [unindented.go, h]

/-! ## Formulas and headings -/

/-- Headings start with a brace and a size command. -/
theorem headerLeads_spec : ∀ lead ∈ headerLeads, ∃ size ∈ ["huge", "Large", "large", "normalsize"],
    "\x7b\\".toList ++ (size.toList ++ [' ']) <+: lead := by decide

/-- A line starts like a heading if only steps of indentation stand in front of the heading. -/
theorem startsHeader_iff {latex : Text} :
    startsHeader latex = true ↔
      ∃ count, ∃ lead ∈ headerLeads, Text.copies count "\\quad ".toList ++ lead <+: latex := by
  rw [startsHeader, List.any_eq_true]
  constructor
  · rintro ⟨lead, hlead, hstarts⟩
    obtain ⟨count, hlatex⟩ := exists_unindented_eq latex
    refine ⟨count, lead, hlead, ?_⟩
    rw [hlatex]
    exact (List.prefix_append_right_inj _).mpr (List.isPrefixOf_iff_prefix.mp hstarts)
  · rintro ⟨count, lead, hlead, rest, rfl⟩
    have hbrace : ∀ lead ∈ headerLeads, lead = '{' :: lead.tail := by decide
    have hstep : "\\quad ".toList.isPrefixOf? (lead ++ rest) = none := by
      rw [hbrace lead hlead]
      rfl
    refine ⟨lead, hlead, List.isPrefixOf_iff_prefix.mpr ?_⟩
    rw [List.append_assoc, unindented_copies, unindented_of_ne hstep]
    exact List.prefix_append lead rest

/-- No size command is in the vocabulary of a line. -/
theorem sizes_unlisted : ∀ size ∈ ["huge", "Large", "large", "normalsize"],
    size.toList ≠ [] ∧ (∀ c ∈ size.toList, c.isAlpha = true) ∧ size.toList ∉ listedCommands ∧
      (∀ p ∈ openEnded, ¬ p.2 <+: size.toList) ∧ size.toList ≠ "textbackslash".toList ∧
        size.toList ∉ hostCommands.map List.dropLast := by decide +kernel

/-- **A formula does not start like a heading.** -/
theorem startsHeader_of_spelt {source latex : Text}
    (h : latex.Spelt (Vocabulary.of source).Admits []) :
    startsHeader latex = false := by
  by_contra hheader
  obtain ⟨count, lead, hlead, more, hlatex⟩ := startsHeader_iff.mp (Bool.not_eq_false _ ▸ hheader)
  obtain ⟨size, hsize, name, rfl⟩ := headerLeads_spec lead hlead
  obtain ⟨hne, halpha, hlisted, hopen, hslash, hhosts⟩ := sizes_unlisted size hsize
  -- The size command is a control word of the formula.
  have hword : size.toList ∈ latex.controlWords := by
    refine Text.mem_controlWords_iff.mpr ⟨hne, Text.copies count "\\quad ".toList ++ ['{'],
      size.toList ++ ' ' :: (name ++ more), ?_, ?_⟩
    · rw [← hlatex]
      simp
    · rw [Text.letters_append halpha (Text.halts_cons.mpr (by decide))]
  rcases h.controlWords hword with hmem | ⟨p, hp, -, hlead⟩ | ⟨-, heq | hmem⟩
  · exact hlisted hmem
  · exact hopen p hp hlead
  · exact hslash heq
  · exact hhosts hmem

/-- A formula is not the space behind a block. -/
theorem ne_closeSpacer_of_spelt {source latex : Text}
    (h : latex.Spelt (Vocabulary.of source).Admits []) :
    latex ≠ Scopes.closeSpacer := by
  rintro rfl
  obtain ⟨c, hc, hsign⟩ := (h [] ("\\[0.5em]".toList) rfl).exists_sign
    (Text.halts_cons.mpr (by decide))
  obtain rfl : '\\' = c := by simpa using hc
  rw [Vocabulary.signs_of] at hsign
  exact absurd hsign (by decide)

/-- The kind of a line that is not blank. -/
theorem of_lineAt (index : Nat) {latex : Text} (hclose : latex ≠ Scopes.closeSpacer)
    (hshows : latex.Shows) :
    LineKind.of (Document.lineAt index latex) = if startsHeader latex then header else math := by
  have hid : "spacer-".toList.isPrefixOf (Document.lineAt index latex).id = false := rfl
  have hlatex : (Document.lineAt index latex).latex = latex := rfl
  have hspacer : (latex == Scopes.closeSpacer) = false := by rwa [beq_eq_false_iff_ne]
  have hempty : (Text.trim latex).isEmpty = false := by simpa using hshows.trim_ne_nil
  rw [LineKind.of, hid, hlatex, hspacer, hempty]
  rfl

/-- The kind of a line that is not blank, whatever its indentation. -/
theorem of_indented (index count : Nat) {latex : Text} (hclose : latex ≠ Scopes.closeSpacer)
    (hshows : latex.Shows) :
    LineKind.of (Document.lineAt index (Text.copies count "\\quad ".toList ++ latex)) =
      if startsHeader latex then header else math := by
  have hspacer : Text.copies count "\\quad ".toList ++ latex ≠ Scopes.closeSpacer := by
    cases count with
    | zero => exact hclose
    | succ count =>
      intro heq
      cases (List.cons.inj (List.cons.inj heq).2).1
  rw [of_lineAt index hspacer (hshows.append_left _), startsHeader, unindented_copies, startsHeader]

theorem of_formula (index count : Nat) {source latex : Text}
    (h : latex.Spelt (Vocabulary.of source).Admits []) (hshows : latex.Shows) :
    LineKind.of (Document.lineAt index (Text.copies count "\\quad ".toList ++ latex)) = math := by
  rw [of_indented index count (ne_closeSpacer_of_spelt h) hshows, startsHeader_of_spelt h]
  rfl

theorem of_prose (index count : Nat) (content : Text) :
    LineKind.of (Document.lineAt index (Text.copies count "\\quad ".toList ++
      Latex.prose content)) = math := by
  have hclose : Latex.prose content ≠ Scopes.closeSpacer := by
    intro heq
    cases (List.cons.inj (List.cons.inj heq).2).1
  have hstarts : startsHeader (Latex.prose content) = false := by
    rw [startsHeader, unindented_of_ne rfl]
    rfl
  rw [of_indented index count hclose (Segment.shows_prose content), hstarts]
  rfl

/-- The tier gives the size of a heading, and its style gives the rest. -/
theorem exists_lead_headingLatex (scopes : Scopes) (found : Heading) :
    ∃ lead ∈ headerLeads, ∃ rest, scopes.headingLatex found = scopes.indent ++ (lead ++ rest) := by
  have hleads : ∀ size ∈ (["huge", "Large", "large", "normalsize"] : List Text),
      ∀ style ∈ (["bf", "it"] : List Text),
        "\x7b\\" ++ size ++ " \\text" ++ style ++ "\x7b" ∈ headerLeads := by decide
  have hsize : (Scopes.tier scopes.depth).2 ∈
      (["huge", "Large", "large", "normalsize"] : List Text) := by
    rcases scopes.depth with _ | _ | _ | depth <;> simp [Scopes.tier]
  have hstyle : (if found.italic then "it" else "bf" : Text) ∈ (["bf", "it"] : List Text) := by
    cases found.italic <;> decide
  refine ⟨_, hleads _ hsize _ hstyle, Latex.prose found.label ++ "\x7d\x7d".toList, ?_⟩
  rw [Scopes.headingLatex]
  cases found.italic <;> simp [Latex.braced, Latex.command]

/-- The kind of a heading, behind any indentation. -/
theorem of_headingLatex (index : Nat) (scopes : Scopes) (found : Heading) :
    LineKind.of (Document.lineAt index (scopes.headingLatex found)) =
      if startsHeader (scopes.headingLatex found) then header else math := by
  have hbrace : '{' ∈ scopes.headingLatex found :=
    List.mem_append_right _ List.mem_cons_self
  refine of_lineAt index (fun heq => ?_) ⟨'{', hbrace, by decide⟩
  rw [heq] at hbrace
  exact absurd hbrace (by decide)

/-- A heading is found again, whatever its title is and however deep it stands. -/
theorem of_heading (index : Nat) {scopes : Scopes} (h : scopes.indentUnit = "\\quad ".toList)
    (found : Heading) :
    LineKind.of (Document.lineAt index (scopes.headingLatex found)) = header := by
  obtain ⟨lead, hlead, rest, hheading⟩ := exists_lead_headingLatex scopes found
  have hstarts : startsHeader (scopes.headingLatex found) = true := by
    refine startsHeader_iff.mpr ⟨scopes.depth, lead, hlead, rest, ?_⟩
    rw [hheading, Scopes.indent, h, List.append_assoc]
  rw [of_headingLatex, if_pos hstarts]

end LineKind

/-! ## Numbers -/

/-- The lines of a page are the lines of the result, in their order. -/
theorem numberFrom_lines (count : Nat) (lines : List OutputLine) :
    (numberFrom count lines).map (fun line => (line.id, line.latex, line.kind)) =
      lines.map fun line => (line.id, line.latex, LineKind.of line) := by
  induction lines generalizing count with
  | nil => rfl
  | cons line lines ih =>
    rw [numberFrom]
    split
    · rename_i hmath
      rw [List.map_cons, List.map_cons, ih, hmath]
    · rw [List.map_cons, List.map_cons, ih]

/-- The formulas are numbered one after the other. -/
theorem numberFrom_numbers (count : Nat) (lines : List OutputLine) :
    (numberFrom count lines).filterMap (fun line => line.number.map fun n => (line.id, n)) =
      ((lines.filter fun line => LineKind.of line = .math).map (·.id)).zipIdx (count + 1) := by
  induction lines generalizing count with
  | nil => rfl
  | cons line lines ih =>
    rw [numberFrom]
    split
    · rename_i hmath
      rw [List.filter_cons_of_pos (by simpa using hmath), List.map_cons, List.zipIdx_cons, ← ih]
      rfl
    · rename_i hmath
      rw [List.filter_cons_of_neg (by simpa using hmath), ← ih]
      rfl

/-! ## Documents -/

theorem Text.mem_of_mem_splitOn {separator c : Char} {text piece : Text}
    (h : piece ∈ splitOn separator text) (hc : c ∈ piece) : c ∈ text := by
  induction text generalizing piece with
  | nil =>
    rw [List.mem_singleton.mp h] at hc
    cases hc
  | cons d text ih =>
    rw [splitOn] at h
    split at h
    · rcases List.mem_cons.mp h with rfl | h
      · cases hc
      · exact List.mem_cons_of_mem _ (ih h hc)
    · cases hrest : splitOn separator text with
      | nil => exact absurd hrest (splitOn_ne_nil text)
      | cons first pieces =>
        rw [hrest] at h ih
        rcases List.mem_cons.mp h with rfl | h
        · rcases List.mem_cons.mp hc with rfl | hc
          · exact List.mem_cons_self
          · exact List.mem_cons_of_mem _ (ih List.mem_cons_self hc)
        · exact List.mem_cons_of_mem _ (ih (List.mem_cons_of_mem _ h) hc)

namespace Shortcuts

/-- No replacement holds the character. -/
def Without (c : Char) (shortcuts : Shortcuts) : Prop := ∀ shortcut ∈ shortcuts, c ∉ shortcut.2

variable {shortcuts : Shortcuts} {c : Char}

theorem Without.define (h : shortcuts.Without c) {replacement : Text} (hc : c ∉ replacement)
    (name : Text) : (shortcuts.define name replacement).Without c :=
  forall_mem_define (P := fun shortcut => c ∉ shortcut.2) h hc

theorem Without.defineLine (h : shortcuts.Without c) {line : Text} (hc : c ∉ Text.trim line) :
    (shortcuts.defineLine line).Without c := by
  unfold Shortcuts.defineLine
  cases hread : readDefinition? line with
  | none => exact h
  | some found =>
    exact h.define (fun hmem => hc ((suffix_of_readDefinition? hread).subset hmem)) _

/-- Expanding brings no character into a line that no replacement holds. -/
theorem Without.expand (h : shortcuts.Without c) (hsound : shortcuts.Sound) {line : Text}
    (hline : c ∉ line) : c ∉ shortcuts.expand line := by
  have hmem : Text.Compositional fun a b : Text => c ∈ b → c ∈ a :=
    { refl := fun _ => id
      trans := fun h h' => h ∘ h'
      append := fun h h' hc => List.mem_append.mpr ((List.mem_append.mp hc).imp h h') }
  have hp := recognises_pattern hsound.named
  rw [expand_eq hsound.named]
  refine mt (Pattern.replace_related hmem hp.proper ?_ line) hline
  intro previous matched value after hat hc
  exact absurd hc (h _ (hp.spec hat))

end Shortcuts

namespace Document

/-- Whether a line is shown as a formula: it is content, or looks like a heading that cannot be
read. -/
def Role.isFormula : Role → Bool
  | .unreadable _ | .content => true
  | _ => false

/-- The identifiers and the kinds of the lines that come from a line at its index. -/
def kindsOf (line : Text × Nat) : List (Text × LineKind) :=
  match roleOf line.1 with
  | .ignored | .definition => []
  | .heading _ =>
    if line.2 = 0 then [(lineId line.2, .header)]
    else [(spacerId line.2, .spacer), (lineId line.2, .header)]
  | .close => [(lineId line.2, .spacer)]
  | .unreadable _ | .content => [(lineId line.2, .math)]

theorem not_mem_sourceLines {c : Char} {source line : Text} (h : c ∉ source)
    (hline : line ∈ sourceLines source) : c ∉ line := by
  obtain ⟨piece, hpiece, rfl⟩ := List.mem_map.mp hline
  intro hc
  have hmem := (List.dropWhile_sublist _).subset (List.mem_reverse.mp hc)
  exact h (Text.mem_of_mem_splitOn hpiece (List.mem_reverse.mp hmem))

/-- A context in which lines are indented by the usual step, and no shortcut has a backslash. -/
structure Context.Plain (context : Context) : Prop where
  current : context.table.Current
  unit : context.scopes.indentUnit = "\\quad ".toList
  sound : context.shortcuts.Sound
  without : context.shortcuts.Without '\\'

section Step

variable {settings : Settings} {context : Context} {index : Nat} {line : Text}

/-- A line of content is shown as a formula. -/
theorem kind_body (h : context.Plain) (hline : '\\' ∉ line) :
    LineKind.of (lineAt index (context.scopes.indent ++ bodyOf settings context.shortcuts line)) =
      .math := by
  have htrim : '\\' ∉ Text.trim line := fun hc => hline ((Text.trim_infix line).subset hc)
  rw [Scopes.indent, h.unit, bodyOf]
  split
  · rename_i latex unresolved hrole hcompile
    have htrimmed := trimmed_expand h.sound hrole
    refine LineKind.of_formula index _
      (Expression.spelt_compile (h.without.expand h.sound htrim) hcompile)
      (Expression.shows_compile (Text.shows_of_trimmed htrimmed.ne_nil fun c hc => ?_) hcompile)
    simpa [Option.mem_def.mp hc] using htrimmed.1
  · exact LineKind.of_prose index _ _

theorem kinds_step (h : context.Plain) (hline : '\\' ∉ line) :
    (step settings context index line).2.lines.map (fun found => (found.id, LineKind.of found)) =
      kindsOf (line, index) := by
  rw [step_lines settings index line h.current, kindsOf]
  cases roleOf line with
  | ignored => rfl
  | definition => rfl
  | heading found =>
    have hheading := LineKind.of_heading index h.unit found
    by_cases hindex : index = 0
    · simp only [if_pos hindex, List.nil_append, List.map_cons, List.map_nil, hheading]
      rfl
    · simp only [if_neg hindex, List.cons_append, List.nil_append, List.map_cons, List.map_nil,
        hheading]
      rfl
  | close => rfl
  | unreadable fault => simp only [List.map_cons, List.map_nil, kind_body h hline]; rfl
  | content => simp only [List.map_cons, List.map_nil, kind_body h hline]; rfl

theorem plain_step (h : context.Plain) (hline : '\\' ∉ line) :
    (step settings context index line).1.Plain := by
  have htrim : '\\' ∉ Text.trim (Text.trim line) := fun hc =>
    hline ((Text.trim_infix line).subset ((Text.trim_infix _).subset hc))
  refine ⟨current_step settings index line h.current, ?_, ?_, ?_⟩
  · rw [step_scopes, ← h.unit]
    cases roleOf line <;> rfl
  · rw [step_shortcuts settings index line h.current]
    exact sound_shortcutsBehind h.sound line
  · rw [step_shortcuts settings index line h.current, shortcutsBehind]
    split
    · exact h.without.defineLine htrim
    · exact h.without

end Step

section Compile

variable {settings : Settings} {source : Text}

theorem plain_contextAt (hindent : settings.indent = "\\quad ".toList) {sources : List Text}
    (hsources : ∀ line ∈ sources, '\\' ∉ line) {index : Nat} (h : index ≤ sources.length) :
    (contextAt settings sources index).Plain := by
  induction index with
  | zero =>
    exact ⟨current_contextAt settings sources 0, hindent, Shortcuts.sound_nil,
      List.forall_mem_nil _⟩
  | succ index ih =>
    rw [contextAt_succ settings (List.getElem?_eq_getElem h)]
    exact plain_step (ih (Nat.le_of_succ_le h)) (hsources _ (List.getElem_mem _))

theorem kinds_outputAt (hindent : settings.indent = "\\quad ".toList) (hsource : '\\' ∉ source)
    {line : Text × Nat} (hline : line ∈ (sourceLines source).zipIdx) :
    (outputAt settings (sourceLines source) line).lines.map
      (fun found => (found.id, LineKind.of found)) = kindsOf line := by
  have hsources : ∀ line ∈ sourceLines source, '\\' ∉ line := fun _ hmem =>
    not_mem_sourceLines hsource hmem
  have hlt := List.snd_lt_of_mem_zipIdx hline
  exact kinds_step (plain_contextAt hindent hsources (by omega))
    (hsources _ (List.fst_mem_of_mem_zipIdx hline))

/-- The identifiers of the formulas among lines with their kinds. -/
theorem ids_of_kinds {lines : List OutputLine} {kinds : List (Text × LineKind)}
    (h : lines.map (fun line => (line.id, LineKind.of line)) = kinds) :
    (lines.filter fun line => LineKind.of line = .math).map (·.id) =
      (kinds.filter fun p => p.2 = .math).map Prod.fst := by
  subst h
  rw [List.filter_map, List.map_map]
  rfl

/-- One formula comes from each line of content. -/
theorem ids_kindsOf (places : List (Text × Nat)) :
    ((places.flatMap kindsOf).filter fun p => p.2 = .math).map Prod.fst =
      (places.filter fun line => (roleOf line.1).isFormula).map fun line => lineId line.2 := by
  induction places with
  | nil => rfl
  | cons line places ih =>
    rw [List.flatMap_cons, List.filter_append, List.map_append, ih, List.filter_cons, kindsOf]
    cases roleOf line.1 with
    | heading found =>
      by_cases hindex : line.2 = 0
      · simp only [if_pos hindex]
        rfl
      · simp only [if_neg hindex]
        rfl
    | _ => rfl

end Compile

/-- **The kinds of lines agree with the source lines.**  The space above a heading and the end of a
block are spacers, headings are headers, and all other lines, also those that could not be compiled,
are formulas.  The formulas alone are numbered, from one on, in the order of the source. -/
theorem compile_kinds (settings : Settings) (source : Text)
    (hindent : settings.indent = "\\quad ".toList) (hsource : '\\' ∉ source) :
    let sources := (sourceLines source).zipIdx
    let lines := (compile settings source).lines
    lines.map (fun line => (line.id, LineKind.of line)) = sources.flatMap kindsOf ∧
      (numberLines lines).map (fun line => (line.id, line.latex, line.kind)) =
        lines.map (fun line => (line.id, line.latex, LineKind.of line)) ∧
      (numberLines lines).filterMap (fun line => line.number.map fun n => (line.id, n)) =
        ((sources.filter fun line => (roleOf line.1).isFormula).map fun line =>
          lineId line.2).zipIdx 1 := by
  have hkinds : (compile settings source).lines.map (fun line => (line.id, LineKind.of line)) =
      (sourceLines source).zipIdx.flatMap kindsOf := by
    rw [lines_compile, List.map_flatMap]
    exact List.flatMap_congr fun line hline => kinds_outputAt hindent hsource hline
  refine ⟨hkinds, numberFrom_lines 0 _, ?_⟩
  rw [numberLines, numberFrom_numbers, ids_of_kinds hkinds, ids_kindsOf]

theorem compile_kinds_proof :
    let source := "Theorem Main \x7b\nProof \x7b\na/b\n\x7d\n// done\nx < y\n\x7d".toList
    (({} : Settings).indent = "\\quad ".toList ∧ '\\' ∉ source) ∧
    (compile {} source).lines.map (fun line => (line.id, LineKind.of line)) =
      [("line-0".toList, .header), ("spacer-1".toList, .spacer), ("line-1".toList, .header),
        ("line-2".toList, .math), ("line-3".toList, .spacer), ("line-5".toList, .math),
        ("line-6".toList, .spacer)] ∧
    (numberLines (compile {} source).lines).filterMap
        (fun line => line.number.map fun n => (line.id, n)) =
      [("line-2".toList, 1), ("line-5".toList, 2)] := by
  intro source
  have hsource : '\\' ∉ source := by decide
  obtain ⟨hkinds, -, hnumbers⟩ := compile_kinds {} source rfl hsource
  exact ⟨⟨rfl, hsource⟩, hkinds.trans (by decide +kernel), hnumbers.trans (by decide +kernel)⟩

end Document

end MathNotes
