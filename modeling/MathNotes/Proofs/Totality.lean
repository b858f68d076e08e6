import MathNotes.Proofs.Emission
import MathNotes.Proofs.Lines

/-!
# Lines that compile

Two things can go wrong with a line.  Its expression can hold a marker whose number is too long to
be read, and it can look like a heading whose keyword is spelled with letters that have no plain
lower case.  Nothing else can: no position that is read lies outside its text, and no key that is
looked up is missing (`Expression.run_segment`, `Expression.latexOf_eq`,
`ShortcutTable.Current.expand_eq`).

A line that was written without markers has none but those of its own fragments
(`Expression.exists_compile`), and three letters are all that can spoil a keyword
(`Heading.exists_ofLine?`).  Without either, a line of a document is never shown as prose in place
of its LaTeX (`Document.compile_total`).
-/

namespace MathNotes

/-! ## Headings -/

namespace Heading

/-- The letters that are the same as a letter of a keyword up to case, but have another lower
case. -/
def irregularLetters : List Char := ['\u017f', '\u0130', '\u0131']

/-- A text without irregular letters. -/
def Regular (text : Text) : Prop := ∀ c ∈ irregularLetters, c ∉ text

instance (text : Text) : Decidable (Regular text) := by
  unfold Regular
  infer_instance

theorem Regular.mono {part text : Text} (h : Regular text) (hsub : part ⊆ text) : Regular part :=
  fun c hc hmem => h c hc (hsub hmem)

theorem Regular.left {front rest : Text} (h : Regular (front ++ rest)) : Regular front :=
  h.mono (List.subset_append_left front rest)

theorem Regular.trim {text : Text} (h : Regular text) : Regular (Text.trim text) :=
  h.mono (Text.trim_infix text).subset

theorem kelvin_not_mem_keywords :
    ∀ keyword ∈ keywords, '\u212a' ∉ keyword.map Char.toLower := by decide

/-- No keyword begins with another one, whatever their case. -/
theorem keywords_unnested : ∀ keyword ∈ keywords, ∀ other ∈ keywords,
    keyword.map Char.toLower <+: other.map Char.toLower → keyword = other := by decide

/-- A keyword is matched letter by letter. -/
theorem matchKeyword?_spec {keyword text matched rest : Text}
    (h : matchKeyword? keyword text = some (matched, rest)) :
    text = matched ++ rest ∧ List.Forall₂ (sameLetter · · = true) keyword matched := by
  induction keyword generalizing text matched with
  | nil =>
    cases h
    exact ⟨rfl, .nil⟩
  | cons letter letters ih =>
    cases text with
    | nil => cases h
    | cons c text =>
      rw [matchKeyword?] at h
      by_cases hsame : sameLetter letter c = true
      · rw [if_pos hsame] at h
        obtain ⟨⟨matched', rest'⟩, hmatch, hparts⟩ := Option.map_eq_some_iff.mp h
        cases hparts
        obtain ⟨htext, hletters⟩ := ih hmatch
        exact ⟨by rw [htext, List.cons_append], .cons hsame hletters⟩
      · rw [if_neg hsame] at h
        cases h

/-- A regular letter has the lower case of the letter that it matches. -/
theorem lowerCase_of_sameLetter {letter c : Char} (hkelvin : letter.toLower ≠ '\u212a')
    (hregular : c ∉ irregularLetters) (h : sameLetter letter c = true) :
    lowerCase c = [letter.toLower] := by
  rw [sameLetter, Bool.or_eq_true, beq_iff_eq, List.contains_iff_mem] at h
  rcases h with hlower | hvariant
  · have hdotted : c ≠ '\u0130' := fun hc => hregular (hc ▸ by decide)
    have hsign : c ≠ '\u212a' := by
      rintro rfl
      exact hkelvin hlower.symm
    simp [lowerCase, hdotted, hsign, hlower]
  · simp only [caseVariants, List.mem_cons, Prod.mk.injEq, List.not_mem_nil, or_false] at hvariant
    rcases hvariant with ⟨rfl, -⟩ | ⟨rfl, -⟩ | ⟨rfl, -⟩ | ⟨rfl, hletter⟩
    · exact absurd (by decide) hregular
    · exact absurd (by decide) hregular
    · exact absurd (by decide) hregular
    · rw [hletter]
      rfl

/-- A regular spelling has the lower case of its keyword. -/
theorem flatMap_lowerCase {keyword matched : Text} (hkelvin : '\u212a' ∉ keyword.map Char.toLower)
    (hregular : Regular matched) (h : List.Forall₂ (sameLetter · · = true) keyword matched) :
    matched.flatMap lowerCase = keyword.map Char.toLower := by
  induction h with
  | nil => rfl
  | @cons letter c letters matched hsame _ ih =>
    rw [List.map_cons, List.mem_cons, not_or] at hkelvin
    have hc : c ∉ irregularLetters := fun hc => hregular c hc List.mem_cons_self
    rw [List.flatMap_cons, lowerCase_of_sameLetter (Ne.symm hkelvin.1) hc hsame,
      ih hkelvin.2 (hregular.mono (List.subset_cons_self c matched))]
    rfl

/-- A regular spelling is that of one keyword. -/
theorem keywordFor_of_matched {keyword spelling : Text} (hkeyword : keyword ∈ keywords)
    (hregular : Regular spelling) (h : List.Forall₂ (sameLetter · · = true) keyword spelling) :
    keywordFor spelling = .ok keyword := by
  have hlower := flatMap_lowerCase (kelvin_not_mem_keywords keyword hkeyword) hregular h
  have hsome : (keywords.find? fun other =>
      other.map Char.toLower == spelling.flatMap lowerCase).isSome = true :=
    List.find?_isSome.mpr ⟨keyword, hkeyword, by rw [hlower, beq_self_eq_true]⟩
  obtain ⟨canonical, hcanonical⟩ := Option.isSome_iff_exists.mp hsome
  have hsame := List.find?_some hcanonical
  rw [beq_iff_eq, hlower] at hsame
  have heq : canonical = keyword :=
    keywords_unnested canonical (List.mem_of_find?_eq_some hcanonical) keyword hkeyword
      (hsame ▸ List.prefix_rfl)
  simp only [keywordFor, hcanonical, heq]

/-- What is read as a heading is a spelling of a keyword, a rest that does not go on with the word,
and a brace. -/
theorem read?_spec {line spelling title : Text} (h : read? line = some (spelling, title)) :
    ∃ keyword ∈ keywords, ∃ rest : Text, Text.trim line = spelling ++ rest ++ ['{'] ∧
      List.Forall₂ (sameLetter · · = true) keyword spelling ∧
      (!rest.head?.any isWordChar) = true ∧ title = Text.trim rest := by
  unfold read? at h
  by_cases hbrace : (Text.trim line).getLast? == some '{'
  · simp only [if_pos hbrace] at h
    obtain ⟨keyword, hkeyword, hfound⟩ := List.exists_of_findSome?_eq_some h
    obtain ⟨⟨matched, rest⟩, hmatch, hparts⟩ := Option.bind_eq_some_iff.mp hfound
    simp only [Option.bind_eq_bind, Option.bind_eq_some_iff, Option.guard_eq_some'] at hparts
    obtain ⟨-, hstops, -, -, hparts⟩ := hparts
    cases hparts
    obtain ⟨hfront, hletters⟩ := matchKeyword?_spec hmatch
    refine ⟨keyword, hkeyword, rest, ?_, hletters, hstops, rfl⟩
    rw [← hfront, List.dropLast_append_getLast? _ (beq_iff_eq.mp hbrace)]
  · simp only [if_neg hbrace] at h
    cases h

/-- **A line without irregular letters is read**, as a heading or as none. -/
theorem exists_ofLine? {line : Text} (h : Regular line) :
    ∃ heading, ofLine? line = .ok heading := by
  unfold ofLine?
  cases hread : read? line with
  | none => exact ⟨none, rfl⟩
  | some found =>
    obtain ⟨spelling, title⟩ := found
    obtain ⟨keyword, hkeyword, rest, hline, hletters, -⟩ := read?_spec hread
    have hregular := h.trim
    rw [hline] at hregular
    simp only [keywordFor_of_matched hkeyword hregular.left.left hletters]
    exact ⟨_, rfl⟩

example : ofLine? "Ca\u017fe 1 \x7b" = .error (.unknownHeading "ca\u017fe") := by decide

end Heading

/-! ## Expressions -/

/-- **A line without markers has LaTeX.** -/
theorem Expression.exists_compile (settings : Settings) {line : Text} (h : line.Clear)
    (hsize : line.length ≤ 10 ^ Fault.digitLimit) :
    ∃ latex unresolved, compile settings line = .ok (latex, unresolved) := by
  obtain ⟨w, G, kept, hsegmented, hleaves⟩ := exists_segmented settings h
  have hready := hleaves.ready ((Symbol.substituteConstants_spec line).2.1 h)
  obtain ⟨r, hr⟩ := Table.exists_resolveFrom hleaves.backward hready
    ((length_le_of_leaves hleaves).trans hsize) 0 settings.passes.toNat
  refine ⟨Symbol.symbolPass r.latex, r.unresolved, ?_⟩
  rw [compile_eq, hsegmented, Fragments.resolve, hr]
  rfl

/-! ## Documents -/

namespace Document

/-- A line with a keyword that cannot be read has an irregular letter. -/
theorem roleOf_ne_unreadable {line : Text} (h : Heading.Regular line) (fault : Fault) :
    roleOf line ≠ .unreadable fault := by
  intro hrole
  obtain ⟨heading, hheading⟩ := Heading.exists_ofLine? h.trim
  simp only [roleOf, hheading] at hrole
  split at hrole
  · cases hrole
  split at hrole
  · cases hrole
  cases heading with
  | some found => cases hrole
  | none =>
    simp only at hrole
    split at hrole <;> cases hrole

/-- Nothing is wrong with a line without irregular letters that has no markers when it is
expanded. -/
theorem faultOf_eq_none (settings : Settings) {shortcuts : Shortcuts} {line : Text}
    (hregular : Heading.Regular line) (hclear : (shortcuts.expand (Text.trim line)).Clear)
    (hsize : (shortcuts.expand (Text.trim line)).length ≤ 10 ^ Fault.digitLimit) :
    faultOf settings shortcuts line = none := by
  unfold faultOf
  cases hrole : roleOf line with
  | unreadable fault => exact absurd hrole (roleOf_ne_unreadable hregular fault)
  | content =>
    obtain ⟨latex, unresolved, hcompile⟩ := Expression.exists_compile settings hclear hsize
    simp only [hcompile]
  | _ => rfl

/-- A failure is noted only by a line that cannot be compiled. -/
theorem faultOf_of_failed_mem {settings : Settings} {context : Context}
    (hcurrent : context.table.Current) {index number : Nat} {line : Text}
    (h : .failed number ∈ (step settings context index line).2.events) :
    number = index + 1 ∧ faultOf settings context.shortcuts line ≠ none := by
  rw [step_eq] at h
  cases hrole : roleOf line with
  | definition =>
    simp only [hrole, definition_eq] at h
    cases hread : Shortcuts.readDefinition? (Text.trim line) <;>
      simp [hread, reportLine, report] at h
  | unreadable fault =>
    simp only [hrole, failure, reportLine, report, List.mem_cons, Event.failed.injEq, reduceCtorEq,
      List.not_mem_nil, or_false] at h
    exact ⟨h, by simp [faultOf, hrole]⟩
  | content =>
    obtain ⟨passed, hpassed, hformula⟩ := formula_eq settings context index (Text.trim line)
      (context.shortcuts.expand (Text.trim line))
    have hnot := hpassed.not_mem number
    simp only [hrole, content_eq settings index _ hcurrent, hformula] at h
    cases hcompile : Expression.compile settings (context.shortcuts.expand (Text.trim line)) with
    | error fault =>
      simp only [hcompile, Output.behind, failure, reportLine, report, List.mem_append, hnot,
        List.mem_cons, Event.failed.injEq, reduceCtorEq, List.not_mem_nil, false_or, or_false] at h
      exact ⟨h, by simp [faultOf, hrole, hcompile]⟩
    | ok compiled =>
      simp only [hcompile, List.mem_append, hnot, false_or] at h
      split at h <;> simp [reportLine, report] at h
  | _ => simp [hrole, heading, close] at h

/-- The number that an entry starts with ends at the colon. -/
theorem index_of_entryAt {kind : EntryKind} {i j : Nat} {a b : Text}
    (h : entryAt kind i a = entryAt kind j b) : i = j := by
  have hdigits : ∀ (n : Nat) (rest : Text),
      (Text.ofNat n ++ ':' :: rest).takeWhile Char.isDigit = Text.ofNat n := fun n rest =>
    takeWhile_append_stop (fun c => Marker.digit_of_mem_ofNat) fun c hc => by
      rw [← Option.mem_some.mp hc]
      rfl
  have hmessage : "Line " ++ Text.ofNat (i + 1) ++ ": " ++ a =
      "Line " ++ Text.ofNat (j + 1) ++ ": " ++ b := congrArg Entry.message h
  rw [List.append_assoc, List.append_assoc, List.append_assoc, List.append_assoc] at hmessage
  have hnumber := congrArg (List.takeWhile Char.isDigit) (List.append_cancel_left hmessage)
  have hsame : Text.ofNat (i + 1) = Text.ofNat (j + 1) :=
    (hdigits _ (' ' :: a)).symm.trans (hnumber.trans (hdigits _ (' ' :: b)))
  have := Text.ofNat_injective hsame
  omega

/-- A failure in the events of a document comes from the line of its number. -/
theorem exists_of_failed_mem {settings : Settings} {source : Text} {index : Nat}
    (h : .failed (index + 1) ∈ (compile settings source).events) :
    ∃ line, (sourceLines source)[index]? = some line ∧
      faultOf settings (contextAt settings (sourceLines source) index).shortcuts line ≠ none := by
  have houtputs : .failed (index + 1) ∈ (sourceLines source).zipIdx.flatMap fun line =>
      (outputAt settings (sourceLines source) line).events := by
    simp only [compile, run_eq, List.flatMap_map] at h
    rcases List.mem_append.mp h with h | h
    · rcases List.mem_append.mp h with h | h
      · rcases List.mem_cons.mp h with h | h
        · cases h
        · exact h
      · split at h
        · cases h
        · cases List.mem_singleton.mp h
    · cases List.mem_singleton.mp h
  obtain ⟨⟨line, place⟩, hplace, hevent⟩ := List.mem_flatMap.mp houtputs
  obtain ⟨hnumber, hfault⟩ :=
    faultOf_of_failed_mem (current_contextAt settings (sourceLines source) place) hevent
  obtain rfl : index = place := by omega
  exact ⟨line, List.mem_zipIdx_iff_getElem?.mp hplace, hfault⟩

/-- An error in the entries of a document comes from the line of its number. -/
theorem exists_of_error_mem {settings : Settings} {source : Text} {index : Nat} {message : Text}
    (h : entryAt .error index message ∈ (compile settings source).entries) :
    ∃ line, (sourceLines source)[index]? = some line ∧
      faultOf settings (contextAt settings (sourceLines source) index).shortcuts line ≠ none := by
  have herror : entryAt .error index message ∈
      (failures settings (sourceLines source)).map Failure.entry := by
    rw [← errors_compile]
    exact List.mem_filter.mpr ⟨h, by simp [entryAt]⟩
  obtain ⟨failure, hfailure, hentry⟩ := List.mem_map.mp herror
  obtain ⟨⟨line, place⟩, hplace, hat⟩ := List.mem_filterMap.mp hfailure
  obtain rfl : place = index := (index_of_failureAt hat).symm.trans (index_of_entryAt hentry)
  obtain ⟨fault, hfault, -⟩ := Option.map_eq_some_iff.mp hat
  exact ⟨line, List.mem_zipIdx_iff_getElem?.mp hplace, by simp [hfault]⟩

/-- **Every line compiles.** A line without `PH` has LaTeX, whatever the limits are, and a line
without irregular letters is read as a heading or as none.  So if a line of a document has no
irregular letters, and no `PH` when the shortcuts in front of it are written out, then no failure
and no error is reported for it.

That there are fewer than `10 ^ Fault.digitLimit` characters makes sure that the number of every
marker is short enough to be read. -/
theorem compile_total (settings : Settings) :
    (∀ line : Text, ¬ "PH".toList <:+: line → line.length ≤ 10 ^ Fault.digitLimit →
      ∃ latex unresolved, Expression.compile settings line = .ok (latex, unresolved)) ∧
    (∀ line : Text, Heading.Regular line → ∃ heading, Heading.ofLine? line = .ok heading) ∧
    (∀ (source line : Text) (index : Nat), (sourceLines source)[index]? = some line →
      Heading.Regular line →
      let expanded :=
        (contextAt settings (sourceLines source) index).shortcuts.expand (Text.trim line)
      ¬ "PH".toList <:+: expanded → expanded.length ≤ 10 ^ Fault.digitLimit →
      .failed (index + 1) ∉ (compile settings source).events ∧
        ∀ message, entryAt .error index message ∉ (compile settings source).entries) := by
  refine ⟨fun line h hsize => Expression.exists_compile settings (Text.clear_iff_not_infix.mpr h)
    hsize, fun line h => Heading.exists_ofLine? h, ?_⟩
  intro source line index hline hregular expanded h hsize
  have hfault := faultOf_eq_none settings hregular (Text.clear_iff_not_infix.mpr h) hsize
  -- The only line at this index is this one, and nothing is wrong with it.
  have hnone : ¬ ∃ found, (sourceLines source)[index]? = some found ∧
      faultOf settings (contextAt settings (sourceLines source) index).shortcuts found ≠ none := by
    rintro ⟨found, hfound, hne⟩
    obtain rfl : line = found := Option.some.inj (hline.symm.trans hfound)
    exact hne hfault
  exact ⟨fun hmem => hnone (exists_of_failed_mem hmem),
    fun message hmem => hnone (exists_of_error_mem hmem)⟩

theorem compile_total_unbalanced :
    let source : Text := "#define half (1)/(2\nCase ^(|/) \u212a \x7d\x7b\nhalf_(^ |x/ \x7bsqrt("
    let line : Text := "half_(^ |x/ \x7bsqrt("
    ((sourceLines source)[2]? = some line ∧ Heading.Regular line ∧
      ¬ "PH".toList <:+: (contextAt {} (sourceLines source) 2).shortcuts.expand (Text.trim line) ∧
      ((contextAt {} (sourceLines source) 2).shortcuts.expand (Text.trim line)).length ≤
        10 ^ Fault.digitLimit) ∧
    (∃ latex unresolved, Expression.compile {} line = .ok (latex, unresolved)) ∧
    (∃ heading, Heading.ofLine? "Case ^(|/) \u212a \x7d\x7b" = .ok heading) ∧
    .failed 3 ∉ (compile {} source).events ∧
      ∀ message, entryAt .error 2 message ∉ (compile {} source).entries := by
  intro source line
  have hline : (sourceLines source)[2]? = some line := by decide
  have hregular : Heading.Regular line := by decide
  have hclear : ¬ "PH".toList <:+:
      (contextAt {} (sourceLines source) 2).shortcuts.expand (Text.trim line) := by decide +kernel
  have hsize : ((contextAt {} (sourceLines source) 2).shortcuts.expand (Text.trim line)).length ≤
      10 ^ Fault.digitLimit := Fault.le_pow_digitLimit (by decide +kernel)
  exact ⟨⟨hline, hregular, hclear, hsize⟩,
    (compile_total {}).1 line (by decide) (Fault.le_pow_digitLimit (by decide)),
    (compile_total {}).2.1 _ (by decide),
    (compile_total {}).2.2 source line 2 hline hregular hclear hsize⟩

end Document

end MathNotes
