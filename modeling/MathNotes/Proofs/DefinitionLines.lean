import MathNotes.Proofs.WrittenOut

/-!
# Lines that define a shortcut

A line is read as a definition if it is the directive, a name and a replacement, with white space
between them (`Shortcuts.Defines`), and in no other case (`Shortcuts.readDefinition?_eq_some_iff`).
What it defines takes the place of the shortcut that had its name, or the place behind all others
(`Shortcuts.Registers`), and the table forgets the names that it searched for; a line that defines
nothing changes nothing (`ShortcutTable.defineLine_exact`).
-/

namespace MathNotes

namespace Shortcuts

/-- A trimmed line that defines a name: the directive, the name and the replacement, with white
space between them. The name has no white space in it, and the replacement none at its ends. -/
def Defines (line name replacement : Text) : Prop :=
  name ≠ [] ∧ (∀ c ∈ name, isBlank c = false) ∧ replacement.Trimmed ∧
    ∃ gap gap' : Text, gap.isBlankRun = true ∧ gap'.isBlankRun = true ∧
      line = directive ++ (gap ++ (name ++ (gap' ++ replacement)))

/-- Shortcuts before and after a name is defined. A known name keeps its place, and all others
keep their replacements. -/
inductive Registers (name replacement : Text) : Shortcuts → Shortcuts → Prop
  | known (before after : Shortcuts) (old : Text) (hfirst : name ∉ before.map Prod.fst) :
      Registers name replacement (before ++ (name, old) :: after)
        (before ++ (name, replacement) :: after)
  | new (shortcuts : Shortcuts) (hnew : name ∉ shortcuts.map Prod.fst) :
      Registers name replacement shortcuts (shortcuts ++ [(name, replacement)])

theorem Registers.cons {name replacement other : Text} {shortcuts result : Shortcuts}
    (h : Registers name replacement shortcuts result) (hother : other ≠ name) (value : Text) :
    Registers name replacement ((other, value) :: shortcuts) ((other, value) :: result) := by
  cases h with
  | known before after old hfirst =>
    exact .known ((other, value) :: before) after old
      (List.not_mem_cons_of_ne_of_not_mem (Ne.symm hother) hfirst)
  | new _ hnew =>
    exact .new ((other, value) :: shortcuts)
      (List.not_mem_cons_of_ne_of_not_mem (Ne.symm hother) hnew)

theorem registers_define (shortcuts : Shortcuts) (name replacement : Text) :
    Registers name replacement shortcuts (shortcuts.define name replacement) := by
  induction shortcuts with
  | nil => exact .new [] List.not_mem_nil
  | cons first shortcuts ih =>
    obtain ⟨known, value⟩ := first
    rw [define]
    split
    · rename_i hsame
      subst hsame
      exact .known [] shortcuts value List.not_mem_nil
    · rename_i hother
      exact ih.cons hother value

section Read

variable {line name replacement : Text}

/-- What is read stands in the line as a definition is written. -/
theorem defines_of_readDefinition? (h : readDefinition? line = some (name, replacement)) :
    Defines (Text.trim line) name replacement := by
  obtain ⟨hname, hreplacement, -⟩ := readDefinition?_spec h
  simp only [readDefinition?, Option.bind_eq_bind, Option.bind_eq_some_iff, Option.guard_eq_some',
    Option.pure_def, Option.some.injEq, Prod.mk.injEq] at h
  obtain ⟨rest, hrest, -, hgap, -, -, -, -, rfl, rfl⟩ := h
  rw [drop_takeWhile] at hreplacement ⊢
  generalize hnamed : Text.trimLeft rest = named at hname hreplacement ⊢
  refine ⟨hname.ne_nil, fun c hc => by simpa using List.mem_takeWhile_imp hc, hreplacement,
    rest.takeWhile isBlank, (named.dropWhile (!isBlank ·)).takeWhile isBlank, ?_, ?_, ?_⟩
  · refine Text.isBlankRun_iff.mpr ⟨fun hnil => ?_, fun c hc => List.mem_takeWhile_imp hc⟩
    cases rest with
    | nil => cases hgap
    | cons c rest => simp_all
  · refine Text.isBlankRun_iff.mpr ⟨fun hnil => ?_, fun c hc => List.mem_takeWhile_imp hc⟩
    -- The name ends at white space, unless nothing is left for the replacement.
    have hstops : ∀ c ∈ (named.dropWhile (!isBlank ·)).head?, isBlank c = true := fun c hc => by
      simpa using head?_dropWhile_stops c hc
    cases hbehind : named.dropWhile (!isBlank ·) with
    | nil =>
      rw [hbehind] at hreplacement
      exact hreplacement.ne_nil rfl
    | cons c behind =>
      have hc := hstops c (by simp [hbehind])
      simp [hbehind, hc] at hnil
  · rw [isPrefixOf?_eq_some_iff.mp hrest, Text.trimLeft, List.takeWhile_append_dropWhile,
      List.takeWhile_append_dropWhile, ← hnamed, Text.trimLeft, List.takeWhile_append_dropWhile]

/-- A definition on one line is read. -/
theorem readDefinition?_of_defines (h : Defines (Text.trim line) name replacement)
    (hline : '\n' ∉ replacement) : readDefinition? line = some (name, replacement) := by
  obtain ⟨hname, hword, hreplacement, gap, gap', hgap, hgap', hsplit⟩ := h
  obtain ⟨hne, hblank⟩ := Text.isBlankRun_iff.mp hgap
  obtain ⟨hne', hblank'⟩ := Text.isBlankRun_iff.mp hgap'
  have hfirst : ∀ c ∈ (name ++ (gap' ++ replacement)).head?, isBlank c = false := by
    intro c hc
    rw [List.head?_append_of_ne_nil _ hname] at hc
    exact hword c (List.mem_of_head? hc)
  have hbehind : ∀ c ∈ (gap' ++ replacement).head?, (!isBlank c) = false := by
    intro c hc
    rw [List.head?_append_of_ne_nil _ hne'] at hc
    simp [hblank' c (List.mem_of_head? hc)]
  have hlast : ∀ c ∈ replacement.head?, isBlank c = false := fun c hc => by
    simpa [Option.mem_def.mp hc] using hreplacement.1
  have hnamed : Text.trimLeft (gap ++ (name ++ (gap' ++ replacement))) =
      name ++ (gap' ++ replacement) := dropWhile_append_stop hblank hfirst
  have htake : (name ++ (gap' ++ replacement)).takeWhile (!isBlank ·) = name :=
    takeWhile_append_stop (fun c hc => by simp [hword c hc]) hbehind
  have htrim : Text.trimLeft (gap' ++ replacement) = replacement :=
    dropWhile_append_stop hblank' hlast
  have hstart : (gap ++ (name ++ (gap' ++ replacement))).head?.any isBlank = true := by
    obtain ⟨c, gap, rfl⟩ := List.exists_cons_of_ne_nil hne
    exact hblank c List.mem_cons_self
  simp only [readDefinition?, hsplit, isPrefixOf?_append, Option.bind_eq_bind, Option.bind_some,
    hstart, hnamed, htake, List.drop_left, htrim]
  simp [hreplacement.ne_nil, hline]

theorem readDefinition?_eq_some_iff (h : '\n' ∉ line) :
    readDefinition? line = some (name, replacement) ↔
      Defines (Text.trim line) name replacement := by
  refine ⟨defines_of_readDefinition?, fun hdefines => readDefinition?_of_defines hdefines ?_⟩
  obtain ⟨-, -, -, gap, gap', -, -, hsplit⟩ := hdefines
  refine fun hmem => h ((Text.trim_infix line).subset ?_)
  rw [hsplit]
  simp [hmem]

end Read

end Shortcuts

namespace ShortcutTable

open Shortcuts

/-- **Definitions are read exactly.**  A line defines a name if it is written as a definition; then
that name and nothing else is defined, a known name keeps its place, and no name is remembered from
lines before.  Any other line is no definition and leaves the table as it is. -/
theorem defineLine_exact (table : ShortcutTable) {line : Text} (h : '\n' ∉ line) :
    (∀ name replacement, (table.defineLine line).1 = some (name, replacement) ↔
      Defines (Text.trim line) name replacement) ∧
    (∀ name replacement, Defines (Text.trim line) name replacement →
      Registers name replacement table.shortcuts (table.defineLine line).2.shortcuts ∧
        (table.defineLine line).2.searched = none) ∧
    ((∀ name replacement, ¬ Defines (Text.trim line) name replacement) →
      table.defineLine line = (none, table)) := by
  refine ⟨fun name replacement => ?_, ?_, fun hnot => ?_⟩
  · rw [fst_defineLine]
    exact readDefinition?_eq_some_iff h
  · intro name replacement hdefines
    rw [ShortcutTable.defineLine, (readDefinition?_eq_some_iff h).mpr hdefines]
    exact ⟨registers_define table.shortcuts name replacement, rfl⟩
  · have hnone : readDefinition? line = none := by
      rw [Option.eq_none_iff_forall_ne_some]
      rintro ⟨name, replacement⟩ hread
      exact hnot name replacement (defines_of_readDefinition? hread)
    rw [ShortcutTable.defineLine, hnone]

theorem defineLine_exact_redefined :
    let table : ShortcutTable := ⟨[("M", "m"), ("N", "k"), ("P", "p")], some ["M", "N", "P"]⟩
    let line : Text := "\t#define  N\u00a0 #define n \u2003"
    '\n' ∉ line ∧ (table.defineLine line).1 = some ("N".toList, "#define n".toList) ∧
      Registers "N" "#define n" table.shortcuts (table.defineLine line).2.shortcuts ∧
      (table.defineLine line).2 =
        { shortcuts := [("M", "m"), ("N", "#define n"), ("P", "p")], searched := none } := by
  intro table line
  have hline : '\n' ∉ line := by decide
  obtain ⟨hread, hregisters, -⟩ := defineLine_exact table hline
  have hdefines : Defines (Text.trim line) "N" "#define n" :=
    ⟨by decide, by decide, ⟨by decide, by decide⟩, "  ", "\u00a0 ", by decide, by decide, by decide⟩
  exact ⟨hline, (hread _ _).mpr hdefines, (hregisters _ _ hdefines).1, by decide⟩

end ShortcutTable

end MathNotes
