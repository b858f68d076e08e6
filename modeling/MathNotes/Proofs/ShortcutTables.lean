import MathNotes.Proofs.LookUp
import MathNotes.Shortcut

/-!
# Tables of shortcuts

A table searches for the names that it remembers, and a definition makes it forget them.  So it
remembers nothing or the names of its shortcuts as they are (`ShortcutTable.Current`): a new table
is current, and defining and expanding keep it so.  A current table expands lines as the shortcuts
themselves do, without fail (`ShortcutTable.Current.expand_eq`).
-/

namespace MathNotes

namespace Shortcuts

theorem words_nil (previous : Option Char) (text : Text) : words [] previous text = none := by
  simp [words, wordPattern]

/-- Without shortcuts a line stays as it is. -/
theorem expand_nil (line : Text) : expand [] line = line := by
  have hpieces : ∀ (previous : Option Char) (text : Text),
      (pattern []).piecesFrom previous 0 text = text.map .char := by
    intro previous text
    induction text generalizing previous with
    | nil => rfl
    | cons c text ih => simp [Pattern.piecesFrom, pattern, words_nil, ih]
  rw [expand, words_nil, List.append_nil, Pattern.replace, Pattern.pieces, hpieces]
  exact Piece.flatMap_write_chars id line

theorem lookup_pairs (shortcuts : Shortcuts) (name : Text) :
    (shortcuts.map fun shortcut => (shortcut.1, shortcut)).lookup name =
      (shortcuts.lookup name).map fun replacement => (name, replacement) := by
  induction shortcuts with
  | nil => rfl
  | cons first shortcuts ih =>
    rw [List.map_cons, List.lookup_cons, List.lookup_cons, ih]
    cases hname : name == first.1 with
    | false => rfl
    | true => simp [beq_iff_eq.mp hname]

/-- A name that is found among the names that are not empty is found among all. -/
theorem lookup_of_lookup_filter {shortcuts : Shortcuts} {name replacement : Text}
    (h : (shortcuts.filter (!·.1.isEmpty)).lookup name = some replacement) :
    shortcuts.lookup name = some replacement := by
  have hname : name ≠ [] := by
    rintro rfl
    have hnone : (shortcuts.filter (!·.1.isEmpty)).lookup [] = none := by
      rw [List.lookup_eq_none_iff]
      intro shortcut hmem
      have hshortcut : shortcut.1 ≠ [] := by simpa using (List.mem_filter.mp hmem).2
      exact bne_iff_ne.mpr hshortcut.symm
    rw [hnone] at h
    cases h
  induction shortcuts with
  | nil => cases h
  | cons first shortcuts ih =>
    obtain ⟨known, old⟩ := first
    cases known with
    | nil =>
      rw [List.filter_cons_of_neg (by simp)] at h
      rw [List.lookup_cons, beq_eq_false_iff_ne.mpr hname]
      exact ih h
    | cons c known =>
      rw [List.filter_cons_of_pos (by simp), List.lookup_cons] at h
      rw [List.lookup_cons]
      cases hsame : name == c :: known with
      | true => simpa [hsame] using h
      | false =>
        rw [hsame] at h
        exact ih h

/-- **Names are found where shortcuts are**, and what is found is looked up as the shortcut. -/
theorem words_cases (shortcuts : Shortcuts) (previous : Option Char) (text : Text) :
    ShortcutTable.words (shortcuts.map (·.1)) previous text = none ∧
        shortcuts.words previous text = none ∨
      ∃ shortcut width, ShortcutTable.words (shortcuts.map (·.1)) previous text =
          some ⟨shortcut.1, width⟩ ∧
        shortcuts.words previous text = some ⟨shortcut, width⟩ ∧
        shortcuts.lookup shortcut.1 = some shortcut.2 := by
  have hcases := wholeWords_cases isNameChar isNameChar
    (shortcuts.map fun shortcut => (shortcut.1, shortcut)) previous text
  rw [List.map_map] at hcases
  rcases hcases with hnone | ⟨name, ⟨shortcut, width⟩, hname, hwords, hlookup⟩
  · exact .inl hnone
  · rw [lookup_pairs, Option.map_eq_some_iff] at hlookup
    obtain ⟨replacement, hlookup, rfl⟩ := hlookup
    exact .inr ⟨(name, replacement), width, hname, hwords, hlookup⟩

end Shortcuts

namespace ShortcutTable

/-- The table remembers nothing, or the names of its shortcuts. -/
def Current (table : ShortcutTable) : Prop :=
  ∀ names ∈ table.searched, names = table.shortcuts.map (·.1)

variable {table : ShortcutTable}

theorem current_of_forgotten (h : table.searched = none) : table.Current := by simp [Current, h]

theorem Current.names_eq (h : table.Current) : table.names = table.shortcuts.map (·.1) := by
  unfold names
  cases hsearched : table.searched with
  | none => rfl
  | some names => exact h names hsearched

/-! ## Definitions -/

/-- **A definition makes the table current**, whatever it remembered. -/
theorem current_define (name replacement : Text) (table : ShortcutTable) :
    (table.define name replacement).Current := current_of_forgotten rfl

theorem Current.defineLine (h : table.Current) (line : Text) :
    (table.defineLine line).2.Current := by
  unfold ShortcutTable.defineLine
  cases Shortcuts.readDefinition? line with
  | none => exact h
  | some found => exact current_define _ _ table

theorem shortcuts_defineLine (table : ShortcutTable) (line : Text) :
    (table.defineLine line).2.shortcuts = table.shortcuts.defineLine line := by
  unfold ShortcutTable.defineLine Shortcuts.defineLine
  cases Shortcuts.readDefinition? line <;> rfl

theorem fst_defineLine (table : ShortcutTable) (line : Text) :
    (table.defineLine line).1 = Shortcuts.readDefinition? line := by
  unfold ShortcutTable.defineLine
  cases Shortcuts.readDefinition? line <;> rfl

/-! ## Expanding -/

@[simp]
theorem shortcuts_expand (table : ShortcutTable) (line : Text) :
    (table.expand line).2.shortcuts = table.shortcuts := by
  unfold expand
  split <;> rfl

/-- **Expanding keeps a table current**: what it remembers from then on are the names it has now. -/
theorem Current.expand (h : table.Current) (line : Text) : (table.expand line).2.Current := by
  unfold ShortcutTable.expand
  split
  · exact h
  · rintro names ⟨⟩
    exact h.names_eq

/-- What is written where names are found that have replacements. -/
theorem replacement_eq {names : List Text} (replacements : List Text) (kept : Text)
    (h : names.map (table.shortcuts.lookup ·) = replacements.map some) :
    table.replacement ⟨names, kept⟩ = pure (replacements.flatten ++ kept) := by
  have hnames : names.mapM (lookUp table.shortcuts) = .ok replacements := by
    induction names generalizing replacements with
    | nil => simp_all [pure, Except.pure]
    | cons name names ih =>
      cases replacements with
      | nil => simp at h
      | cons replacement replacements =>
        obtain ⟨hname, hrest⟩ := List.cons.inj h
        rw [List.mapM_cons, lookUp_eq_ok hname, ih _ hrest]
        rfl
  rw [replacement, hnames]
  rfl

/-- Searching for the names and looking them up replaces the shortcuts. -/
theorem writesAs_search (table : ShortcutTable) :
    Pattern.WritesAs (search (table.shortcuts.map (·.1))) table.replacement
      table.shortcuts.pattern id := by
  intro previous text
  unfold search Shortcuts.pattern
  rcases table.shortcuts.words_cases previous text with
    ⟨hnames, hwords⟩ | ⟨⟨name, insertion⟩, width, hnames, hwords, hlookup⟩
  · exact .inl ⟨by rw [hnames], by rw [hwords]⟩
  rw [hnames, hwords]
  cases name with
  | cons c name =>
    exact .inr ⟨⟨[c :: name], []⟩, ⟨insertion, width⟩, rfl, rfl,
      by simpa using replacement_eq [insertion] [] (by simp [hlookup])⟩
  | nil =>
    have hfilter : (table.shortcuts.map (·.1)).filter (!·.isEmpty) =
        (table.shortcuts.filter (!·.1.isEmpty)).map (·.1) := List.filter_map
    simp only [hfilter]
    rcases Shortcuts.words_cases (table.shortcuts.filter (!·.1.isEmpty)) previous text with
      ⟨hnames', hwords'⟩ | ⟨⟨name, replacement⟩, width', hnames', hwords', hlookup'⟩
    · rw [hnames', hwords']
      exact .inr ⟨⟨[[]], text.take 1⟩, ⟨insertion ++ text.take 1, 1⟩, rfl, rfl,
        by simpa using replacement_eq [insertion] (text.take 1) (by simp [hlookup])⟩
    · rw [hnames', hwords']
      have hlookup' := Shortcuts.lookup_of_lookup_filter hlookup'
      exact .inr ⟨⟨[[], name], []⟩, ⟨insertion ++ replacement, width'⟩, rfl, rfl,
        by simpa using replacement_eq [insertion, replacement] [] (by simp [hlookup, hlookup'])⟩

/-- **A current table expands a line as its shortcuts do**, and finds every name that it looks
up. -/
theorem Current.expand_eq (h : table.Current) (line : Text) :
    (table.expand line).1 = .ok (table.shortcuts.expand line) := by
  unfold ShortcutTable.expand
  by_cases hempty : table.shortcuts.isEmpty = true
  · rw [if_pos hempty, List.isEmpty_iff.mp hempty, Shortcuts.expand_nil]
  rw [if_neg hempty, h.names_eq, (writesAs_search table).replaceM]
  unfold Shortcuts.expand
  rcases table.shortcuts.words_cases line.getLast? [] with
    ⟨hnames, hwords⟩ | ⟨shortcut, width, hnames, hwords, hlookup⟩
  · rw [hnames, hwords, List.append_nil]
    rfl
  · rw [hnames, hwords]
    simp only [lookUp_eq_ok hlookup]
    rfl

end ShortcutTable

end MathNotes
