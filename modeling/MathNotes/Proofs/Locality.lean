import MathNotes.Proofs.LineByLine

/-!
# What a line depends on

Two documents whose lines agree up to some place, apart from lines that are inert in both, give the
same at that place (`linesOf_congr`).  A line of content does leave something in the context: the
table of shortcuts remembers the names that the line was searched for.  What is remembered is never
out of date, so contexts that differ in nothing else are `Alike`, and later lines cannot tell them
apart (`Alike.output_eq`).
-/

namespace MathNotes

namespace Document

/-- A line that later lines do not see: it is blank, a comment, or content, which is everything that
is no definition, no heading and no closing brace. -/
def Inert (line : Text) : Prop :=
  isIgnored (Text.trim line) = true ∨
    (Shortcuts.isDefinition (Text.trim line) = false ∧
      (∀ found, Heading.ofLine? (Text.trim line) ≠ .ok (some found)) ∧
      Scopes.isClose (Text.trim line) = false)

/-- Whether lines of a role are inert. -/
def Role.isInert : Role → Bool
  | .ignored | .unreadable _ | .content => true
  | .definition | .heading _ | .close => false

/-- A closing brace is never taken for a heading. -/
theorem ofLine?_of_isClose {line : Text} (h : Scopes.isClose line = true) :
    Heading.ofLine? line = .ok none := by
  have htrim : Text.trim line = ['}'] := by simpa [Scopes.isClose] using h
  simp [Heading.ofLine?, Heading.read?, htrim]

theorem inert_iff {line : Text} : Inert line ↔ (roleOf line).isInert = true := by
  unfold Inert roleOf
  by_cases hignored : isIgnored (Text.trim line) = true
  · simp [hignored, Role.isInert]
  by_cases hdefinition : Shortcuts.isDefinition (Text.trim line) = true
  · simp [hignored, hdefinition, Role.isInert]
  by_cases hclose : Scopes.isClose (Text.trim line) = true
  · simp [hignored, hdefinition, hclose, ofLine?_of_isClose hclose, Role.isInert]
  cases hheading : Heading.ofLine? (Text.trim line) with
  | error fault => simp [hignored, hdefinition, hclose, hheading, Role.isInert]
  | ok heading => cases heading <;> simp [hignored, hdefinition, hclose, hheading, Role.isInert]

instance (line : Text) : Decidable (Inert line) := decidable_of_iff _ inert_iff.symm

/-- Contexts with the same shortcuts and the same blocks, whatever their tables remember. -/
structure Alike (a b : Context) : Prop where
  current_left : a.table.Current
  current_right : b.table.Current
  shortcuts_eq : a.shortcuts = b.shortcuts
  scopes_eq : a.scopes = b.scopes

theorem Alike.refl {context : Context} (h : context.table.Current) : Alike context context :=
  ⟨h, h, rfl, rfl⟩

theorem Alike.symm {a b : Context} (h : Alike a b) : Alike b a :=
  ⟨h.current_right, h.current_left, h.shortcuts_eq.symm, h.scopes_eq.symm⟩

theorem Alike.trans {a b c : Context} (h : Alike a b) (h' : Alike b c) : Alike a c :=
  ⟨h.current_left, h'.current_right, h.shortcuts_eq.trans h'.shortcuts_eq,
    h.scopes_eq.trans h'.scopes_eq⟩

variable (settings : Settings) {line : Text} {index : Nat} {a b : Context}

/-- **A line does not see what the table remembers.** -/
theorem Alike.output_eq (h : Alike a b) :
    (step settings a index line).2 = (step settings b index line).2 := by
  rw [step_eq, step_eq]
  cases roleOf line with
  | definition => rw [definition_eq, definition_eq]
  | content =>
    rw [content_eq settings index _ h.current_left, content_eq settings index _ h.current_right]
    simp only [formula, failure, h.shortcuts_eq, h.scopes_eq]
  | _ => simp only [heading, close, failure, h.scopes_eq]

/-- The same line leads from contexts that are alike to contexts that are alike. -/
theorem Alike.step (h : Alike a b) :
    Alike (step settings a index line).1 (step settings b index line).1 where
  current_left := current_step settings index line h.current_left
  current_right := current_step settings index line h.current_right
  shortcuts_eq := by
    rw [step_shortcuts settings index line h.current_left,
      step_shortcuts settings index line h.current_right, h.shortcuts_eq]
  scopes_eq := by rw [step_scopes, step_scopes, h.scopes_eq]

/-- **An inert line changes nothing but what the table remembers.** -/
theorem alike_step_of_inert (index : Nat) (hcurrent : a.table.Current) (h : Inert line) :
    Alike (Document.step settings a index line).1 a where
  current_left := current_step settings index line hcurrent
  current_right := hcurrent
  shortcuts_eq := by
    rw [step_shortcuts settings index line hcurrent, shortcutsBehind, if_neg]
    intro hrole
    simp [inert_iff, hrole, Role.isInert] at h
  scopes_eq := by
    rw [inert_iff] at h
    rw [step_scopes]
    cases hrole : roleOf line with
    | heading found => simp [hrole, Role.isInert] at h
    | close => simp [hrole, Role.isInert] at h
    | _ => rfl

/-- **Lines that agree or are inert lead to contexts that are alike.** -/
theorem contextAt_alike {s t : List Text} (hs : index ≤ s.length) (ht : index ≤ t.length)
    (hbefore : ∀ j < index, s[j]? = t[j]? ∨ (∃ a ∈ s[j]?, Inert a) ∧ ∃ b ∈ t[j]?, Inert b) :
    Alike (contextAt settings s index) (contextAt settings t index) := by
  induction index with
  | zero => exact .refl (current_contextAt settings s 0)
  | succ index ih =>
    have hcontext := ih (by omega) (by omega) fun j hj => hbefore j (by omega)
    -- Either both documents take the same step, or neither step shows later on.
    rcases hbefore index (by omega) with hsame | ⟨⟨a, ha, hinert⟩, b, hb, hinert'⟩
    · have hline : t[index]? = some t[index] := List.getElem?_eq_getElem ht
      rw [contextAt_succ settings (hsame.trans hline), contextAt_succ settings hline]
      exact hcontext.step settings
    · rw [contextAt_succ settings ha, contextAt_succ settings hb]
      have hleft := alike_step_of_inert settings index hcontext.current_left hinert
      have hright := alike_step_of_inert settings index hcontext.current_right hinert'
      exact hleft.trans (hcontext.trans hright.symm)

/-- **Locality and causality.** What comes from a line is the same in two documents in which this
line is the same, and every earlier line is the same or inert in both. -/
theorem linesOf_congr (settings : Settings) (s t line : Text) (index : Nat)
    (hs : (sourceLines s)[index]? = some line) (ht : (sourceLines t)[index]? = some line)
    (hbefore : ∀ j < index, (sourceLines s)[j]? = (sourceLines t)[j]? ∨
      (∃ a ∈ (sourceLines s)[j]?, Inert a) ∧ ∃ b ∈ (sourceLines t)[j]?, Inert b) :
    linesOf (compile settings s) index = linesOf (compile settings t) index := by
  have hlength : ∀ {list : List Text}, list[index]? = some line → index ≤ list.length :=
    fun h => Nat.le_of_lt (List.getElem?_eq_some_iff.mp h).1
  have halike := contextAt_alike settings (hlength hs) (hlength ht) hbefore
  rw [linesOf_compile settings hs, linesOf_compile settings ht, outputAt, outputAt,
    halike.output_eq settings]

/-- The line that is expanded in front of the second definition makes no difference to the line
behind it. -/
theorem linesOf_congr_shortcut :
    let s := "#define N n+1\nLemma A \x7b\nN_(\n#define M N\nM^2/N\n\x7d".toList
    let t := "#define N n+1\nLemma A \x7b\n// later\n#define M N\nM^2/N\nCase \x7b".toList
    ((sourceLines s)[4]? = some "M^2/N".toList ∧ (sourceLines t)[4]? = some "M^2/N".toList ∧
      ∀ j < 4, (sourceLines s)[j]? = (sourceLines t)[j]? ∨
        (∃ a ∈ (sourceLines s)[j]?, Inert a) ∧ ∃ b ∈ (sourceLines t)[j]?, Inert b) ∧
    linesOf (compile {} s) 4 = linesOf (compile {} t) 4 := by
  intro s t
  have hs : (sourceLines s)[4]? = some "M^2/N".toList := by decide
  have ht : (sourceLines t)[4]? = some "M^2/N".toList := by decide
  have hbefore : ∀ j < 4, (sourceLines s)[j]? = (sourceLines t)[j]? ∨
      (∃ a ∈ (sourceLines s)[j]?, Inert a) ∧ ∃ b ∈ (sourceLines t)[j]?, Inert b := by decide
  exact ⟨⟨hs, ht, hbefore⟩, linesOf_congr {} s t _ 4 hs ht hbefore⟩

end Document

end MathNotes
