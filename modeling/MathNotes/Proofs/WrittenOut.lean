import MathNotes.Proofs.Emission
import MathNotes.Proofs.Printed
import MathNotes.Proofs.SymbolPass

/-!
# Notes with their shortcuts written out

Shortcuts can be removed from notes: every line of content is replaced by what it expands to where
it stands, and every definition by an empty line.  The document that is left defines no shortcuts
and gives the same lines (`compile_writeOut`).

Expanding replaces names by texts that begin and end as names do, not with white space
(`expand_keeps`), so an expanded line is found again when the document is cut into lines and
trimmed.  Lines are expanded by a table that remembers the names it searches for, and what it
remembers is never out of date: a name that is defined anew, or for the first time behind a line
that was expanded, is seen by the next line (`step_shortcuts`).  What is left to show is that the
two documents go through the same blocks, line by line (`step_lineWrittenOut`,
`run_lineWrittenOut`).
-/

namespace MathNotes

/-! ## Lines of a text -/

namespace Text

variable {separator : Char}

theorem splitOn_of_not_mem {text : Text} (h : separator ∉ text) :
    splitOn separator text = [text] := by
  induction text with
  | nil => rfl
  | cons c text ih =>
    rw [List.mem_cons, not_or] at h
    rw [splitOn, if_neg (by simpa using Ne.symm h.1), ih h.2]

theorem splitOn_append {text : Text} (h : separator ∉ text) (rest : Text) :
    splitOn separator (text ++ separator :: rest) = text :: splitOn separator rest := by
  induction text with
  | nil => rw [List.nil_append, splitOn, if_pos (beq_self_eq_true _)]
  | cons c text ih =>
    rw [List.mem_cons, not_or] at h
    rw [List.cons_append, splitOn, if_neg (by simpa using Ne.symm h.1), ih h.2]

/-- Lines that are put together are found again. -/
theorem splitOn_join {lines : List Text} (hne : lines ≠ []) (h : ∀ line ∈ lines, separator ∉ line) :
    splitOn separator (join [separator] lines) = lines := by
  induction lines with
  | nil => exact absurd rfl hne
  | cons line lines ih =>
    have hline := h line List.mem_cons_self
    cases lines with
    | nil => simpa [join] using splitOn_of_not_mem hline
    | cons next lines =>
      have hjoin : join [separator] (line :: next :: lines) =
          line ++ separator :: join [separator] (next :: lines) := by
        simp [join, List.intercalate_cons_cons]
      rw [hjoin, splitOn_append hline,
        ih (List.cons_ne_nil _ _) fun line hmem => h line (List.mem_cons_of_mem _ hmem)]

theorem splitOn_ne_nil (text : Text) : splitOn separator text ≠ [] := by
  fun_induction splitOn separator text <;> simp

theorem not_mem_of_mem_splitOn {text piece : Text} (h : piece ∈ splitOn separator text) :
    separator ∉ piece := by
  fun_induction splitOn separator text generalizing piece with
  | case1 => simp_all
  | case2 c rest hc ih =>
    rcases List.mem_cons.mp h with rfl | h
    · exact List.not_mem_nil
    · exact ih h
  | case3 c rest hc hnil => exact absurd hnil (splitOn_ne_nil rest)
  | case4 c rest hc first pieces hpieces ih =>
    rw [hpieces] at ih
    rcases List.mem_cons.mp h with rfl | h
    · rw [List.mem_cons, not_or]
      exact ⟨fun hsame => hc (by simp [hsame]), ih List.mem_cons_self⟩
    · exact ih (List.mem_cons_of_mem _ h)

/-! ## The edges of a text -/

/-- A text that neither begins nor ends with white space, and is not empty. -/
def Trimmed (text : Text) : Prop :=
  text.head?.map isBlank = some false ∧ text.getLast?.map isBlank = some false

theorem Trimmed.ne_nil {text : Text} (h : text.Trimmed) : text ≠ [] := by
  rintro rfl
  cases h.1

theorem Trimmed.trim_eq {text : Text} (h : text.Trimmed) : trim text = text := by
  refine trim_eq_self (fun c hc => ?_) fun c hc => ?_
  · simpa [Option.mem_def.mp hc] using h.1
  · simpa [Option.mem_def.mp hc] using h.2

theorem trimRight_append_blank {blanks : Text} (h : ∀ c ∈ blanks, isBlank c = true) (text : Text) :
    trimRight (text ++ blanks) = trimRight text := by
  rw [trimRight, List.reverse_append,
    List.dropWhile_append_of_pos fun c hc => h c (List.mem_reverse.mp hc), trimRight]

/-- White space behind a text does not count. -/
theorem trim_append_blank {blanks : Text} (h : ∀ c ∈ blanks, isBlank c = true) (text : Text) :
    trim (text ++ blanks) = trim text := by
  rw [trim, trimLeft, List.dropWhile_append]
  by_cases hnil : (text.dropWhile isBlank).isEmpty = true
  · have hblanks : blanks.dropWhile isBlank = [] := List.dropWhile_eq_nil_iff.mpr h
    rw [if_pos hnil, hblanks, trim, trimLeft, List.isEmpty_iff.mp hnil]
  · rw [if_neg hnil, trimRight_append_blank h, trim, trimLeft]

theorem trimmed_of_edges {text : Text} (hne : text ≠ [])
    (hhead : ∀ c ∈ text.head?, isBlank c = false)
    (hlast : ∀ c ∈ text.getLast?, isBlank c = false) : text.Trimmed := by
  constructor
  · rw [List.head?_eq_some_head hne, Option.map_some, hhead _ (List.head?_eq_some_head hne)]
  · rw [List.getLast?_eq_some_getLast hne, Option.map_some,
      hlast _ (List.getLast?_eq_some_getLast hne)]

theorem trimmed_trim {text : Text} (h : trim text ≠ []) : (trim text).Trimmed := by
  obtain ⟨blanks, hleft, -⟩ := trimRight_append text.trimLeft
  refine trimmed_of_edges h (fun c hc => ?_) getLast?_trimRight
  have hhead : c ∈ text.trimLeft.head? := by
    rw [hleft, List.head?_append]
    exact Option.mem_def.mpr (by rw [← trim, Option.mem_def.mp hc, Option.some_or])
  exact head?_dropWhile_stops c hhead

/-- The same edges: both texts are empty, or they begin alike and end alike, with white space or
with something else. Lines stay lines. -/
structure Keeps (a b : Text) : Prop where
  head : a.head?.map isBlank = b.head?.map isBlank
  last : a.getLast?.map isBlank = b.getLast?.map isBlank
  line : '\n' ∈ b → '\n' ∈ a

theorem Keeps.trimmed {a b : Text} (h : Keeps a b) (ha : a.Trimmed) : b.Trimmed :=
  ⟨h.head ▸ ha.1, h.last ▸ ha.2⟩

theorem compositional_keeps : Compositional Keeps where
  refl _ := ⟨rfl, rfl, id⟩
  trans h h' := ⟨h.head.trans h'.head, h.last.trans h'.last, h.line ∘ h'.line⟩
  append {a b a' b'} h h' := by
    have hor : ∀ x y : Option Char, (x.or y).map isBlank = (x.map isBlank).or (y.map isBlank) := by
      intro x y
      cases x <;> rfl
    refine ⟨?_, ?_, ?_⟩
    · rw [List.head?_append, List.head?_append, hor, hor, h.head, h'.head]
    · rw [List.getLast?_append, List.getLast?_append, hor, hor, h.last, h'.last]
    · rw [List.mem_append, List.mem_append]
      exact Or.imp h.line h'.line

end Text

/-! ## Definitions -/

namespace Shortcuts

/-- Shortcuts as definitions introduce them: names and replacements begin and end with something
that is no white space, and a replacement is on one line. -/
def Sound (shortcuts : Shortcuts) : Prop :=
  ∀ shortcut ∈ shortcuts,
    Text.Trimmed shortcut.1 ∧ Text.Trimmed shortcut.2 ∧ '\n' ∉ shortcut.2

theorem sound_nil : Sound [] := fun _ h => nomatch h

/-- No shortcut has an empty name. -/
def Named (shortcuts : Shortcuts) : Prop := ∀ shortcut ∈ shortcuts, shortcut.1 ≠ []

theorem Sound.named {shortcuts : Shortcuts} (h : shortcuts.Sound) : shortcuts.Named :=
  fun shortcut hmem => (h shortcut hmem).1.ne_nil

/-- What holds of every shortcut still does when one is defined of which it holds. -/
theorem forall_mem_define {P : Text × Text → Prop} {shortcuts : Shortcuts}
    {name replacement : Text} (h : ∀ shortcut ∈ shortcuts, P shortcut)
    (hnew : P (name, replacement)) :
    ∀ shortcut ∈ shortcuts.define name replacement, P shortcut := by
  induction shortcuts with
  | nil => exact List.forall_mem_singleton.mpr hnew
  | cons first shortcuts ih =>
    obtain ⟨known, old⟩ := first
    obtain ⟨hfirst, hrest⟩ := List.forall_mem_cons.mp h
    rw [Shortcuts.define]
    split
    · rename_i hsame
      exact List.forall_mem_cons.mpr ⟨hsame ▸ hnew, hrest⟩
    · exact List.forall_mem_cons.mpr ⟨hfirst, ih hrest⟩

theorem Sound.define {shortcuts : Shortcuts} (h : shortcuts.Sound) {name replacement : Text}
    (hname : name.Trimmed) (hreplacement : replacement.Trimmed) (hline : '\n' ∉ replacement) :
    (shortcuts.define name replacement).Sound :=
  forall_mem_define h ⟨hname, hreplacement, hline⟩

/-- A replacement ends where its line ends. -/
theorem suffix_of_readDefinition? {line name replacement : Text}
    (h : readDefinition? line = some (name, replacement)) : replacement <:+ Text.trim line := by
  simp only [readDefinition?, Option.bind_eq_bind, Option.bind_eq_some_iff, Option.guard_eq_some',
    Option.pure_def, Option.some.injEq, Prod.mk.injEq] at h
  obtain ⟨rest, hrest, -, -, -, -, -, -, rfl, rfl⟩ := h
  rw [isPrefixOf?_eq_some_iff.mp hrest]
  exact (List.dropWhile_suffix _).trans ((List.drop_suffix _ _).trans
    ((List.dropWhile_suffix _).trans (List.suffix_append _ _)))

/-- What a definition introduces. -/
theorem readDefinition?_spec {line name replacement : Text}
    (h : readDefinition? line = some (name, replacement)) :
    name.Trimmed ∧ replacement.Trimmed ∧ '\n' ∉ replacement := by
  have hsuffix := suffix_of_readDefinition? h
  simp only [readDefinition?, Option.bind_eq_bind, Option.bind_eq_some_iff, Option.guard_eq_some',
    Option.pure_def, Option.some.injEq, Prod.mk.injEq] at h
  obtain ⟨rest, hrest, -, -, -, hne, -, hline, rfl, rfl⟩ := h
  have hne : Text.trimLeft ((Text.trimLeft rest).drop
      ((Text.trimLeft rest).takeWhile (!isBlank ·)).length) ≠ [] := by simpa using hne
  -- The rest of the line has a first character that is no white space, so there is a name.
  have hname : (Text.trimLeft rest).takeWhile (!isBlank ·) ≠ [] := by
    intro hnil
    have hhead : ∀ c ∈ (Text.trimLeft rest).head?, isBlank c = false := head?_dropWhile_stops
    cases hnamed : Text.trimLeft rest with
    | nil => exact hne (by rw [hnamed]; rfl)
    | cons c named => simp [hnamed, hhead c (by simp [hnamed])] at hnil
  have hnonblank : ∀ c ∈ (Text.trimLeft rest).takeWhile (!isBlank ·), isBlank c = false :=
    fun c hc => by simpa using List.mem_takeWhile_imp hc
  refine ⟨Text.trimmed_of_edges hname (fun c hc => hnonblank c (List.mem_of_head? hc))
      fun c hc => hnonblank c (List.mem_of_getLast? hc),
    Text.trimmed_of_edges hne head?_dropWhile_stops fun c hc => ?_, by simpa using hline⟩
  obtain ⟨front, hfront⟩ := hsuffix
  have hlast : c ∈ (Text.trim line).getLast? := by
    rw [← hfront, List.getLast?_append]
    exact Option.mem_def.mpr (by rw [Option.mem_def.mp hc, Option.some_or])
  exact Text.getLast?_trimRight c hlast

theorem Sound.defineLine {shortcuts : Shortcuts} (h : shortcuts.Sound) (line : Text) :
    (shortcuts.defineLine line).Sound := by
  unfold Shortcuts.defineLine
  cases hread : readDefinition? line with
  | none => exact h
  | some found =>
    obtain ⟨hname, hreplacement, hline⟩ := readDefinition?_spec hread
    exact h.define hname hreplacement hline

/-! ## Expanding -/

variable {shortcuts : Shortcuts}

theorem recognises_words (h : shortcuts.Named) :
    shortcuts.words.Recognises fun _ matched shortcut _ =>
      matched = shortcut.1 ∧ shortcut ∈ shortcuts := by
  have hne : ∀ p ∈ shortcuts.map fun shortcut => (shortcut.1, shortcut), p.1 ≠ [] := by
    intro p hp
    obtain ⟨shortcut, hmem, rfl⟩ := List.mem_map.mp hp
    exact h shortcut hmem
  intro previous text hit hhit
  obtain ⟨matched, after, htext, hwidth, hmatched, hmem, -⟩ :=
    Pattern.recognises_wordPattern hne hhit
  obtain ⟨shortcut, hshortcut, hparts⟩ := List.mem_map.mp hmem
  have hname : shortcut.1 = matched := congrArg Prod.fst hparts
  have hvalue : shortcut = hit.value := congrArg Prod.snd hparts
  exact ⟨matched, after, htext, hwidth, hmatched, by rw [← hname, hvalue], hvalue ▸ hshortcut⟩

/-- What is replaced is a name, by its replacement. -/
theorem recognises_pattern (h : shortcuts.Named) :
    shortcuts.pattern.Recognises fun _ matched value _ => (matched, value) ∈ shortcuts := by
  intro previous text hit hhit
  unfold pattern at hhit
  split at hhit
  · cases hhit
  · rename_i insertion width hwords
    obtain ⟨matched, after, -, -, hne, hmem⟩ := recognises_words h hwords
    exact absurd hmem.1 hne
  · rename_i found _ hwords
    cases hhit
    obtain ⟨matched, after, htext, hwidth, hne, hname, hmem⟩ := recognises_words h hwords
    exact ⟨matched, after, htext, hwidth, hne, by rwa [hname]⟩

/-- Nothing is written behind a line. -/
theorem expand_eq (h : shortcuts.Named) (line : Text) :
    shortcuts.expand line = shortcuts.pattern.replace id line := by
  have hending : shortcuts.words line.getLast? [] = none := by
    by_contra hsome
    obtain ⟨hit, hhit⟩ := Option.ne_none_iff_exists'.mp hsome
    have := (recognises_words h).proper hhit
    simp at this
    omega
  rw [expand, hending, List.append_nil]

/-- Expanding keeps the edges of a line. -/
theorem expand_keeps (h : shortcuts.Sound) (line : Text) :
    Text.Keeps line (shortcuts.expand line) := by
  have hp := recognises_pattern h.named
  rw [expand_eq h.named]
  refine Pattern.replace_related Text.compositional_keeps hp.proper ?_ line
  intro previous matched value after hat
  obtain ⟨hname, hreplacement, hline⟩ := h _ (hp.spec hat)
  exact ⟨hname.1.trans hreplacement.1.symm, hname.2.trans hreplacement.2.symm,
    fun hmem => absurd hmem hline⟩

end Shortcuts

/-! ## Documents -/

namespace Document

/-- Each line with the shortcuts that the definitions in front of it introduce. -/
def withShortcuts (shortcuts : Shortcuts) : List Text → List (Shortcuts × Text)
  | [] => []
  | line :: rest => (shortcuts, line) :: withShortcuts (shortcutsBehind shortcuts line) rest

/-- A line without shortcuts: content as it is expanded, and nothing in place of a definition. -/
def lineWrittenOut (shortcuts : Shortcuts) (line : Text) : Text :=
  match roleOf line with
  | .definition => []
  | .content => shortcuts.expand (Text.trim line)
  | _ => line

/-- Notes with their shortcuts written out. -/
def writeOut (source : Text) : Text :=
  Text.join ['\n'] ((withShortcuts [] (Text.splitOn '\n' source)).map fun (shortcuts, line) =>
    lineWrittenOut shortcuts line)

/-- White space around a line makes no difference. -/
theorem step_congr (settings : Settings) (context : Context) (index : Nat) {a b : Text}
    (h : Text.trim a = Text.trim b) :
    step settings context index a = step settings context index b := by
  simp only [step, h]

theorem run_map (settings : Settings) {f : Text → Text}
    (h : ∀ line, Text.trim (f line) = Text.trim line) (context : Context) (index : Nat)
    (lines : List Text) :
    run settings context index (lines.map f) = run settings context index lines := by
  induction lines generalizing context index with
  | nil => rfl
  | cons line lines ih => simp only [List.map_cons, run_cons, step_congr _ _ _ (h line), ih]

/-- Carriage returns at the ends of lines make no difference. -/
theorem run_sourceLines (settings : Settings) (context : Context) (source : Text) :
    run settings context 0 (sourceLines source) =
      run settings context 0 (Text.splitOn '\n' source) := by
  refine run_map settings (fun line => ?_) context 0 _
  have hline := List.takeWhile_append_dropWhile (p := (· == '\r')) (l := line.reverse)
  have hsplit : line = (line.reverse.dropWhile (· == '\r')).reverse ++
      (line.reverse.takeWhile (· == '\r')).reverse := by
    rw [← List.reverse_append, hline, List.reverse_reverse]
  have hblank : ∀ c ∈ (line.reverse.takeWhile (· == '\r')).reverse, isBlank c = true := by
    intro c hc
    have hreturn := List.mem_takeWhile_imp (p := (· == '\r')) (List.mem_reverse.mp hc)
    rw [beq_iff_eq.mp hreturn]
    decide
  conv => rhs; rw [hsplit]
  exact (Text.trim_append_blank hblank _).symm

theorem roleOf_eq_content_iff {line : Text} :
    roleOf line = .content ↔
      isIgnored (Text.trim line) = false ∧ Shortcuts.isDefinition (Text.trim line) = false ∧
        Heading.ofLine? (Text.trim line) = .ok none ∧ Scopes.isClose (Text.trim line) = false := by
  unfold roleOf
  by_cases hignored : isIgnored (Text.trim line) = true
  · simp [hignored]
  by_cases hdefinition : Shortcuts.isDefinition (Text.trim line) = true
  · simp [hignored, hdefinition]
  cases hheading : Heading.ofLine? (Text.trim line) with
  | error fault => simp [hignored, hdefinition, hheading]
  | ok heading =>
    cases heading with
    | some found => simp [hignored, hdefinition, hheading]
    | none => simp [hignored, hdefinition, hheading]

/-- A text that is content when it stands on a line of its own: no closing brace, no comment, no
definition and no heading. -/
def IsContent (text : Text) : Prop :=
  text ≠ ['}'] ∧ ¬ commentLead <+: text ∧ ¬ Shortcuts.directive <+: text ∧
    Heading.ofLine? text = .ok none

instance (text : Text) : Decidable (IsContent text) := by
  unfold IsContent
  infer_instance

theorem roleOf_of_isContent {text : Text} (htrimmed : text.Trimmed) (h : IsContent text) :
    roleOf text = .content := by
  obtain ⟨hclose, hcomment, hdefinition, hheading⟩ := h
  rw [roleOf_eq_content_iff, htrimmed.trim_eq, Shortcuts.isDefinition, Scopes.isClose,
    htrimmed.trim_eq]
  refine ⟨?_, ?_, hheading, by simpa using hclose⟩
  · simpa [isIgnored, htrimmed.ne_nil, Bool.eq_false_iff, List.isPrefixOf_iff_prefix] using hcomment
  · simpa [Bool.eq_false_iff, List.isPrefixOf_iff_prefix] using hdefinition

theorem trimmed_expand {shortcuts : Shortcuts} (hsound : shortcuts.Sound) {line : Text}
    (h : roleOf line = .content) : (shortcuts.expand (Text.trim line)).Trimmed := by
  have hne : Text.trim line ≠ [] := by
    intro hnil
    simp [roleOf_eq_content_iff, hnil, isIgnored] at h
  exact (Shortcuts.expand_keeps hsound _).trimmed (Text.trimmed_trim hne)

theorem sound_shortcutsBehind {shortcuts : Shortcuts} (h : shortcuts.Sound) (line : Text) :
    (shortcutsBehind shortcuts line).Sound := by
  unfold shortcutsBehind
  split
  · exact h.defineLine _
  · exact h

/-- The contexts at one place of some notes and of the notes with their shortcuts written out. -/
structure Matches (context written : Context) : Prop where
  current : context.table.Current
  current' : written.table.Current
  sound : context.shortcuts.Sound
  empty : written.shortcuts = []
  scopes : written.scopes = context.scopes

section Step

variable {settings : Settings} {context written : Context} (index : Nat) {line text : Text}

/-- Lines of the same role that are compiled to the same give the same. -/
theorem step_of_roleOf_eq (h : Matches context written) (hrole : roleOf text = roleOf line)
    (hne : roleOf line ≠ .definition)
    (hbody : bodyOf settings [] text = bodyOf settings context.shortcuts line) :
    (step settings written index text).2.lines = (step settings context index line).2.lines ∧
      Matches (step settings context index line).1 (step settings written index text).1 := by
  refine ⟨?_, current_step settings index line h.current,
    current_step settings index text h.current', ?_, ?_, ?_⟩
  · rw [step_lines settings index text h.current', step_lines settings index line h.current, hrole,
      h.empty, h.scopes, hbody]
  · rw [step_shortcuts settings index line h.current]
    exact sound_shortcutsBehind h.sound line
  · rw [step_shortcuts settings index text h.current', shortcutsBehind, hrole, if_neg hne, h.empty]
  · rw [step_scopes, step_scopes, hrole, h.scopes]

/-- **Where a line can be compiled, what is written out for it gives the same.** -/
theorem step_lineWrittenOut (h : Matches context written)
    (hfault : faultOf settings context.shortcuts line = none)
    (hcontent : roleOf line = .content → IsContent (context.shortcuts.expand (Text.trim line))) :
    (step settings written index (lineWrittenOut context.shortcuts line)).2.lines =
        (step settings context index line).2.lines ∧
      Matches (step settings context index line).1
        (step settings written index (lineWrittenOut context.shortcuts line)).1 := by
  unfold lineWrittenOut
  cases hrole : roleOf line with
  | definition =>
    -- The definition gives nothing but shortcuts, and the empty line gives nothing at all.
    refine ⟨?_, current_step settings index line h.current, h.current', ?_, ?_, ?_⟩
    · rw [step_lines settings index line h.current, hrole]
      rfl
    · rw [step_shortcuts settings index line h.current]
      exact sound_shortcutsBehind h.sound line
    · exact h.empty
    · rw [step_scopes, step_scopes, hrole]
      exact h.scopes
  | content =>
    have htrimmed := trimmed_expand h.sound hrole
    have hexpanded := roleOf_of_isContent htrimmed (hcontent hrole)
    refine step_of_roleOf_eq index h (hexpanded.trans hrole.symm) (by simp [hrole]) ?_
    -- Nothing is left to expand, and there is LaTeX on both sides.
    unfold faultOf at hfault
    simp only [hrole] at hfault
    simp only [bodyOf, hexpanded, hrole, htrimmed.trim_eq, Shortcuts.expand_nil]
    cases hcompile : Expression.compile settings (context.shortcuts.expand (Text.trim line)) with
    | error fault => simp [hcompile] at hfault
    | ok result => rfl
  | unreadable fault => simp [faultOf, hrole] at hfault
  | _ => exact step_of_roleOf_eq index h rfl (by simp [hrole]) (by simp only [bodyOf, hrole])

end Step

/-- **Notes with their shortcuts written out give the same lines**, from matching contexts on. -/
theorem run_lineWrittenOut {settings : Settings} {context written : Context} (index : Nat)
    {lines : List Text} (h : Matches context written)
    (hok : ∀ output ∈ (run settings context index lines).2, ∀ entry ∈ output.entries,
      entry.kind ≠ .error)
    (hcontent : ∀ p ∈ withShortcuts context.shortcuts lines, roleOf p.2 = .content →
      IsContent (p.1.expand (Text.trim p.2))) :
    let original := run settings context index lines
    let replaced := run settings written index
      ((withShortcuts context.shortcuts lines).map fun (shortcuts, line) =>
        lineWrittenOut shortcuts line)
    replaced.2.flatMap (·.lines) = original.2.flatMap (·.lines) ∧
      Matches original.1 replaced.1 := by
  induction lines generalizing context written index with
  | nil => exact ⟨rfl, h⟩
  | cons line lines ih =>
    simp only [run_cons] at hok
    have hfault : faultOf settings context.shortcuts line = none := by
      have herrors := errors_step settings h.current index line
      rw [List.filter_eq_nil_iff.mpr fun entry hentry => by
        simpa using hok _ List.mem_cons_self entry hentry] at herrors
      cases hsome : faultOf settings context.shortcuts line with
      | none => rfl
      | some fault => simp [hsome] at herrors
    obtain ⟨hlines, hmatches⟩ := step_lineWrittenOut index h hfault
      (hcontent _ List.mem_cons_self)
    have hrest := ih (index + 1) hmatches
      (fun output hmem => hok output (List.mem_cons_of_mem _ hmem))
      (by
        rw [step_shortcuts settings index line h.current]
        exact fun p hp => hcontent p (List.mem_cons_of_mem _ hp))
    rw [step_shortcuts settings index line h.current] at hrest
    simp only [withShortcuts, List.map_cons, run_cons, List.flatMap_cons, hlines]
    exact ⟨by rw [hrest.1], hrest.2⟩

/-! ## The result -/

theorem mem_withShortcuts {shortcuts : Shortcuts} (h : shortcuts.Sound) {lines : List Text}
    {p : Shortcuts × Text} (hp : p ∈ withShortcuts shortcuts lines) : p.1.Sound ∧ p.2 ∈ lines := by
  induction lines generalizing shortcuts with
  | nil => cases hp
  | cons line lines ih =>
    rcases List.mem_cons.mp hp with rfl | hp
    · exact ⟨h, List.mem_cons_self⟩
    · obtain ⟨hsound, hmem⟩ := ih (sound_shortcutsBehind h line) hp
      exact ⟨hsound, List.mem_cons_of_mem _ hmem⟩

theorem newline_not_mem_lineWrittenOut {shortcuts : Shortcuts} (h : shortcuts.Sound) {line : Text}
    (hline : '\n' ∉ line) : '\n' ∉ lineWrittenOut shortcuts line := by
  unfold lineWrittenOut
  split
  · exact List.not_mem_nil
  · exact fun hmem => hline
      ((Text.trim_infix line).subset ((Shortcuts.expand_keeps h _).line hmem))
  · exact hline

/-- The lines of notes with their shortcuts written out. -/
theorem splitOn_writeOut (source : Text) :
    Text.splitOn '\n' (writeOut source) =
      (withShortcuts [] (Text.splitOn '\n' source)).map fun (shortcuts, line) =>
        lineWrittenOut shortcuts line := by
  refine Text.splitOn_join ?_ fun text htext => ?_
  · cases hlines : Text.splitOn '\n' source with
    | nil => exact absurd hlines (Text.splitOn_ne_nil source)
    | cons line lines => exact List.cons_ne_nil _ _
  · obtain ⟨p, hp, rfl⟩ := List.mem_map.mp htext
    obtain ⟨hsound, hmem⟩ := mem_withShortcuts Shortcuts.sound_nil hp
    exact newline_not_mem_lineWrittenOut hsound (Text.not_mem_of_mem_splitOn hmem)

/-- **Shortcuts can be removed.** If no error is reported for some notes, and the lines of content
stay content when they are expanded, then the notes with their shortcuts written out give the same
lines, and define no shortcuts. -/
theorem compile_writeOut (settings : Settings) (source : Text)
    (hok : ∀ entry ∈ (compile settings source).entries, entry.kind ≠ .error)
    (hcontent : ∀ p ∈ withShortcuts [] (Text.splitOn '\n' source), roleOf p.2 = .content →
      IsContent (p.1.expand (Text.trim p.2))) :
    (compile settings (writeOut source)).lines = (compile settings source).lines ∧
      (compile settings (writeOut source)).shortcuts = [] := by
  have houtputs : ∀ output ∈ (run settings (start settings) 0 (Text.splitOn '\n' source)).2,
      ∀ entry ∈ output.entries, entry.kind ≠ .error := by
    rw [← run_sourceLines]
    intro output houtput entry hentry
    obtain ⟨event, hevent, hevententry⟩ := List.mem_filterMap.mp hentry
    refine hok entry (List.mem_filterMap.mpr ⟨event, ?_, hevententry⟩)
    have hmem := List.mem_flatMap.mpr ⟨output, houtput, hevent⟩
    simp only [compile]
    exact List.mem_append_left _ (List.mem_append_left _ (List.mem_cons_of_mem _ hmem))
  have hcurrent : (start settings).table.Current := ShortcutTable.current_of_forgotten rfl
  have hstart : Matches (start settings) (start settings) :=
    ⟨hcurrent, hcurrent, Shortcuts.sound_nil, rfl, rfl⟩
  obtain ⟨hlines, hmatches⟩ := run_lineWrittenOut 0 hstart houtputs hcontent
  simp only [compile, run_sourceLines, splitOn_writeOut]
  exact ⟨hlines, hmatches.empty⟩

theorem compile_writeOut_redefined :
    let source : Text :=
      "#define N n+1\nLemma N \x7b\nN^2\r\n#define M N-1\nM\n#define N k\n(N)/(M)\n\x7d"
    writeOut source = "\nLemma N \x7b\nn+1^2\n\nN-1\n\n(k)/(N-1)\n\x7d" ∧
    ((∀ entry ∈ (compile {} source).entries, entry.kind ≠ .error) ∧
      ∀ p ∈ withShortcuts [] (Text.splitOn '\n' source), roleOf p.2 = .content →
        IsContent (p.1.expand (Text.trim p.2))) ∧
    (compile {} (writeOut source)).lines = (compile {} source).lines ∧
      (compile {} (writeOut source)).shortcuts = [] := by
  intro source
  have hok : ∀ entry ∈ (compile {} source).entries, entry.kind ≠ .error := by decide +kernel
  have hcontent : ∀ p ∈ withShortcuts [] (Text.splitOn '\n' source), roleOf p.2 = .content →
      IsContent (p.1.expand (Text.trim p.2)) := by decide +kernel
  exact ⟨by decide +kernel, ⟨hok, hcontent⟩, compile_writeOut {} source hok hcontent⟩

end Document

end MathNotes
