import MathNotes.Proofs.Passing
import MathNotes.Proofs.WrittenOut

/-!
# Shortcuts are whole words

Shortcuts are defined and lines are expanded in any order (`ShortcutTable.session`).  Whatever the
history, a line is expanded run by run: a longest run of name characters that was defined becomes
what it was defined as last, and everything else stays (`ShortcutTable.session_expand`).  What the
table remembers of earlier lines is current all along (`ShortcutTable.current_session`).

Where a run of name characters starts, a name applies only if it is the whole run
(`Shortcuts.words_of_run`), so it does not matter in which order names are tried.  Inside a run no
name applies, and none applies to other characters.
-/

namespace MathNotes

namespace Shortcuts

/-- A name made of name characters. -/
abbrev Name := { name : Text // name ≠ [] ∧ ∀ c ∈ name, isNameChar c = true }

/-- The longest runs of name characters and of other characters in a line. -/
def runs (line : Text) : List Text := line.splitBy fun c d => isNameChar c == isNameChar d

/-- A run, replaced if it is one of name characters and has a value. -/
def replaceRun (value : Text → Option Text) (run : Text) : Text :=
  if run.all isNameChar then (value run).getD run else run

/-- A line with its runs of name characters replaced that have a value. -/
def replaceRuns (value : Text → Option Text) (line : Text) : Text :=
  (runs line).flatMap (replaceRun value)

/-! ## Runs -/

/-- A run in front of a text that it does not go on in: all of its characters are name characters,
or none is. -/
structure IsRun (named : Bool) (run rest : Text) : Prop where
  ne_nil : run ≠ []
  all : ∀ c ∈ run, isNameChar c = named
  stops : ∀ c ∈ rest.head?, isNameChar c = !named

/-- Every line that is not empty starts with a run. -/
theorem exists_isRun {line : Text} (h : line ≠ []) :
    ∃ named run rest, line = run ++ rest ∧ IsRun named run rest := by
  obtain ⟨c, text, rfl⟩ := List.exists_cons_of_ne_nil h
  refine ⟨isNameChar c, _, _, (List.takeWhile_append_dropWhile
    (p := fun d => isNameChar d == isNameChar c)).symm, ?_, ?_, ?_⟩
  · simp
  · intro d hd
    simpa using List.mem_takeWhile_imp hd
  · intro d hd
    have hstops := head?_dropWhile_stops d hd
    rw [beq_eq_false_iff_ne] at hstops
    exact Bool.eq_not_of_ne hstops

theorem runs_append {named : Bool} {run rest : Text} (h : IsRun named run rest) :
    runs (run ++ rest) = run :: runs rest :=
  splitBy_append_run h.ne_nil h.all h.stops

theorem replaceRuns_append (value : Text → Option Text) {named : Bool} {run rest : Text}
    (h : IsRun named run rest) :
    replaceRuns value (run ++ rest) = replaceRun value run ++ replaceRuns value rest := by
  rw [replaceRuns, runs_append h, List.flatMap_cons, replaceRuns]

/-- A name with something else behind it is the run at the front of a text. -/
theorem eq_run {run rest name after : Text} (h : IsRun true run rest)
    (hname : ∀ c ∈ name, isNameChar c = true) (hafter : ∀ c ∈ after.head?, isNameChar c = false)
    (heq : run ++ rest = name ++ after) : name = run := by
  have hleft : (run ++ rest).takeWhile isNameChar = run := takeWhile_append_stop h.all h.stops
  rw [heq, takeWhile_append_stop hname hafter] at hleft
  exact hleft

/-! ## Where a name applies -/

/-- All names are made of name characters. -/
def Worded (shortcuts : Shortcuts) : Prop :=
  ∀ shortcut ∈ shortcuts, shortcut.1 ≠ [] ∧ ∀ c ∈ shortcut.1, isNameChar c = true

theorem Worded.named {shortcuts : Shortcuts} (h : shortcuts.Worded) : shortcuts.Named :=
  fun shortcut hmem => (h shortcut hmem).1

variable {shortcuts : Shortcuts} {previous : Option Char} {run rest : Text}

/-- At the start of a run, a name applies if it is the run. -/
theorem word_of_run {α : Type} {name : Text} (hname : ∀ c ∈ name, isNameChar c = true)
    (hrun : IsRun true run rest) (value : α) :
    (do
      let after ← name.isPrefixOf? (run ++ rest)
      guard (!after.head?.any isNameChar)
      return (⟨value, name.length⟩ : Hit α)) =
      if run = name then some ⟨value, run.length⟩ else none := by
  by_cases hsame : run = name
  · subst hsame
    have hstops : rest.head?.any isNameChar = false := by
      rw [Option.any_eq_false]
      exact hrun.stops
    simp [isPrefixOf?_append, hstops]
  · rw [if_neg hsame]
    cases hafter : name.isPrefixOf? (run ++ rest) with
    | none => rfl
    | some after =>
      have hfollows : after.head?.any isNameChar = true := by
        by_contra hstops
        rw [Bool.not_eq_true, Option.any_eq_false] at hstops
        exact hsame (eq_run hrun hname hstops (isPrefixOf?_eq_some_iff.mp hafter)).symm
      simp [hfollows]

/-- **A name applies to a whole run**, so the order of names does not matter. -/
theorem words_of_run (h : shortcuts.Worded) (hprevious : previous.any isNameChar = false)
    (hrun : IsRun true run rest) :
    shortcuts.words previous (run ++ rest) =
      (shortcuts.lookup run).map fun value => ⟨(run, value), run.length⟩ := by
  rw [words, wordPattern, if_neg (by simp [hprevious]), List.findSome?_map]
  induction shortcuts with
  | nil => rfl
  | cons first shortcuts ih =>
    obtain ⟨name, value⟩ := first
    obtain ⟨⟨-, hname⟩, hrest⟩ := List.forall_mem_cons.mp h
    have hword := word_of_run hname hrun (name, value)
    rw [List.findSome?_cons, List.lookup_cons]
    simp only [Function.comp_apply]
    rw [hword]
    by_cases hsame : run = name
    · subst hsame
      simp
    · rw [if_neg hsame, beq_eq_false_iff_ne.mpr hsame]
      exact ih hrest

theorem pattern_eq (h : shortcuts.Named) (previous : Option Char) (text : Text) :
    shortcuts.pattern previous text =
      (shortcuts.words previous text).map fun hit => ⟨hit.value.2, hit.width⟩ := by
  rw [pattern]
  cases hwords : shortcuts.words previous text with
  | none => rfl
  | some hit =>
    obtain ⟨⟨name, replacement⟩, width⟩ := hit
    obtain ⟨matched, after, -, -, hne, hname, -⟩ := recognises_words h hwords
    cases name with
    | nil => exact absurd hname hne
    | cons c name => rfl

/-- No name goes on inside a run. -/
theorem words_of_name {c : Char} (hc : isNameChar c = true) (text : Text) :
    shortcuts.words (some c) text = none := by
  rw [words, wordPattern, if_pos (by simpa using hc)]

/-- No name starts with another character. -/
theorem words_of_other (h : shortcuts.Worded) {c : Char} (hc : isNameChar c = false) (text : Text) :
    shortcuts.words previous (c :: text) = none := by
  by_contra hne
  obtain ⟨hit, hhit⟩ := Option.ne_none_iff_exists'.mp hne
  obtain ⟨matched, after, htext, -, hmatched, rfl, hmem⟩ := recognises_words h.named hhit
  obtain ⟨d, name, hname⟩ := List.exists_cons_of_ne_nil hmatched
  have hd := (h _ hmem).2 d (by simp [hname])
  rw [hname] at htext
  obtain ⟨rfl, -⟩ := List.cons.inj htext
  rw [hc] at hd
  cases hd

theorem lookup_of_other (h : shortcuts.Worded) (hrun : IsRun false run rest) :
    shortcuts.lookup run = none := by
  rw [List.lookup_eq_none_iff]
  intro shortcut hmem
  rw [bne_iff_ne]
  rintro rfl
  obtain ⟨c, hc⟩ := List.exists_mem_of_ne_nil _ hrun.ne_nil
  have hname := (h shortcut hmem).2 c hc
  rw [hrun.all c hc] at hname
  cases hname

/-- A run that is not defined is passed over. -/
theorem misses_run (h : shortcuts.Worded) {named : Bool} (hrun : IsRun named run rest)
    (hprevious : named = true → previous.any isNameChar = false)
    (hlookup : shortcuts.lookup run = none) : shortcuts.pattern.Misses previous run rest := by
  cases named with
  | false =>
    refine Pattern.misses_of_forall fun c hc previous text => ?_
    rw [pattern_eq h.named, words_of_other h (hrun.all c hc), Option.map_none]
  | true =>
    have hinside : ∀ (run : Text) (c : Char), isNameChar c = true →
        (∀ d ∈ run, isNameChar d = true) → shortcuts.pattern.Misses (some c) run rest := by
      intro run
      induction run with
      | nil => exact fun _ _ _ => Pattern.misses_nil
      | cons d run ih =>
        intro c hc hall
        obtain ⟨hd, hall⟩ := List.forall_mem_cons.mp hall
        exact ⟨by rw [pattern_eq h.named, words_of_name hc, Option.map_none], ih d hd hall⟩
    obtain ⟨c, run, rfl⟩ := List.exists_cons_of_ne_nil hrun.ne_nil
    obtain ⟨hc, hall⟩ := List.forall_mem_cons.mp hrun.all
    refine ⟨?_, hinside run c hc hall⟩
    rw [← List.cons_append, pattern_eq h.named, words_of_run h (hprevious rfl) hrun, hlookup]
    rfl

/-! ## Expanding -/

/-- **One run**: it is replaced if it is defined, and reading goes on behind it. -/
theorem write_run (h : shortcuts.Worded) {named : Bool} (hrun : IsRun named run rest)
    (hprevious : named = true → previous.any isNameChar = false) :
    (shortcuts.pattern.piecesFrom previous 0 (run ++ rest)).flatMap (Piece.write id) =
      replaceRun (fun word => shortcuts.lookup word) run ++
        (shortcuts.pattern.piecesFrom run.getLast? 0 rest).flatMap (Piece.write id) := by
  cases hlookup : shortcuts.lookup run with
  | none =>
    have hlast : run.getLast?.or previous = run.getLast? := by
      rw [List.getLast?_eq_some_getLast hrun.ne_nil, Option.some_or]
    have hkept : replaceRun (fun word => shortcuts.lookup word) run = run := by
      simp [replaceRun, hlookup]
    rw [Pattern.piecesFrom_pass (misses_run h hrun hprevious hlookup), List.flatMap_append,
      Piece.flatMap_write_chars, hlast, hkept]
  | some value =>
    have hnamed : named = true := by
      by_contra hother
      rw [Bool.not_eq_true] at hother
      subst hother
      rw [lookup_of_other h hrun] at hlookup
      cases hlookup
    subst hnamed
    have hhit : shortcuts.pattern.HitsAt previous run value rest := by
      refine ⟨?_, hrun.ne_nil⟩
      rw [pattern_eq h.named, words_of_run h (hprevious rfl) hrun, hlookup]
      rfl
    have hreplaced : replaceRun (fun word => shortcuts.lookup word) run = value := by
      rw [replaceRun, if_pos (List.all_eq_true.mpr hrun.all), hlookup, Option.getD_some]
    rw [Pattern.piecesFrom_of_hitsAt hhit, List.flatMap_cons, hreplaced]
    rfl

/-- **A whole line**, run by run. -/
theorem write_runs (h : shortcuts.Worded) (line : Text) (previous : Option Char)
    (hprevious : ∀ c ∈ line.head?, isNameChar c = true → previous.any isNameChar = false) :
    (shortcuts.pattern.piecesFrom previous 0 line).flatMap (Piece.write id) =
      replaceRuns (fun word => shortcuts.lookup word) line := by
  induction hlength : line.length using Nat.strongRecOn generalizing line previous with
  | ind n ih =>
    by_cases hnil : line = []
    · subst hnil
      rfl
    · obtain ⟨named, run, rest, rfl, hrun⟩ := exists_isRun hnil
      have hfirst : named = true → previous.any isNameChar = false := by
        rintro rfl
        obtain ⟨c, text, rfl⟩ := List.exists_cons_of_ne_nil hrun.ne_nil
        exact hprevious c rfl (hrun.all c List.mem_cons_self)
      have hnext : ∀ c ∈ rest.head?, isNameChar c = true → run.getLast?.any isNameChar = false := by
        intro c hc hname
        rw [hrun.stops c hc, Bool.not_eq_true'] at hname
        rw [Option.any_eq_false]
        intro d hd
        rw [hrun.all d (List.mem_of_getLast? hd), hname]
      have hshorter : rest.length < n := by
        have := List.length_pos_iff.mpr hrun.ne_nil
        rw [← hlength, List.length_append]
        omega
      rw [write_run h hrun hfirst, replaceRuns_append _ hrun, ih _ hshorter rest _ hnext rfl]

/-- Expanding replaces the runs that are defined. -/
theorem expand_eq_replaceRuns (h : shortcuts.Worded) (line : Text) :
    shortcuts.expand line = replaceRuns (fun word => shortcuts.lookup word) line := by
  rw [expand_eq h.named]
  exact write_runs h line none fun _ _ _ => rfl

/-! ## Histories -/

theorem lookup_define (shortcuts : Shortcuts) (name replacement word : Text) :
    (shortcuts.define name replacement).lookup word =
      if name = word then some replacement else shortcuts.lookup word := by
  induction shortcuts with
  | nil =>
    rw [define, List.lookup_cons]
    by_cases hword : name = word
    · simp [hword]
    · rw [if_neg hword, beq_eq_false_iff_ne.mpr (Ne.symm hword)]
  | cons first shortcuts ih =>
    obtain ⟨known, old⟩ := first
    rw [define]
    by_cases hknown : known = name
    · rw [if_pos hknown, List.lookup_cons, List.lookup_cons, hknown]
      by_cases hword : name = word
      · simp [hword]
      · rw [if_neg hword, beq_eq_false_iff_ne.mpr (Ne.symm hword)]
    · rw [if_neg hknown, List.lookup_cons, List.lookup_cons, ih]
      by_cases hword : word = known
      · subst hword
        simp [Ne.symm hknown]
      · simp [beq_eq_false_iff_ne.mpr hword]

end Shortcuts

namespace ShortcutTable

/-- What a table is asked for: to learn one more shortcut, or to expand a line. -/
inductive Request where
  | define (name : Shortcuts.Name) (replacement : Text)
  | expand (line : Text)

/-- The table behind a request, and the answers that it gives. -/
def answer (table : ShortcutTable) : Request → ShortcutTable × List (Except Fault Text)
  | .define name replacement => (table.define name.val replacement, [])
  | .expand line =>
    let (expanded, table) := table.expand line
    (table, [expanded])

/-- The table behind requests that follow each other, and the answers that these give. -/
def session (table : ShortcutTable) : List Request → ShortcutTable × List (Except Fault Text)
  | [] => (table, [])
  | request :: requests =>
    let (table, answers) := table.answer request
    let (table, more) := session table requests
    (table, answers ++ more)

/-- What a word was defined as last. -/
def latest (history : List Request) (word : Text) : Option Text :=
  history.reverse.findSome? fun
    | .define name replacement => if name.val = word then some replacement else none
    | .expand _ => none

theorem session_append (table : ShortcutTable) (requests more : List Request) :
    table.session (requests ++ more) =
      (((table.session requests).1.session more).1,
        (table.session requests).2 ++ ((table.session requests).1.session more).2) := by
  induction requests generalizing table with
  | nil => rfl
  | cons request requests ih =>
    simp only [List.cons_append, session, ih, List.append_assoc]

variable {table : ShortcutTable}

/-- **What the table remembers stays current**, whatever is asked for. -/
theorem current_session (h : table.Current) (requests : List Request) :
    (table.session requests).1.Current := by
  induction requests generalizing table with
  | nil => exact h
  | cons request requests ih =>
    cases request with
    | define name replacement => exact ih (current_define name.val replacement table)
    | expand line => exact ih (h.expand line)

theorem worded_session (h : table.shortcuts.Worded) (requests : List Request) :
    (table.session requests).1.shortcuts.Worded := by
  induction requests generalizing table with
  | nil => exact h
  | cons request requests ih =>
    cases request with
    | define name replacement => exact ih (Shortcuts.forall_mem_define h name.2)
    | expand line =>
      have hexpand : (table.expand line).2.shortcuts.Worded := by rwa [shortcuts_expand]
      exact ih hexpand

/-- **The last definition counts.** -/
theorem lookup_session (history : List Request) (word : Text) :
    (session {} history).1.shortcuts.lookup word = latest history word := by
  induction history using List.reverseRecOn with
  | nil => rfl
  | append_singleton history request ih =>
    rw [session_append, latest, List.reverse_append, List.reverse_singleton,
      List.singleton_append, List.findSome?_cons, ← latest, ← ih]
    cases request with
    | define name replacement =>
      simp only [session, answer, define]
      rw [Shortcuts.lookup_define]
      by_cases hword : name.val = word
      · rw [if_pos hword, if_pos hword]
      · rw [if_neg hword, if_neg hword]
    | expand line => simp only [session, answer, shortcuts_expand]

/-- **Expanding replaces whole words**, whatever was defined and expanded before: every longest run
of name characters that was defined becomes what it was defined as last, and what it becomes is not
looked at again. -/
theorem session_expand (history : List Request) (line : Text) :
    (session {} (history ++ [.expand line])).2 =
      (session {} history).2 ++ [.ok (Shortcuts.replaceRuns (latest history) line)] := by
  have hcurrent : (session {} history).1.Current :=
    current_session (current_of_forgotten rfl) history
  have hnone : ({} : ShortcutTable).shortcuts.Worded := List.forall_mem_nil _
  have hworded : (session {} history).1.shortcuts.Worded := worded_session hnone history
  have hlatest : (fun word => (session {} history).1.shortcuts.lookup word) = latest history :=
    funext (lookup_session history)
  rw [session_append, ← hlatest, ← Shortcuts.expand_eq_replaceRuns hworded, ← hcurrent.expand_eq]
  rfl

end ShortcutTable

end MathNotes
