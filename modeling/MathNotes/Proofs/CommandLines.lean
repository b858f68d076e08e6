import MathNotes.Proofs.CommandWords
import MathNotes.Proofs.LevelLines

/-!
# The commands of a line

Which commands the LaTeX of a line may hold (`Vocabulary.of`), and how lines are written with them.

* The commands of the tables and of the constructs are `listedCommands`.  Some of them are left
  open: what follows the construct may run into them (`openEnded`).
* A line holds commands itself where a constant was replaced or inside the braces of a set
  (`hostCommands`); an exponent can cut the last letter off, and prose can hold their backslash.
* A line is covered by its vocabulary (`Vocabulary.Covers`) when its backslashes are, when braces
  come with the commands of sets, and the words of open-ended constructs with their commands.

A covered line stays covered while it is rewritten, and it is segmented into LaTeX that is spelt
with the vocabulary (`Vocabulary.Covers.spelt_segmentLine`).
-/

namespace MathNotes

/-! ## The vocabulary of a line -/

/-- The commands of a text: the letters behind its backslashes. -/
def Text.controlWords : Text → List Text
  | [] => []
  | c :: rest =>
    if c = '\\' ∧ rest.takeWhile Char.isAlpha ≠ [] then
      rest.takeWhile Char.isAlpha :: controlWords rest
    else controlWords rest

theorem Text.alpha_of_mem_controlWords {text name : Text} (h : name ∈ text.controlWords) :
    name ≠ [] ∧ ∀ c ∈ name, c.isAlpha = true := by
  induction text with
  | nil => cases h
  | cons c rest ih =>
    rw [controlWords] at h
    split at h
    · rename_i hc
      rcases List.mem_cons.mp h with rfl | h
      · exact ⟨hc.2, fun c hc => List.mem_takeWhile_imp hc⟩
      · exact ih h
    · exact ih h

/-- The LaTeX that constructs are written with. -/
def templates : List Text :=
  (Symbol.functionNames.map fun name => '\\' :: name ++ ['(']) ++
  (["\\sqrt\x7b", "\\vec\x7b", "\\lfloor ", " \\rfloor", "\\lceil ", " \\rceil", "\\binom\x7b",
    "\\int", "\\sum", "\\lim", " \\to ", "\\langle ", ",\\; ", " \\rangle", "\\\x7b", "\\\x7d",
    " \\mid ", "\\left|", "\\right|", "\\frac\x7b", "\\pm", "\\mp"] : List Text)

/-- The commands of the tables and of the constructs, and the command of prose. -/
def listedCommands : List Text :=
  "text".toList :: (templates.flatMap Text.controlWords ++
    (Symbol.tokens ++ Symbol.constants ++ Symbol.operators ++ Symbol.names).flatMap
      fun p => Text.controlWords p.2)

/-- The commands that constants and set words are replaced by before a line is segmented. -/
def hostCommands : List Text := ["pi", "infty", "mathbb", "in", "notin", "subset", "cup", "cap"]

/-- The words and signs of constructs whose LaTeX may end in a command or have one in front of any
letter, with that command. -/
def openEnded : List (Text × Text) :=
  [("floor", "rfloor"), ("ceil", "rceil"), ("<", "rangle"), ("integral", "int"), ("sum", "sum"),
    ("lim", "lim"), ("integral", "pm"), ("sum", "pm"), ("lim", "pm"), ("integral", "mp"),
    ("sum", "mp"), ("lim", "mp")]

/-- Whether a line may come to hold commands before it is segmented. -/
def Text.HoldsCommands (source : Text) : Prop := '{' ∈ source ∨ "Math.".toList <:+: source

instance (source : Text) : Decidable source.HoldsCommands :=
  inferInstanceAs (Decidable ('{' ∈ source ∨ "Math.".toList <:+: source))

namespace Vocabulary

theorem listed_alpha {name : Text} (h : name ∈ listedCommands) :
    name ≠ [] ∧ ∀ c ∈ name, c.isAlpha = true := by
  rw [listedCommands, List.mem_cons, List.mem_append, List.mem_flatMap, List.mem_flatMap] at h
  rcases h with rfl | ⟨text, -, h⟩ | ⟨p, -, h⟩
  · decide
  · exact Text.alpha_of_mem_controlWords h
  · exact Text.alpha_of_mem_controlWords h

theorem hosts_listed : ∀ name ∈ hostCommands, name ∈ listedCommands := by decide +kernel

/-- **What may follow a backslash in the LaTeX of a line.** -/
def of (source : Text) : Vocabulary where
  signs := "\x7b\x7d%#&$ ;".toList
  commands := listedCommands ++
    if source.HoldsCommands then "textbackslash".toList :: hostCommands.map List.dropLast else []
  hosts := if source.HoldsCommands then hostCommands else []
  loose := (openEnded.filter fun p => p.1 <:+: source).map (·.2)
  sign := by decide
  alpha name h := by
    have hcut : ∀ name ∈ "textbackslash".toList :: hostCommands.map List.dropLast,
        name ≠ [] ∧ ∀ c ∈ name, c.isAlpha = true := by decide
    have hopen : ∀ p ∈ openEnded, p.2 ≠ [] ∧ ∀ c ∈ p.2, c.isAlpha = true := by decide
    rcases List.mem_append.mp h with h | h
    · rcases List.mem_append.mp h with h | h
      · exact listed_alpha h
      · split at h
        · exact hcut name h
        · cases h
    · rcases List.mem_append.mp h with h | h
      · split at h
        · exact listed_alpha (hosts_listed name h)
        · cases h
      · obtain ⟨p, hp, rfl⟩ := List.mem_map.mp h
        exact hopen p (List.mem_of_mem_filter hp)
  hosts_subset := by
    split
    · exact fun name h => List.mem_append_left _ (hosts_listed name h)
    · exact List.nil_subset _

variable {source : Text} {F F' : Fragments}

theorem signs_of (source : Text) : (of source).signs = "\x7b\x7d%#&$ ;".toList := rfl

theorem mem_commands_of_listed {name : Text} (h : name ∈ listedCommands) :
    name ∈ (of source).commands :=
  List.mem_append_left _ h

/-- **The vocabulary covers a line.** -/
structure Covers (source : Text) (F : Fragments) (line : Text) : Prop where
  reads : line.Spelt ((of source).lines.Reads F) []
  braces : '{' ∈ line → source.HoldsCommands
  words : ∀ p ∈ openEnded, p.1 <:+: line → p.1 <:+: source

namespace Covers

variable {line : Text}

theorem mono (h : Covers source F line) (hF : F <+: F') : Covers source F' line :=
  ⟨h.reads.mono fun _ hr => hr.mono hF, h.braces, h.words⟩

/-- Where a backslash stands in the line, it may hold commands. -/
theorem holdsCommands (h : Covers source F line) (hslash : '\\' ∈ line) :
    source.HoldsCommands := by
  obtain ⟨a, r, rfl⟩ := List.append_of_mem hslash
  have hread := h.reads a r rfl
  rw [List.append_nil] at hread
  by_contra hnone
  have hhosts : (of source).lines.hosts = [] := if_neg hnone
  rcases hread with ⟨c, hc, hsign⟩ | ⟨name, hname, -⟩ | hword
  · obtain rfl : c = '{' := List.mem_singleton.mp hsign
    exact hnone (h.braces (by simp [List.mem_of_mem_head? hc]))
  · cases hname
  · have hcommands : (of source).lines.commands = [] := hhosts
    generalize Text.nameRun r = word at hword
    cases hword with
    | whole hname =>
      rw [hcommands] at hname
      cases hname
    | filled _ hfits =>
      rcases hfits with ⟨hname, -⟩ | ⟨c, hname, -⟩
      · rw [hcommands] at hname
        cases hname
      · rw [hhosts] at hname
        cases hname

/-- A part of a line in front of a sign that is no brace. -/
theorem part {a b c : Text} (h : Covers source F (a ++ (b ++ c)))
    (hc : ∀ d ∈ c.head?, isNameChar d = false ∧ d ≠ '{') : Covers source F b := by
  have hpart : b <:+: a ++ (b ++ c) := ⟨a, c, by simp⟩
  refine ⟨?_, fun hbrace => h.braces (hpart.subset hbrace),
    fun p hp hword => h.words p hp (hword.trans hpart)⟩
  rintro x r rfl
  have hread := h.reads (a ++ x) (r ++ c) (by simp)
  rw [List.append_nil] at hread
  have hr : r ≠ [] := by
    rintro rfl
    obtain ⟨d, hd, hsign | hname⟩ := hread.exists_head
    · exact (hc d hd).2 (List.mem_singleton.mp hsign)
    · rw [(hc d hd).1] at hname
      cases hname
  exact hread.exchange hr (fun d hd => (hc d hd).1) Text.stops_nil

theorem trim (h : Covers source F line) : Covers source F (Text.trim line) := by
  obtain ⟨x, hx, -⟩ := Text.trimLeft_append line
  obtain ⟨y, hy, hblank⟩ := Text.trimRight_append line.trimLeft
  rw [hx, hy] at h
  refine h.part fun d hd => ?_
  have hd := hblank d (List.mem_of_mem_head? hd)
  refine ⟨isNameChar_of_isBlank hd, ?_⟩
  rintro rfl
  exact absurd hd (by decide)

end Covers

/-- What may follow a backslash in a line may follow it in LaTeX. -/
theorem Reads.of_lines {rest : Text} (h : (of source).lines.Reads F rest) :
    (of source).Reads F rest := by
  rcases h with ⟨c, hc, hsign⟩ | ⟨name, hname, -⟩ | hword
  · obtain rfl : c = '{' := List.mem_singleton.mp hsign
    exact .inl ⟨'{', hc, by rw [signs_of]; decide⟩
  · cases hname
  · refine .inr (.inr ?_)
    generalize rest.nameRun = word at hword
    cases hword with
    | whole hname => exact .whole ((of source).hosts_subset hname)
    | filled hn hfits =>
      exact .filled hn (hfits.imp (fun h => ⟨(of source).hosts_subset h.1, h.2⟩) id)

/-! ## Fixed texts -/

/-- A command that ends behind its name. -/
theorem reads_command {V : Vocabulary} {name rest : Text} (h : name ∈ V.commands)
    (hrest : rest.Stops) : V.Reads F (name ++ rest) := by
  have halpha := (V.alpha name (List.mem_append_left _ h)).2
  refine .inr (.inr ?_)
  rw [Text.nameRun_append_of_names fun c hc => isNameChar_of_isAlpha (halpha c hc),
    Text.nameRun_of_stops hrest, List.append_nil]
  exact .whole h

/-- Behind a text that ends in a sign, anything may follow. -/
theorem Reads.append {V : Vocabulary} {r : Text} (h : V.Reads F r)
    (hlast : ∃ c ∈ r.getLast?, isNameChar c = false) (rest : Text) : V.Reads F (r ++ rest) := by
  obtain ⟨c, hc, hsign⟩ := hlast
  have hne : r ≠ [] := by
    rintro rfl
    cases hc
  rcases h with ⟨d, hd, hmem⟩ | ⟨name, hname, hlead⟩ | hword
  · exact .inl ⟨d, by rwa [List.head?_append_of_ne_nil _ hne], hmem⟩
  · exact .inr (.inl ⟨name, hname, hlead.trans (List.prefix_append _ _)⟩)
  · refine .inr (.inr ?_)
    rwa [Text.nameRun_append_of_sign ⟨c, List.mem_of_getLast? hc, hsign⟩]

end Vocabulary

namespace Text

/-- Whether every backslash of the text has a sign or letters behind it, and the letters are all of
a name. -/
def wellSpelt (signs : List Char) : Text → Bool
  | [] => true
  | c :: rest =>
    (c != '\\' || rest.head?.any signs.contains ||
      (rest.takeWhile Char.isAlpha != [] && nameRun rest == rest.takeWhile Char.isAlpha)) &&
      wellSpelt signs rest

variable {V : Vocabulary} {F : Fragments} {text out : Text}

/-- A text that is well spelt with listed commands. -/
theorem spelt_of_wellSpelt (h : text.wellSpelt V.signs = true)
    (hwords : ∀ name ∈ text.controlWords, name ∈ V.commands) (hout : out.Stops) :
    text.Spelt (V.Reads F) out := by
  induction text with
  | nil => exact spelt_nil
  | cons c rest ih =>
    rw [wellSpelt, Bool.and_eq_true] at h
    have hrest : ∀ name ∈ controlWords rest, name ∈ V.commands := by
      intro name hname
      refine hwords name ?_
      rw [controlWords]
      split
      · exact List.mem_cons_of_mem _ hname
      · exact hname
    by_cases hc : c = '\\'
    · subst hc
      refine spelt_backslash.mpr ⟨?_, ih h.2 hrest⟩
      simp only [bne_self_eq_false, Bool.false_or, Bool.or_eq_true, Bool.and_eq_true, bne_iff_ne,
        beq_iff_eq] at h
      rcases h.1 with hsign | ⟨hne, hrun⟩
      · cases rest with
        | nil => cases hsign
        | cons d rest => exact .inl ⟨d, rfl, by simpa using hsign⟩
      · refine .inr (.inr ?_)
        rw [nameRun_append_of_stops hout, hrun]
        exact .whole (hwords _ (by simp [controlWords, hne]))
    · exact (spelt_cons hc).mpr (ih h.2 hrest)

/-- A text that is well spelt and ends in a sign, whatever follows it. -/
theorem spelt_closed (h : text.wellSpelt V.signs = true)
    (hwords : ∀ name ∈ text.controlWords, name ∈ V.commands)
    (hlast : ∃ c ∈ text.getLast?, isNameChar c = false) (out : Text) :
    text.Spelt (V.Reads F) out := by
  rintro a r rfl
  have hread := spelt_of_wellSpelt (F := F) h hwords stops_nil a r rfl
  rw [List.append_nil] at hread
  refine hread.append ?_ out
  cases r with
  | nil =>
    obtain ⟨d, hd, -⟩ := hread.exists_head
    cases hd
  | cons c r => simpa using hlast

end Text

/-! ## Segments -/

namespace Segment

open Vocabulary (of)

variable {source : Text} {F : Fragments} {content b out : Text}

theorem nameRun_escapeMath (content : Text) :
    Text.nameRun (escapeMath content) = Text.nameRun content := by
  have hspecial : ∀ c ∈ "%#&$".toList, isNameChar c = false := by decide
  induction content with
  | nil => rfl
  | cons c content ih =>
    rw [show escapeMath (c :: content) = escapeMathChar c ++ escapeMath content from rfl,
      escapeMathChar]
    split
    · rename_i hc
      have hsign := hspecial c (List.contains_iff_mem.mp hc)
      rw [Text.nameRun_of_stops (Text.stops_cons.mpr hsign)]
      exact Text.nameRun_of_stops (Text.stops_cons.mpr (by decide))
    · by_cases hc : isNameChar c = true
      · have hnames : ∀ d ∈ [c], isNameChar d = true := by simpa using hc
        rw [Text.nameRun_append_of_names hnames, ih, ← Text.nameRun_append_of_names hnames,
          List.singleton_append]
      · have hstops : ∀ text, Text.Stops (c :: text) := fun _ =>
          Text.stops_cons.mpr (by simpa using hc)
        rw [List.singleton_append, Text.nameRun_of_stops (hstops _),
          Text.nameRun_of_stops (hstops _)]

/-- What follows a token in the line may be replaced by what follows it in the LaTeX: no name goes
on in it, and a brace behind a backslash stays. -/
structure Passes (b out : Text) : Prop where
  stops : b.Stops
  stops' : out.Stops
  brace : b.head? = some '{' → out.head? = some '{'

theorem Passes.reads_nil (h : Passes b out) (hread : (of source).lines.Reads F b) :
    (of source).Reads F out := by
  obtain ⟨c, hc, hsign | hname⟩ := hread.exists_head
  · obtain rfl : c = '{' := List.mem_singleton.mp hsign
    exact .inl ⟨'{', h.brace hc, by rw [Vocabulary.signs_of]; decide⟩
  · rw [h.stops c hc] at hname
    cases hname

theorem Passes.spelt (h : Passes b out) (hspelt : content.Spelt ((of source).lines.Reads F) b) :
    content.Spelt ((of source).Reads F) out := by
  refine hspelt.exchange fun r hread => ?_
  by_cases hr : r = []
  · rw [hr] at hread ⊢
    exact h.reads_nil hread
  · exact (hread.exchange hr h.stops h.stops').of_lines

/-- Escaping adds backslashes in front of signs only. -/
theorem spelt_escapeMath {P : Text → Prop} (hspelt : content.Spelt P b)
    (hP : ∀ r, P (r ++ b) → (of source).Reads F (escapeMath r ++ out)) :
    (escapeMath content).Spelt ((of source).Reads F) out := by
  have hspecial : ∀ c ∈ "%#&$".toList, c ∈ "\x7b\x7d%#&$ ;".toList ∧ '\\' ∉ [c] := by decide
  induction content with
  | nil => exact Text.spelt_nil
  | cons c content ih =>
    have hcons : Text.Spelt P ([c] ++ content) b := hspelt
    rw [show escapeMath (c :: content) = escapeMathChar c ++ escapeMath content from rfl]
    refine Text.spelt_append.mpr ⟨?_, ih (Text.spelt_append.mp hcons).2⟩
    rw [escapeMathChar]
    split
    · rename_i hc
      obtain ⟨hsign, hslash⟩ := hspecial c (List.contains_iff_mem.mp hc)
      exact Text.spelt_backslash.mpr ⟨.inl ⟨c, rfl, hsign⟩, Text.spelt_of_notMem hslash⟩
    · by_cases hc : c = '\\'
      · subst hc
        exact Text.spelt_backslash.mpr
          ⟨hP content (Text.spelt_backslash.mp hspelt).1, Text.spelt_nil⟩
      · exact Text.spelt_of_notMem (by simpa using fun h => hc h.symm)

/-- Escaping leaves what follows a backslash as it is. -/
theorem Passes.reads_escapeMath (h : Passes b out) {r : Text}
    (hread : (of source).lines.Reads F (r ++ b)) : (of source).Reads F (escapeMath r ++ out) := by
  cases r with
  | nil => exact h.reads_nil hread
  | cons d r =>
    rcases hread with ⟨e, he, hsign⟩ | ⟨name, hname, -⟩ | hword
    · obtain rfl : d = e := by simpa using he
      obtain rfl : d = '{' := List.mem_singleton.mp hsign
      exact .inl ⟨'{', rfl, by rw [Vocabulary.signs_of]; decide⟩
    · cases hname
    · refine Vocabulary.Reads.of_lines (.inr (.inr ?_))
      rw [Text.nameRun_append_of_stops h.stops] at hword
      rwa [Text.nameRun_append_of_stops h.stops', nameRun_escapeMath]

/-- What is written behind a formula starts like the first of these segments. -/
def Continues : List Segment → Text → Prop
  | math content :: _, out =>
    if operatorCommands.contains content then out.Stops else out.head? = content.head?
  | _, out => out.Stops

/-- Prose that is written with the vocabulary of a line. -/
def IsProse (source content : Text) : Prop :=
  '_' ∉ content ∧ ('\\' ∈ content → source.HoldsCommands)

/-- **Segments that are written with the vocabulary of a line**: what is written for each of them is
spelt with it, in front of what is written for the next ones. -/
inductive Fluent (source : Text) (F : Fragments) : List Segment → Prop
  | nil : Fluent source F []
  | space {blanks : Text} {rest : List Segment} (more : Fluent source F rest) :
      Fluent source F (space blanks :: rest)
  | text {content : Text} {rest : List Segment} (h : IsProse source content)
      (more : Fluent source F rest) : Fluent source F (text content :: rest)
  | operator {content : Text} {rest : List Segment} (hop : operatorCommands.contains content = true)
      (h : ∀ out, out.Stops → content.Spelt ((of source).Reads F) out)
      (more : Fluent source F rest) : Fluent source F (math content :: rest)
  | math {content : Text} {rest : List Segment} (hne : content ≠ [])
      (hop : operatorCommands.contains content = false)
      (h : ∀ out, Continues rest out → content.Spelt ((of source).Reads F) out)
      (more : Fluent source F rest) : Fluent source F (math content :: rest)

theorem continues_mergeText (segments : List Segment) (out : Text) :
    Continues (mergeText segments) out ↔ Continues segments out := by
  rcases segments with _ | ⟨_ | _ | _, rest⟩
  · rfl
  · rw [mergeText, consText]
    split <;> rfl
  · rfl
  · rfl

variable {segments rest : List Segment}

theorem Fluent.suffix (h : Fluent source F segments) (hrest : rest <:+ segments) :
    Fluent source F rest := by
  induction h with
  | nil =>
    rw [List.suffix_nil.mp hrest]
    exact .nil
  | space more ih =>
    rcases List.suffix_cons_iff.mp hrest with rfl | hrest
    · exact .space more
    · exact ih hrest
  | text h more ih =>
    rcases List.suffix_cons_iff.mp hrest with rfl | hrest
    · exact .text h more
    · exact ih hrest
  | operator hop h more ih =>
    rcases List.suffix_cons_iff.mp hrest with rfl | hrest
    · exact .operator hop h more
    · exact ih hrest
  | math hne hop h more ih =>
    rcases List.suffix_cons_iff.mp hrest with rfl | hrest
    · exact .math hne hop h more
    · exact ih hrest

theorem Fluent.isProse (h : Fluent source F segments) {content : Text}
    (hmem : Segment.text content ∈ segments) : IsProse source content := by
  induction h with
  | nil => cases hmem
  | text h more ih =>
    rcases List.mem_cons.mp hmem with heq | hmem
    · cases heq
      exact h
    · exact ih hmem
  | space more ih => exact ih (by simpa using hmem)
  | operator hop h more ih => exact ih (by simpa using hmem)
  | math hne hop h more ih => exact ih (by simpa using hmem)

/-- Merging words keeps segments fluent. -/
theorem Fluent.mergeText (h : Fluent source F segments) :
    Fluent source F (mergeText segments) := by
  induction h with
  | nil => exact .nil
  | space _ ih => exact .space ih
  | operator hop h _ ih => exact .operator hop h ih
  | math hne hop h _ ih =>
    exact .math hne hop (fun out hout => h out ((continues_mergeText _ _).mp hout)) ih
  | @text word rest h _ ih =>
    rw [Segment.mergeText, consText]
    split
    · rename_i content rest hfound
      obtain ⟨hmem, hsuffix⟩ := textBehindSpace?_mem hfound
      have hcontent := ih.isProse hmem
      refine .text ⟨?_, ?_⟩ (ih.suffix hsuffix)
      · simp [h.1, hcontent.1]
      · intro hslash
        rcases List.mem_append.mp hslash with hslash | hslash
        · exact h.2 hslash
        · exact hcontent.2 (by simpa using hslash)
    · exact .text h ih

theorem isProse_cons {c : Char} (h : IsProse source (c :: content)) : IsProse source content :=
  ⟨fun hmem => h.1 (List.mem_cons_of_mem _ hmem), fun hmem => h.2 (List.mem_cons_of_mem _ hmem)⟩

theorem spelt_escapeText (h : IsProse source content) (out : Text) :
    (Latex.escapeText content).Spelt ((of source).Reads F) out := by
  have hspecial : ∀ c ∈ "\x7b\x7d#$%&_".toList, c ≠ '_' →
      c ∈ "\x7b\x7d%#&$ ;".toList ∧ '\\' ∉ [c] := by decide
  induction content generalizing out with
  | nil => exact Text.spelt_nil
  | cons c content ih =>
    rw [show Latex.escapeText (c :: content) = Latex.escapeChar c ++ Latex.escapeText content
      from rfl]
    refine Text.spelt_append.mpr ⟨?_, ih (isProse_cons h) out⟩
    rw [Latex.escapeChar]
    split_ifs with hslash hc
    · -- The command of a backslash ends in a space.
      have hholds := h.2 (by simp [beq_iff_eq.mp hslash])
      have hcommand : "textbackslash".toList ∈ (of source).commands := by
        refine List.mem_append_right _ ?_
        rw [if_pos hholds]
        exact List.mem_cons_self
      have hspelt : Text.Spelt ((of source).Reads F) ('\\' :: ("textbackslash".toList ++ [' ']))
          (Latex.escapeText content ++ out) := by
        refine Text.spelt_backslash.mpr ⟨?_, Text.spelt_of_notMem (by decide)⟩
        rw [List.append_assoc]
        exact Vocabulary.reads_command hcommand (Text.stops_cons.mpr (by decide))
      exact hspelt
    · have hunder : c ≠ '_' := by
        rintro rfl
        exact h.1 List.mem_cons_self
      obtain ⟨hsign, hback⟩ := hspecial c (List.contains_iff_mem.mp hc) hunder
      exact Text.spelt_backslash.mpr ⟨.inl ⟨c, rfl, hsign⟩, Text.spelt_of_notMem hback⟩
    · exact Text.spelt_of_notMem (by simpa using fun heq => hslash (beq_iff_eq.mpr heq.symm))

theorem spelt_prose (h : IsProse source content) (out : Text) :
    (Latex.prose content).Spelt ((of source).Reads F) out := by
  have hprose : Latex.prose content =
      '\\' :: ("text".toList ++ ('{' :: (Latex.escapeText content ++ ['}']))) := by
    simp [Latex.prose, Latex.command, Latex.braced]
  rw [hprose]
  refine Text.spelt_backslash.mpr ⟨?_, ?_⟩
  · rw [List.append_assoc]
    exact Vocabulary.reads_command (Vocabulary.mem_commands_of_listed List.mem_cons_self)
      (Text.stops_cons.mpr (by decide))
  · refine Text.spelt_append.mpr ⟨Text.spelt_of_notMem (by decide), ?_⟩
    refine (Text.spelt_cons (by decide)).mpr (Text.spelt_append.mpr ⟨spelt_escapeText h _, ?_⟩)
    exact Text.spelt_of_notMem (by decide)

/-! ## Rendering -/

/-- Prose is written with a backslash in front. -/
theorem stops_renderOne_text (before after : List Segment) (content rest : Text) :
    Text.Stops (renderOne before (text content) after ++ rest) := by
  have hgap : ∀ close neighbour, proseGap close neighbour = [] ∨
      proseGap close neighbour = "\\ ".toList := by
    intro close neighbour
    unfold proseGap
    split
    · split
      · exact .inl rfl
      · exact .inr rfl
    · exact .inl rfl
  rw [renderOne]
  rcases hgap endsOpen (nearest? before) with h | h <;> rw [h] <;>
    exact Text.stops_cons.mpr (by decide)

/-- Behind a formula, what is written starts like the next segment. -/
theorem Fluent.continues (h : Fluent source F segments) (hspaced : Spaced segments)
    (formula : Text) (before : List Segment) (hout : out.Stops) :
    Continues segments (renderBehind (Segment.math formula :: before) segments ++ out) := by
  cases h with
  | nil => exact hout
  | text =>
    rw [renderBehind, List.append_assoc]
    exact stops_renderOne_text _ _ _ _
  | operator hop =>
    rw [Continues, if_pos hop, renderBehind, renderOne, if_pos hop]
    exact Text.stops_cons.mpr (by decide)
  | math hne hop =>
    have hnot := Bool.eq_false_iff.mp hop
    rw [Continues, if_neg hnot, renderBehind, renderOne, if_neg hnot, List.append_assoc,
      List.head?_append_of_ne_nil _ hne]
  | @space blanks rest more =>
    rw [renderBehind, renderOne]
    show Text.Stops _
    cases more with
    | nil => exact hout
    | text =>
      rw [renderBehind, if_neg (by simp [isMath]), List.nil_append, List.append_assoc]
      exact stops_renderOne_text _ _ _ _
    | operator => exact Text.stops_cons.mpr (by decide)
    | math => exact Text.stops_cons.mpr (by decide)
    | space =>
      have hchain := (List.isChain_cons_cons.mp hspaced).1
      exact absurd ⟨rfl, rfl⟩ hchain

theorem spelt_operatorGap (neighbour : Option Segment) (rest : Text) :
    (operatorGap neighbour).Spelt ((of source).Reads F) rest := by
  unfold operatorGap
  split
  · exact Text.spelt_of_notMem (by decide)
  · exact Text.spelt_nil

theorem spelt_proseGap (close : Text → Bool) (neighbour : Option Segment) (rest : Text) :
    (proseGap close neighbour).Spelt ((of source).Reads F) rest := by
  unfold proseGap
  split
  · split
    · exact Text.spelt_nil
    · exact Text.spelt_backslash.mpr ⟨.inl ⟨' ', rfl, by rw [Vocabulary.signs_of]; decide⟩,
        Text.spelt_of_notMem (by decide)⟩
  · exact Text.spelt_nil

/-- **Fluent segments are written with the vocabulary.** -/
theorem Fluent.spelt (h : Fluent source F segments) (hspaced : Spaced segments)
    (before : List Segment) (hout : out.Stops) :
    (renderBehind before segments).Spelt ((of source).Reads F) out := by
  induction h generalizing before with
  | nil => exact Text.spelt_nil
  | space more ih =>
    refine Text.spelt_append.mpr ⟨?_, ih hspaced.tail _⟩
    rw [renderOne]
    split
    · exact Text.spelt_of_notMem (by decide)
    · exact Text.spelt_nil
  | text hprose more ih =>
    refine Text.spelt_append.mpr ⟨?_, ih hspaced.tail _⟩
    rw [renderOne]
    exact Text.spelt_append.mpr ⟨Text.spelt_append.mpr
      ⟨spelt_proseGap _ _ _, spelt_prose hprose _⟩, spelt_proseGap _ _ _⟩
  | @operator content rest hop hcontent more ih =>
    refine Text.spelt_append.mpr ⟨?_, ih hspaced.tail _⟩
    rw [renderOne, if_pos hop]
    refine Text.spelt_append.mpr ⟨Text.spelt_append.mpr
      ⟨spelt_operatorGap _ _, hcontent _ ?_⟩, spelt_operatorGap _ _⟩
    -- A space sets the operator off from a formula.
    have hcontinues := more.continues hspaced.tail content before hout
    rcases rest with _ | ⟨_ | _ | _, rest⟩
    · exact hcontinues
    · exact hcontinues
    · exact Text.stops_cons.mpr (by decide)
    · exact hcontinues
  | @math content rest hne hop hcontent more ih =>
    refine Text.spelt_append.mpr ⟨?_, ih hspaced.tail _⟩
    rw [renderOne, if_neg (Bool.eq_false_iff.mp hop)]
    exact hcontent _ (more.continues hspaced.tail content before hout)

/-! ## Tokens -/

theorem escapeMath_eq_self {text : Text} (h : ∀ c ∈ text, c ∉ "%#&$".toList) :
    escapeMath text = text := by
  induction text with
  | nil => rfl
  | cons c text ih =>
    obtain ⟨hc, htext⟩ := List.forall_mem_cons.mp h
    rw [show escapeMath (c :: text) = escapeMathChar c ++ escapeMath text from rfl, ih htext,
      escapeMathChar, if_neg (by rwa [List.contains_iff_mem]), List.singleton_append]

theorem escapeMath_ne_nil {text : Text} (h : text ≠ []) : escapeMath text ≠ [] := by
  obtain ⟨c, text, rfl⟩ := List.exists_cons_of_ne_nil h
  rw [show escapeMath (c :: text) = escapeMathChar c ++ escapeMath text from rfl, escapeMathChar]
  split <;> simp

theorem ofToken_punctuation {token : Text} (hne : token ≠ [])
    (h : ∀ c ∈ token, isPunctuation c = true) (next : Option Text) :
    ofToken token next = .math (escapeMath (symbolFor token)) := by
  have hsigns : ∀ c ∈ punctuation, isBlank c = false ∧ c ≠ '\\' ∧ c ≠ '_' ∧ c ≠ '^' := by decide
  have hmem : ∀ c ∈ token, c ∈ punctuation := fun c hc => List.contains_iff_mem.mp (h c hc)
  have hblank : Text.isBlankRun token = false := by
    obtain ⟨c, token, rfl⟩ := List.exists_cons_of_ne_nil hne
    simp [Text.isBlankRun, (hsigns c (hmem c List.mem_cons_self)).1]
  have hhead : (token.head? == some '\\') = false := by
    obtain ⟨c, token, rfl⟩ := List.exists_cons_of_ne_nil hne
    simpa using (hsigns c (hmem c List.mem_cons_self)).2.1
  have hscript : (token.contains '_' || token.contains '^') = false := by
    have hunder : '_' ∉ token := fun hc => (hsigns _ (hmem _ hc)).2.2.1 rfl
    have hcaret : '^' ∉ token := fun hc => (hsigns _ (hmem _ hc)).2.2.2 rfl
    simp [hunder, hcaret]
  have hall : (!token.isEmpty && token.all isPunctuation) = true := by
    simp [hne, List.all_eq_true.mpr h]
  rw [ofToken, hblank, hhead, hscript, hall]
  rfl

/-- A token is replaced by what it stands for, or it stays. -/
theorem symbolFor_cases (token : Text) :
    (∃ p ∈ Symbol.tokens, p.1 = token ∧ symbolFor token = p.2) ∨
      (∀ p ∈ Symbol.tokens, p.1 ≠ token) ∧ symbolFor token = token := by
  rw [symbolFor]
  cases hlookup : Symbol.tokens.lookup token with
  | none =>
    refine .inr ⟨fun p hp heq => ?_, rfl⟩
    have hnone := List.lookup_eq_none_iff.mp hlookup p hp
    simp [heq] at hnone
  | some value =>
    obtain ⟨l₁, l₂, hsplit, -⟩ := List.lookup_eq_some_iff.mp hlookup
    exact .inl ⟨(token, value), by simp [hsplit], rfl, rfl⟩

/-- What the symbol table says of its tokens. -/
theorem tokens_spec : ∀ p ∈ Symbol.tokens, escapeMath p.2 = p.2 ∧
    p.2.wellSpelt "\x7b\x7d%#&$ ;".toList = true ∧ p.2.head? = some '\\' ∧
    p.1.head? ≠ some '{' ∧
    (p.1.all isPunctuation = true ∨ ∀ c ∈ p.1, isNameChar c = true) := by
  decide +kernel

theorem mem_operatorCommands {p : Text × Text} (hp : p ∈ Symbol.tokens)
    (hall : p.1.all isPunctuation = true) : operatorCommands.contains p.2 = true :=
  List.contains_iff_mem.mpr (List.mem_map_of_mem (List.mem_filter.mpr ⟨hp, hall⟩))

theorem controlWords_tokens {p : Text × Text} (hp : p ∈ Symbol.tokens) {name : Text}
    (hname : name ∈ Text.controlWords p.2) : name ∈ (of source).commands := by
  refine Vocabulary.mem_commands_of_listed (List.mem_cons_of_mem _ (List.mem_append_right _ ?_))
  exact List.mem_flatMap.mpr ⟨p, by simp [hp], hname⟩

theorem spelt_symbol {p : Text × Text} (hp : p ∈ Symbol.tokens) (hout : out.Stops) :
    p.2.Spelt ((of source).Reads F) out :=
  Text.spelt_of_wellSpelt (tokens_spec p hp).2.1 (fun _ hname => controlWords_tokens hp hname) hout

theorem spelt_operator (hop : operatorCommands.contains content = true) (hout : out.Stops) :
    content.Spelt ((of source).Reads F) out := by
  obtain ⟨p, hp, rfl⟩ := List.mem_map.mp (List.contains_iff_mem.mp hop)
  exact spelt_symbol (List.mem_of_mem_filter hp) hout

/-- Punctuation that stands for no command is written as it is. -/
theorem operatorCommands_punctuation {token : Text} (hne : token ≠ [])
    (h : ∀ c ∈ token, isPunctuation c = true) : operatorCommands.contains token = false := by
  rw [Bool.eq_false_iff]
  intro hop
  obtain ⟨p, hp, rfl⟩ := List.mem_map.mp (List.contains_iff_mem.mp hop)
  have hhead := (tokens_spec p (List.mem_of_mem_filter hp)).2.2.1
  exact absurd (h '\\' (List.mem_of_mem_head? hhead)) (by decide)

theorem ofLine_cons (prose : Bool) (token : Text) (tokens : List Text) :
    ∃ next, ofLine prose (token :: tokens) =
      (if prose then ofToken token next else (ofToken token next).asMath) ::
        ofLine prose tokens := by
  cases prose <;> exact ⟨_, rfl⟩

theorem isPunctuation_of_kind {c : Char} (h : CharKind.of c = .punctuation) :
    isPunctuation c = true := by
  rw [CharKind.of] at h
  split_ifs at h with hp
  exact hp

/-- What is written for punctuation passes for it. -/
theorem passes_of_punctuation {run post : Text} (hne : run ≠ [])
    (hall : ∀ d ∈ run, isPunctuation d = true) (hstops : (run ++ post).Stops)
    (hout : Continues (Segment.math (escapeMath (symbolFor run)) :: rest) out) :
    Passes (run ++ post) out := by
  have hspecial : ∀ d ∈ punctuation, d ∉ "%#&$".toList := by decide
  have hescape : escapeMath run = run := escapeMath_eq_self fun d hd =>
    hspecial d (List.contains_iff_mem.mp (hall d hd))
  rcases symbolFor_cases run with ⟨p, hp, rfl, hsymbol⟩ | ⟨-, hsymbol⟩
  · -- The command of an operator is set off by a space, and no operator starts with a brace.
    obtain ⟨hvalue, -, -, hbrace, -⟩ := tokens_spec p hp
    have hop := mem_operatorCommands hp (List.all_eq_true.mpr hall)
    rw [hsymbol, hvalue, Continues, if_pos hop] at hout
    refine ⟨hstops, hout, fun hhead => absurd ?_ hbrace⟩
    rwa [List.head?_append_of_ne_nil _ hne] at hhead
  · rw [hsymbol, hescape, Continues,
      if_neg (Bool.eq_false_iff.mp (operatorCommands_punctuation hne hall)),
      ← List.head?_append_of_ne_nil run hne] at hout
    exact ⟨hstops, fun d hd => hstops d (by rwa [hout] at hd), fun hhead => hout.trans hhead⟩

/-- What is written for punctuation or white space passes for it. -/
theorem passes_of_continues {post : Text} {tokens : List Text} (h : Tokenized post tokens)
    (hkind : ∀ d ∈ post.head?, CharKind.of d ≠ .other) {prose : Bool}
    (hout : Continues (ofLine prose tokens) out) : Passes post out := by
  have hstops : post.Stops := by
    intro d hd
    by_contra hname
    exact hkind d hd (kind_of_isNameChar (by simpa using hname))
  cases h with
  | nil =>
    cases prose <;> exact ⟨hstops, hout, fun h => by cases h⟩
  | @cons run rest tokens hne hrun _ _ =>
    obtain ⟨c, run, rfl⟩ := List.exists_cons_of_ne_nil hne
    obtain ⟨next, hsegments⟩ := ofLine_cons prose (c :: run) tokens
    rw [hsegments] at hout
    have hsame : ∀ d ∈ c :: run, CharKind.of d = CharKind.of c := fun d hd =>
      hrun d hd c List.mem_cons_self
    cases hc : CharKind.of c with
    | other => exact absurd hc (hkind c rfl)
    | blank =>
      have hblank : Text.isBlankRun (c :: run) = true := by
        rw [Text.isBlankRun, List.isEmpty_cons, Bool.not_false, Bool.true_and, List.all_eq_true]
        exact fun d hd => isBlank_of_kind ((hsame d hd).trans hc)
      rw [ofToken, if_pos hblank] at hout
      refine ⟨hstops, by cases prose <;> exact hout, fun hhead => ?_⟩
      obtain rfl : c = '{' := by simpa using hhead
      cases hc
    | punctuation =>
      have hall : ∀ d ∈ c :: run, isPunctuation d = true := fun d hd =>
        isPunctuation_of_kind ((hsame d hd).trans hc)
      rw [ofToken_punctuation hne hall] at hout
      exact passes_of_punctuation hne hall hstops (by cases prose <;> exact hout)

/-- A formula in front of fluent segments. -/
theorem Fluent.cons_math (more : Fluent source F rest) (hne : content ≠ [])
    (h : operatorCommands.contains content = false → ∀ out, Continues rest out →
      content.Spelt ((of source).Reads F) out) : Fluent source F (.math content :: rest) := by
  cases hop : operatorCommands.contains content with
  | true => exact .operator hop (fun out hout => spelt_operator hop hout) more
  | false => exact .math hne hop (h hop) more

/-- A token in front of fluent segments, which is written as its symbol or escaped. -/
theorem Fluent.cons_symbol (more : Fluent source F rest) {run : Text} (hne : run ≠ [])
    (hstops : ∀ c ∈ run, isNameChar c = true → ∀ out, Continues rest out → out.Stops)
    (hescape : ∀ out, Continues rest out → (escapeMath run).Spelt ((of source).Reads F) out) :
    Fluent source F (.math (escapeMath (symbolFor run)) :: rest) := by
  rcases symbolFor_cases run with ⟨p, hp, rfl, hsymbol⟩ | ⟨-, hsymbol⟩
  · obtain ⟨hvalue, -, hhead, -, hkinds⟩ := tokens_spec p hp
    rw [hsymbol, hvalue]
    refine more.cons_math (fun hnil => by rw [hnil] at hhead; cases hhead) fun hop out hout => ?_
    -- A word: no operator is written for it.
    rcases hkinds with hall | hnames
    · rw [mem_operatorCommands hp hall] at hop
      cases hop
    · obtain ⟨c, hc⟩ := List.exists_mem_of_ne_nil _ hne
      exact spelt_symbol hp (hstops c hc (hnames c hc) out hout)
  · rw [hsymbol]
    exact more.cons_math (escapeMath_ne_nil hne) fun _ => hescape

/-- **The segments of a covered line are fluent.** -/
theorem fluent_ofLine {line : Text} {tokens : List Text} (h : Tokenized line tokens)
    (hspelt : line.Spelt ((of source).lines.Reads F) [])
    (hslash : '\\' ∈ line → source.HoldsCommands) (prose : Bool) :
    Fluent source F (ofLine prose tokens) := by
  induction h with
  | nil => cases prose <;> exact .nil
  | @cons run rest tokens hne hkind hstop more ih =>
    obtain ⟨hrun, hrest⟩ := Text.spelt_append.mp hspelt
    rw [List.append_nil] at hrun
    have htail := ih hrest fun hmem => hslash (by simp [hmem])
    obtain ⟨next, hsegments⟩ := ofLine_cons prose run tokens
    rw [hsegments]
    -- Behind a token of names and other characters, punctuation or white space follows.
    have hpasses : ∀ c ∈ run, CharKind.of c = .other → ∀ out,
        Continues (ofLine prose tokens) out → Passes rest out := fun c hc hother out hout =>
      passes_of_continues more (fun d hd heq => hstop c hc d hd (hother.trans heq.symm)) hout
    have hverbatim : ∀ out, Continues (ofLine prose tokens) out →
        run.Spelt ((of source).Reads F) out := by
      intro out hout
      by_cases hmem : '\\' ∈ run
      · exact (hpasses _ hmem rfl out hout).spelt hrun
      · exact Text.spelt_of_notMem hmem
    have hescape : ∀ out, Continues (ofLine prose tokens) out →
        (escapeMath run).Spelt ((of source).Reads F) out := by
      intro out hout
      by_cases hmem : '\\' ∈ run
      · exact spelt_escapeMath hrun fun r => (hpasses _ hmem rfl out hout).reads_escapeMath
      · exact spelt_escapeMath (P := fun _ => False) (b := []) (Text.spelt_of_notMem hmem)
          fun _ h => h.elim
    have hescaped : Fluent source F (.math (escapeMath run) :: ofLine prose tokens) :=
      htail.cons_math (escapeMath_ne_nil hne) fun _ => hescape
    rcases ofToken_cases run next with ⟨h, -⟩ | ⟨h, -⟩ | h | h | ⟨h, hunder⟩
    · rw [h]
      cases prose <;> exact .space htail
    · rw [h]
      have hfluent := htail.cons_math hne fun _ => hverbatim
      cases prose <;> exact hfluent
    · rw [h]
      have hfluent := htail.cons_symbol hne (fun c hc hname out hout =>
        (hpasses c hc (kind_of_isNameChar hname) out hout).stops') hescape
      cases prose <;> exact hfluent
    · rw [h]
      cases prose <;> exact hescaped
    · rw [h]
      cases prose with
      | true => exact .text ⟨hunder, fun hmem => hslash (by simp [hmem])⟩ htail
      | false => exact hescaped

end Segment

/-- **A covered line is segmented into LaTeX that is spelt with its vocabulary.** -/
theorem Vocabulary.Covers.spelt_segmentLine {source line : Text} {F : Fragments}
    (h : Covers source F line) (prose : Bool) :
    (segmentLine prose line).Spelt ((Vocabulary.of source).Reads F) [] := by
  have htokens := tokenized_tokenize line
  have hspaced : Segment.Spaced (Segment.ofLine prose (tokenize line)) := by
    rw [Segment.ofLine]
    split
    · exact spaced_ofTokens htokens
    · exact spaced_asMath (spaced_ofTokens htokens)
  obtain ⟨parts, hparts, -⟩ := exists_tokens htokens (Marked.plain line) (Marked.text_plain line)
  have hlines := Segment.lines_ofTokens prose parts
  rw [hparts] at hlines
  exact (Segment.fluent_ofLine htokens h.reads h.holdsCommands prose).mergeText.spelt
    (Segment.lines_mergeText hlines hspaced).1 [] Text.stops_nil

end MathNotes
