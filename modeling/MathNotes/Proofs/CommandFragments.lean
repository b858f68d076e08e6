import MathNotes.Proofs.Balance
import MathNotes.Proofs.CommandLines

/-!
# The commands of fragments

What extraction puts aside is spelt with the vocabulary of the line, whatever follows it
(`Written.spelt`), and a line that is covered stays covered (`lawful_spelling`).  Commands come into
a line with its constants and with the words of sets; both are whole names, so that no letter
follows them (`Vocabulary.Covers.setWords`, `Vocabulary.covers_constants`).
-/

namespace MathNotes

open Vocabulary (of Covers)

/-! ## Whole words -/

theorem Vocabulary.Reads.exchange_last {V : Vocabulary} {F : Fragments} {r b b' : Text}
    (h : V.Reads F (r ++ b)) (hlast : ∃ c ∈ r.getLast?, isNameChar c = false) :
    V.Reads F (r ++ b') := by
  refine Reads.append ?_ hlast b'
  obtain ⟨c, hc, hsign⟩ := hlast
  rcases h with ⟨d, hd, hmem⟩ | ⟨name, hname, more, hmore⟩ | hword
  · refine .inl ⟨d, ?_, hmem⟩
    rwa [List.head?_append_of_ne_nil _ (by rintro rfl; cases hc)] at hd
  · refine .inr (.inl ⟨name, hname, ?_⟩)
    rcases List.append_eq_append_iff.mp hmore with ⟨t, rfl, -⟩ | ⟨t, rfl, -⟩
    · exact List.prefix_append _ _
    · have halpha := (V.alpha _ (List.mem_append_right _ (List.mem_append_right _ hname))).2 c
        (List.mem_append_left _ (List.mem_of_getLast? hc))
      rw [isNameChar_of_isAlpha halpha] at hsign
      cases hsign
  · refine .inr (.inr ?_)
    rwa [Text.nameRun_append_of_sign ⟨c, List.mem_of_getLast? hc, hsign⟩] at hword

/-- A word stands on one side of the place where two texts meet, if no name goes across it. -/
theorem Text.infix_append {word x y : Text} (h : word <:+: x ++ y)
    (hcut : word.length ≤ 1 ∨ (∀ c ∈ word, isNameChar c = true) ∧
      ((∀ c ∈ x.getLast?, isNameChar c = false) ∨ y.Stops)) : word <:+: x ∨ word <:+: y := by
  obtain ⟨a, b, hab⟩ := h
  rw [List.append_assoc] at hab
  rcases List.append_eq_append_iff.mp hab with ⟨t, rfl, ht⟩ | ⟨t, rfl, rfl⟩
  · rcases List.append_eq_append_iff.mp ht with ⟨u, rfl, -⟩ | ⟨u, rfl, rfl⟩
    · exact .inl ⟨a, u, by simp⟩
    · -- The word would go across.
      by_cases htnil : t = []
      · subst htnil
        exact .inr ⟨[], b, by simp⟩
      · by_cases hunil : u = []
        · subst hunil
          exact .inl ⟨a, [], by simp⟩
        · exfalso
          rcases hcut with hlength | ⟨hnames, hlast | hstops⟩
          · have ht' := List.length_pos_iff.mpr htnil
            have hu' := List.length_pos_iff.mpr hunil
            rw [List.length_append] at hlength
            omega
          · obtain ⟨t, c, rfl⟩ := (List.eq_nil_or_concat t).resolve_left htnil
            have hname := hnames c (by simp)
            rw [hlast c (by simp)] at hname
            cases hname
          · obtain ⟨c, u, rfl⟩ := List.exists_cons_of_ne_nil hunil
            have hname := hnames c (by simp)
            rw [hstops c rfl] at hname
            cases hname
  · exact .inr ⟨t, b, by simp⟩

namespace Symbol

section Words

variable {bars : Char → Bool} {words : List (Text × Text)} {previous : Option Char} {text : Text}
  {pieces : List (Piece Text)}

/-- Words of a table that are names. -/
structure AreNames (bars : Char → Bool) (words : List (Text × Text)) : Prop where
  bars : ∀ c, isNameChar c = true → bars c = true
  last : ∀ p ∈ words, ∃ c ∈ p.1.getLast?, isNameChar c = true

theorem AreNames.recognises (h : AreNames bars words) :
    (wordPattern bars isNameChar words).Recognises fun previous matched value after =>
      (matched, value) ∈ words ∧ (∀ c ∈ previous, bars c = false) ∧
        ∀ c ∈ after.head?, isNameChar c = false := by
  refine Pattern.recognises_wordPattern fun p hp hnil => ?_
  obtain ⟨c, hc, -⟩ := h.last p hp
  rw [hnil] at hc
  cases hc

/-- Behind a name, or behind a backslash that bars a word, a text starts as it did. -/
theorem AreNames.head? (h : AreNames bars words)
    (hreading : (wordPattern bars isNameChar words).Reading previous text pieces)
    (hbarred : ∃ c ∈ previous, bars c = true) :
    (pieces.flatMap (Piece.write id)).head? = text.head? := by
  cases hreading with
  | rest _ => rw [Piece.flatMap_write_chars]
  | @hit _ before matched after value pieces hat _ =>
    have hbefore : before ≠ [] := by
      rintro rfl
      obtain ⟨c, hc, hbars⟩ := hbarred
      rw [(h.recognises.spec hat).2.1 c hc] at hbars
      cases hbars
    rw [List.flatMap_append, Piece.flatMap_write_chars, List.head?_append_of_ne_nil _ hbefore,
      List.head?_append_of_ne_nil _ hbefore]

/-- What is written behind a word of the table starts with no character of a name. -/
theorem AreNames.stops (h : AreNames bars words) {matched after value : Text}
    (hat : (wordPattern bars isNameChar words).HitsAt previous matched value after)
    (hreading : (wordPattern bars isNameChar words).Reading matched.getLast? after pieces) :
    Text.Stops (pieces.flatMap (Piece.write id)) := by
  obtain ⟨hmem, -, hafter⟩ := h.recognises.spec hat
  obtain ⟨c, hc, hname⟩ := h.last _ hmem
  rw [Text.Stops, h.head? hreading ⟨c, hc, h.bars c hname⟩]
  exact hafter

/-- In front of a word of the table stands no character of a name. -/
theorem AreNames.last_before (h : AreNames bars words) {before matched after value : Text}
    (hat : (wordPattern bars isNameChar words).HitsAt (before.getLast?.or previous) matched value
      after) : ∀ c ∈ before.getLast?, bars c = false ∧ isNameChar c = false := by
  intro c hc
  have hbars := (h.recognises.spec hat).2.1 c (by rw [Option.mem_def.mp hc]; rfl)
  refine ⟨hbars, ?_⟩
  by_contra hname
  rw [h.bars c (by simpa using hname)] at hbars
  cases hbars

/-- **Replacing whole words leaves a text spelt**, if what they are replaced by is. -/
theorem AreNames.spelt (h : AreNames bars words) {V : Vocabulary} {F : Fragments}
    (hvalues : ∀ p ∈ words, ∀ out : Text, out.Stops → p.2.Spelt (V.Reads F) out)
    (hreading : (wordPattern bars isNameChar words).Reading previous text pieces)
    (hslash : bars '\\' = true ∨ '\\' ∉ text) (htext : text.Spelt (V.Reads F) []) :
    Text.Spelt (V.Reads F) (pieces.flatMap (Piece.write id)) [] := by
  induction hreading with
  | rest _ => rwa [Piece.flatMap_write_chars]
  | @hit _ before matched after value pieces hat more ih =>
    obtain ⟨hbefore, hrest⟩ := Text.spelt_append.mp htext
    obtain ⟨-, hafter⟩ := Text.spelt_append.mp hrest
    have hslash' : bars '\\' = true ∨ '\\' ∉ after :=
      hslash.imp_right fun hmem hafter => hmem (by simp [hafter])
    rw [List.flatMap_append, Piece.flatMap_write_chars, List.flatMap_cons]
    refine Text.spelt_append.mpr ⟨?_, Text.spelt_append.mpr ⟨?_, ih hslash' hafter⟩⟩
    · rintro a r rfl
      refine (hbefore a r rfl).exchange_last ?_
      -- A word of the table does not stand right behind the backslash.
      rcases List.eq_nil_or_concat r with rfl | ⟨r, c, rfl⟩
      · rcases hslash with hbars | hmem
        · have hlast := (h.last_before hat '\\' (by simp)).1
          rw [hbars] at hlast
          cases hlast
        · simp at hmem
      · have hlast := (h.last_before hat c (by
          rw [List.concat_eq_append, ← List.cons_append, ← List.append_assoc,
            List.getLast?_concat]; rfl)).2
        exact ⟨c, by simp, hlast⟩
    · rw [List.append_nil]
      exact hvalues _ (h.recognises.spec hat).1 _ (h.stops hat more)

/-- **Replacing whole words brings no other words into a text.** -/
theorem AreNames.infix_of (h : AreNames bars words)
    (hreading : (wordPattern bars isNameChar words).Reading previous text pieces) {word : Text}
    (hword : word.length ≤ 1 ∨ ∀ c ∈ word, isNameChar c = true)
    (hvalues : ∀ p ∈ words, ¬ word <:+: p.2)
    (hin : word <:+: pieces.flatMap (Piece.write id)) : word <:+: text := by
  induction hreading with
  | rest _ => rwa [Piece.flatMap_write_chars] at hin
  | @hit _ before matched after value pieces hat more ih =>
    rw [List.flatMap_append, Piece.flatMap_write_chars, List.flatMap_cons] at hin
    have hbefore := hword.imp_right fun hnames => And.intro hnames
      (Or.inl (b := Text.Stops (value ++ pieces.flatMap (Piece.write id)))
        fun c hc => (h.last_before hat c hc).2)
    rcases Text.infix_append hin hbefore with hin | hin
    · exact hin.trans (List.prefix_append _ _).isInfix
    · have hvalue := hword.imp_right fun hnames => And.intro hnames
        (Or.inr (a := ∀ c ∈ value.getLast?, isNameChar c = false) (h.stops hat more))
      rcases Text.infix_append hin hvalue with hin | hin
      · exact absurd hin (hvalues _ (h.recognises.spec hat).1)
      · exact (ih hin).trans ⟨before ++ matched, [], by simp⟩

end Words

theorem areNames_setWords : AreNames (fun c => isNameChar c || c == '\\') setWords :=
  ⟨fun c hc => by simp [hc], by decide⟩

theorem areNames_constants : AreNames (fun c => isNameChar c || c == '.') constants :=
  ⟨fun c hc => by simp [hc], by decide⟩

/-- The words of open-ended constructs are names or signs. -/
theorem openEnded_words : ∀ p ∈ openEnded, p.1.length ≤ 1 ∨ ∀ c ∈ p.1, isNameChar c = true := by
  decide

/-- A text whose commands are those that a line may hold. -/
theorem spelt_hosts {source value out : Text} {F : Fragments} (hholds : source.HoldsCommands)
    (h : value.wellSpelt ['{'] = true) (hwords : ∀ name ∈ value.controlWords, name ∈ hostCommands)
    (hout : out.Stops) : value.Spelt ((of source).lines.Reads F) out := by
  refine Text.spelt_of_wellSpelt h (fun name hname => ?_) hout
  have hhosts : (of source).lines.commands = hostCommands := if_pos hholds
  rw [hhosts]
  exact hwords name hname

end Symbol

namespace Vocabulary

/-- Inside braces the words of sets are replaced. -/
theorem Covers.setWords {source line : Text} {F : Fragments} (h : Covers source F line)
    (hholds : source.HoldsCommands) : Covers source F (Symbol.substituteSetWords line) := by
  have hvalues : ∀ p ∈ Symbol.setWords, p.2.wellSpelt ['{'] = true ∧
      (∀ name ∈ p.2.controlWords, name ∈ hostCommands) ∧
      ∀ q ∈ openEnded, ¬ q.1 <:+: p.2 := by decide +kernel
  have hreading := Pattern.reading_pieces Symbol.areNames_setWords.recognises.proper line
  refine ⟨?_, fun _ => hholds, fun q hq hword => h.words q hq ?_⟩
  · refine Symbol.areNames_setWords.spelt (fun p hp out hout => ?_) hreading (.inl rfl) h.reads
    exact Symbol.spelt_hosts hholds (hvalues p hp).1 (hvalues p hp).2.1 hout
  · exact Symbol.areNames_setWords.infix_of hreading (Symbol.openEnded_words q hq)
      (fun p hp => (hvalues p hp).2.2 q hq) hword

/-- **A line without backslashes is covered once its constants are replaced.** -/
theorem covers_constants {line : Text} (h : '\\' ∉ line) (F : Fragments) :
    Covers line F (Symbol.substituteConstants line) := by
  have hvalues : ∀ p ∈ Symbol.constants, p.2.wellSpelt ['{'] = true ∧
      (∀ name ∈ p.2.controlWords, name ∈ hostCommands) ∧
      ∀ q ∈ openEnded, ¬ q.1 <:+: p.2 := by decide +kernel
  by_cases hmath : "Math.".toList <:+: line
  · have hholds : line.HoldsCommands := .inr hmath
    have hreading := Pattern.reading_pieces Symbol.areNames_constants.recognises.proper line
    refine ⟨?_, fun _ => hholds, fun q hq hword => ?_⟩
    · refine Symbol.areNames_constants.spelt (fun p hp out hout => ?_) hreading (.inr h)
        (Text.spelt_of_notMem h)
      exact Symbol.spelt_hosts hholds (hvalues p hp).1 (hvalues p hp).2.1 hout
    · exact Symbol.areNames_constants.infix_of hreading (Symbol.openEnded_words q hq)
        (fun p hp => (hvalues p hp).2.2 q hq) hword
  · rw [Symbol.substituteConstants_eq_self hmath]
    exact ⟨Text.spelt_of_notMem h, .inl, fun _ _ hword => hword⟩

end Vocabulary

/-- A command that is left open. -/
theorem Vocabulary.spelt_loose {V : Vocabulary} {F : Fragments} {name : Text} (h : name ∈ V.loose)
    (out : Text) : Text.Spelt (V.Reads F) ('\\' :: name) out := by
  refine Text.spelt_backslash.mpr ⟨.inr (.inl ⟨name, h, List.prefix_append _ _⟩), ?_⟩
  refine Text.spelt_of_notMem fun hmem => ?_
  have halpha := (V.alpha name (List.mem_append_right _ (List.mem_append_right _ h))).2 _ hmem
  cases halpha

/-! ## Bounds -/

/-- Replacing hits leaves a text spelt, if every hit may be replaced where it stands. -/
theorem Pattern.Reading.spelt {α : Type} {pattern : Pattern α} {replacement : α → Text}
    {P : Text → Prop} {previous : Option Char} {text : Text} {pieces : List (Piece α)}
    (hreading : pattern.Reading previous text pieces)
    (hhit : ∀ ⦃previous matched value after⦄, pattern.HitsAt previous matched value after →
      (∀ r rest, P (r ++ (matched ++ after)) → P (r ++ (replacement value ++ rest))) ∧
        ∀ rest, Text.Spelt P matched after → (replacement value).Spelt P rest)
    (htext : text.Spelt P []) : Text.Spelt P (pieces.flatMap (Piece.write replacement)) [] := by
  induction hreading with
  | rest _ => rwa [Piece.flatMap_write_chars]
  | @hit _ before matched after value pieces hat _ ih =>
    obtain ⟨hbefore, hrest⟩ := Text.spelt_append.mp htext
    obtain ⟨hmatched, hafter⟩ := Text.spelt_append.mp hrest
    rw [List.append_nil] at hbefore hmatched
    rw [List.flatMap_append, Piece.flatMap_write_chars, List.flatMap_cons]
    refine Text.spelt_append.mpr ⟨?_, Text.spelt_append.mpr ⟨?_, ih hafter⟩⟩
    · rw [List.append_nil]
      exact hbefore.exchange fun r => (hhit hat).1 r _
    · rw [List.append_nil]
      exact (hhit hat).2 _ hmatched

namespace Bound

variable {source text : Text} {F : Fragments} {isBase : Char → Bool} {mark : Char}

/-- A script in brackets is put into braces. -/
theorem spelt_grouped (hbase : isBase '\\' = false) (hmark : mark ≠ '\\')
    (h : text.Spelt ((of source).lines.Reads F) []) :
    ((Script.grouped isBase mark).replace (Script.inBraces mark) text).Spelt
      ((of source).lines.Reads F) [] := by
  have hrec := Script.recognises_grouped isBase mark
  refine (Pattern.reading_pieces hrec.proper text).spelt
    (fun previous matched value after hat => ?_) h
  obtain ⟨rfl, hvalue, -⟩ := hrec.spec hat
  obtain ⟨base, script⟩ := value
  have hne : base ≠ '\\' := by
    rintro rfl
    rw [hbase] at hvalue
    cases hvalue
  refine ⟨fun r rest hread => ?_, fun rest hspelt => ?_⟩
  · have hread' : (of source).lines.Reads F
        ((r ++ [base, mark]) ++ '(' :: (script ++ ')' :: after)) := by simpa using hread
    have hbraced : (of source).lines.Reads F
        ((r ++ [base, mark]) ++ '{' :: (script ++ '}' :: rest)) :=
      hread'.exchange (by simp) (Text.stops_cons.mpr (by decide)) (Text.stops_cons.mpr (by decide))
    simpa [Script.inBraces, Latex.braced] using hbraced
  · rw [Text.spelt_cons hne, Text.spelt_cons hmark, Text.spelt_cons (by decide)] at hspelt
    obtain ⟨hscript, -⟩ := Text.spelt_append.mp hspelt
    have hbraced : Script.inBraces mark (base, script) =
        base :: mark :: '{' :: (script ++ ['}']) := rfl
    rw [hbraced, Text.spelt_cons hne, Text.spelt_cons hmark, Text.spelt_cons (by decide)]
    refine Text.spelt_append.mpr
      ⟨hscript.exchange fun r hread => ?_, Text.spelt_of_notMem (by decide)⟩
    -- The bracket does not belong to a command, since it is none of the signs of the vocabulary.
    refine hread.exchange ?_ (Text.stops_cons.mpr (by decide)) (Text.stops_cons.mpr (by decide))
    rintro rfl
    obtain ⟨c, hc, hsign | hname⟩ := hread.exists_head
    · obtain rfl : ')' = c := by simpa using hc
      exact absurd (List.mem_singleton.mp hsign) (by decide)
    · obtain rfl : ')' = c := by simpa using hc
      cases hname

/-- A run in braces holds no backslash. -/
theorem inBraces_notMem {base : Char} {run : Text} (hbase : base ≠ '\\') (hmark : mark ≠ '\\')
    (hrun : ∀ c ∈ run, c.isAlphanum = true) : '\\' ∉ Script.inBraces mark (base, run) := by
  intro hmem
  have hmem' : '\\' ∈ base :: mark :: '{' :: (run ++ ['}']) := hmem
  simp only [List.mem_cons, List.mem_append, List.not_mem_nil, or_false] at hmem'
  rcases hmem' with h | h | h | h | h
  · exact hbase h.symm
  · exact hmark h.symm
  · cases h
  · cases hrun _ h
  · cases h

/-- A bare exponent is put into braces. -/
theorem spelt_bareExponent (hbase : isBase '\\' = false)
    (h : text.Spelt ((of source).lines.Reads F) []) :
    ((Script.bare isBase '^').replace (Script.inBraces '^') text).Spelt
      ((of source).lines.Reads F) [] := by
  have hrec := Script.recognises_bare isBase '^'
  refine (Pattern.reading_pieces hrec.proper text).spelt
    (fun previous matched value after hat => ?_) h
  obtain ⟨rfl, hvalue, -, hrun, -⟩ := hrec.spec hat
  obtain ⟨base, run⟩ := value
  have hne : base ≠ '\\' := by
    rintro rfl
    rw [hbase] at hvalue
    cases hvalue
  refine ⟨fun r rest hread => ?_, fun rest _ =>
    Text.spelt_of_notMem (inBraces_notMem hne (by decide) hrun)⟩
  have hread' : (of source).lines.Reads F ((r ++ [base]) ++ '^' :: (run ++ after)) := by
    simpa using hread
  have hbraced : (of source).lines.Reads F ((r ++ [base]) ++ '^' :: '{' :: (run ++ '}' :: rest)) :=
    hread'.exchange (by simp) (Text.stops_cons.mpr (by decide)) (Text.stops_cons.mpr (by decide))
  simpa [Script.inBraces, Latex.braced] using hbraced

/-- A bare subscript is put into braces. -/
theorem spelt_bareSubscript (h : text.Spelt ((of source).lines.Reads F) []) :
    ((Script.bare Char.isAlpha '_').replace (Script.inBraces '_') text).Spelt
      ((of source).lines.Reads F) [] := by
  have hrec := Script.recognises_bare Char.isAlpha '_'
  refine (Pattern.reading_pieces hrec.proper text).spelt
    (fun previous matched value after hat => ?_) h
  obtain ⟨rfl, hbase, hne, hrun, -⟩ := hrec.spec hat
  obtain ⟨base, run⟩ := value
  have hbase' : base.isAlpha = true := hbase
  have hslash : base ≠ '\\' := by
    rintro rfl
    cases hbase
  refine ⟨fun r rest hread => ?_, fun rest _ =>
    Text.spelt_of_notMem (inBraces_notMem hslash (by decide) hrun)⟩
  have hbraced : Script.inBraces '_' (base, run) = base :: '_' :: '{' :: (run ++ ['}']) := rfl
  rw [hbraced]
  refine hread.exchange_word List.prefix_rfl (fun _ hhead => ?_) fun _ hword => ?_
  · obtain rfl : base = '{' := by simpa using hhead
    cases hbase
  · have hlead : ∀ c ∈ [base, '_'], isNameChar c = true := by
      simp [isNameChar_of_isAlpha hbase', (by decide : isNameChar '_' = true)]
    -- What stands in front of the subscript is the whole of a word.
    have hscript : ∀ text : Text, Text.nameRun (base :: '_' :: text) =
        base :: '_' :: Text.nameRun text := fun text =>
      Text.nameRun_append_of_names (a := [base, '_']) hlead
    have hhead : (Text.nameRun (run ++ after)).head? ≠ some '_' := by
      obtain ⟨d, run, rfl⟩ := List.exists_cons_of_ne_nil hne
      have hd := hrun d List.mem_cons_self
      rw [List.cons_append, Text.nameRun, List.takeWhile_cons_of_pos (by simp [isNameChar, hd])]
      rintro ⟨rfl⟩
      cases hd
    rw [List.cons_append, List.cons_append, hscript] at hword ⊢
    exact hword.subscript hbase' hhead List.prefix_rfl _

/-- A sign is replaced by a command that is left open. -/
theorem spelt_replaceAll {needle name : Text} (hne : needle ≠ []) (hneedle : needle.Stops)
    (hsigns : ∀ c ∈ needle, c ∉ "\x7b\x7d%#&$ ;".toList) (hname : name ∈ (of source).loose)
    (h : text.Spelt ((of source).Reads F) []) :
    (replaceAll needle ('\\' :: name) text).Spelt ((of source).Reads F) [] := by
  have hrec : (wordPattern (fun _ => false) (fun _ => false)
      [(needle, '\\' :: name)]).Recognises _ :=
    Pattern.recognises_wordPattern (by simpa using hne)
  refine (Pattern.reading_pieces hrec.proper text).spelt
    (fun previous matched value after hat => ?_) h
  obtain ⟨rfl, rfl⟩ := Prod.mk.inj (List.mem_singleton.mp (hrec.spec hat).1)
  have hstops : Text.Stops (matched ++ after) := by
    rwa [Text.Stops, List.head?_append_of_ne_nil _ hne]
  refine ⟨fun r rest hread => ?_, fun rest _ => ?_⟩
  · refine hread.exchange ?_ hstops (Text.stops_cons.mpr (by decide))
    rintro rfl
    obtain ⟨c, hc, hsign | hname⟩ := hread.exists_head
    · rw [List.nil_append, List.head?_append_of_ne_nil _ hne] at hc
      exact hsigns c (List.mem_of_mem_head? hc) hsign
    · rw [hstops c hc] at hname
      cases hname
  · exact Vocabulary.spelt_loose hname rest

/-- **A covered bound is written with the vocabulary**, if plus and minus may be. -/
theorem spelt_normalize {bound : Text} (h : Covers source F bound)
    (hplus : "pm".toList ∈ (of source).loose) (hminus : "mp".toList ∈ (of source).loose) :
    (normalize bound).Spelt ((of source).Reads F) [] := by
  refine spelt_replaceAll (by decide) (Text.stops_cons.mpr (by decide)) (by decide) hminus ?_
  refine spelt_replaceAll (by decide) (Text.stops_cons.mpr (by decide)) (by decide) hplus ?_
  refine Text.Spelt.mono (P := (of source).lines.Reads F) ?_ fun _ hread => hread.of_lines
  exact spelt_bareExponent (by decide) (spelt_grouped (by decide) (by decide)
    (spelt_bareSubscript (spelt_grouped (by decide) (by decide) h.trim.reads)))

end Bound

/-! ## Constructs -/

theorem Vocabulary.mem_loose {source : Text} {p : Text × Text} (hp : p ∈ openEnded)
    (h : p.1 <:+: source) : p.2 ∈ (of source).loose :=
  List.mem_map_of_mem (List.mem_filter.mpr ⟨hp, by simpa using h⟩)

/-- Lines are covered by the vocabulary, what is written for them is spelt with it, and so is every
fragment, whatever follows it. -/
def spelling (source : Text) : Invariant where
  Line s line := Covers source s.fragments line
  Latex s latex := latex.Spelt ((of source).Reads s.fragments) []
  Sound s := ∀ latex ∈ s.fragments, ∀ out : Text, latex.Spelt ((of source).Reads s.fragments) out

/-- In front of a sign, LaTeX is spelt as it is on its own. -/
theorem Text.Spelt.before {V : Vocabulary} {F : Fragments} {latex out : Text}
    (h : latex.Spelt (V.Reads F) []) (hout : out.Stops) : latex.Spelt (V.Reads F) out := by
  refine h.exchange fun r hread => hread.exchange ?_ Text.stops_nil hout
  rintro rfl
  obtain ⟨c, hc, -⟩ := hread.exists_head
  cases hc

/-- LaTeX in braces. -/
theorem Text.Spelt.braced {V : Vocabulary} {F : Fragments} {latex : Text}
    (h : latex.Spelt (V.Reads F) []) (out : Text) : (Latex.braced latex).Spelt (V.Reads F) out := by
  have hbraced : Latex.braced latex = '{' :: (latex ++ ['}']) := rfl
  rw [hbraced, Text.spelt_cons (by decide)]
  exact Text.spelt_append.mpr ⟨h.before (Text.stops_cons.mpr (by decide)),
    Text.spelt_of_notMem (by decide)⟩

section Constructs

variable {source : Text} {treat : Treatment} {before after written latex : Text}
  {s s' : Extraction}

theorem Extraction.Grows.spelt (h : s.Grows s') {out : Text}
    (hlatex : latex.Spelt ((of source).Reads s.fragments) out) :
    latex.Spelt ((of source).Reads s'.fragments) out :=
  hlatex.mono fun _ hread => hread.mono h.fragments

/-- What a covered argument is treated to. -/
theorem Treatment.Keeps.spelt (htreat : treat.Keeps (spelling source)) {prose : Bool}
    {argument : Text} (harg : treat prose argument s = (latex, s'))
    (hsound : (spelling source).Sound s) (hcovers : Covers source s.fragments argument) :
    s.Grows s' ∧ (spelling source).Sound s' ∧ latex.Spelt ((of source).Reads s'.fragments) [] := by
  have hkeeps := htreat prose hsound hcovers
  rwa [harg] at hkeeps

/-- A text that is spelt with the vocabulary, whatever follows it. -/
def Closed (source text : Text) : Prop :=
  ∀ (F : Fragments) (out : Text), text.Spelt ((of source).Reads F) out

/-- The vocabulary has what a part of a construct and the text behind it are written with. -/
structure Provides (source : Text) (p : Slot × Text × Text) : Prop where
  fixed : Closed source p.2.2
  member : p.1 = .member → source.HoldsCommands
  bound : p.1 = .bound → "pm".toList ∈ (of source).loose ∧ "mp".toList ∈ (of source).loose

/-- What starts with a sign is set off from what stands in front of it. -/
theorem Text.IsFence.head? {text : Text} (h : text.IsFence) (rest : Text) :
    ∀ c ∈ (text ++ rest).head?, isNameChar c = false ∧ c ≠ '{' := by
  obtain ⟨c, hc, hsign⟩ := h
  intro d hd
  rw [List.head?_append_of_ne_nil _ (by rintro rfl; cases hc), hc] at hd
  exact Option.some.inj hd ▸ hsign

/-- A part of a construct. -/
theorem Slot.Writes.spelt (htreat : treat.Keeps (spelling source)) {slot : Slot}
    {a t fixed fixed' : Text} (h : slot.Writes treat a s t s')
    (hsound : (spelling source).Sound s) (ha : Covers source s.fragments a)
    (hverbatim : slot ≠ .verbatim) (hprovides : Provides source (slot, fixed, fixed')) :
    s.Grows s' ∧ (spelling source).Sound s' ∧ t.Spelt ((of source).Reads s'.fragments) [] := by
  cases slot with
  | argument prose => exact htreat.spelt h hsound ha
  | member => exact htreat.spelt h hsound (ha.setWords (hprovides.member rfl))
  | bound =>
    have hwritten : t = Bound.normalize a ∧ s' = s := h
    obtain ⟨hplus, hminus⟩ := hprovides.bound rfl
    rw [hwritten.1, hwritten.2]
    exact ⟨.refl _, hsound, Bound.spelt_normalize ha hplus hminus⟩
  | verbatim => exact absurd rfl hverbatim

/-- The parts of a construct with the texts behind them. -/
theorem WritesSlots.spelt (htreat : treat.Keeps (spelling source))
    {slots : List (Slot × Text × Text)} (h : WritesSlots treat slots written s latex s')
    (hsound : (spelling source).Sound s)
    (hcovers : Covers source s.fragments (before ++ (written ++ after)))
    (hfenced : ∀ p ∈ slots, p.1 ≠ .verbatim ∧ Text.IsFence p.2.1 ∧ Text.IsFence p.2.2)
    (hprovides : ∀ p ∈ slots, Provides source p) :
    s.Grows s' ∧ (spelling source).Sound s' ∧
      ∀ out : Text, latex.Spelt ((of source).Reads s'.fragments) out := by
  -- By induction on the parts; what is already read is part of what stands in front of the rest.
  induction h generalizing before with
  | nil => exact ⟨.refl _, hsound, fun _ => Text.spelt_nil⟩
  | @cons slot l l' slots a t written latex s s₁ s₂ hwrites _ ih =>
    obtain ⟨⟨hverbatim, hfence, hfence'⟩, hfenced⟩ := List.forall_mem_cons.mp hfenced
    obtain ⟨hslot, hprovides⟩ := List.forall_mem_cons.mp hprovides
    have hpart : before ++ (a ++ (l ++ written) ++ after) =
        before ++ (a ++ (l ++ (written ++ after))) := by simp
    have hrest : before ++ (a ++ (l ++ written) ++ after) =
        (before ++ (a ++ l)) ++ (written ++ after) := by simp
    have ha : Covers source s.fragments a := (hpart ▸ hcovers).part (hfence.head? _)
    obtain ⟨hgrows, hsound₁, ht⟩ := hwrites.spelt htreat hsound ha hverbatim hslot
    obtain ⟨hgrows', hsound₂, hlatex⟩ :=
      ih hsound₁ ((hrest ▸ hcovers).mono hgrows.fragments) hfenced hprovides
    have hstops : ∀ rest : Text, Text.Stops (l' ++ rest) := fun rest c hc =>
      (hfence'.head? rest c hc).1
    exact ⟨hgrows.trans hgrows', hsound₂, fun out => Text.spelt_append.mpr
      ⟨(hgrows'.spelt ht).before (by simpa using hstops _),
        Text.spelt_append.mpr ⟨hslot.fixed _ _, hlatex out⟩⟩⟩

theorem closed_of_notMem {text : Text} (h : '\\' ∉ text) : Closed source text := fun _ _ =>
  Text.spelt_of_notMem h

theorem Closed.append {a b : Text} (ha : Closed source a) (hb : Closed source b) :
    Closed source (a ++ b) := fun F out => Text.spelt_append.mpr ⟨ha F _, hb F out⟩

/-- A text that constructs are written with, if it ends in a sign. -/
theorem closed_template (text : Text) (h : text ∈ templates)
    (hlast : ∃ c ∈ text.getLast?, isNameChar c = false) : Closed source text := by
  have htemplates : ∀ text ∈ templates, text.wellSpelt "\x7b\x7d%#&$ ;".toList = true := by
    decide +kernel
  refine fun F out => Text.spelt_closed (htemplates text h) (fun name hname => ?_) hlast out
  exact Vocabulary.mem_commands_of_listed
    (List.mem_cons_of_mem _ (List.mem_append_left _ (List.mem_flatMap.mpr ⟨text, h, hname⟩)))

theorem provides_argument {prose : Bool} {l text : Text} (h : Closed source text) :
    Provides source (.argument prose, l, text) :=
  ⟨h, fun h => (by cases h), fun h => (by cases h)⟩

theorem provides_member {l text : Text} (h : Closed source text) (hholds : source.HoldsCommands) :
    Provides source (.member, l, text) :=
  ⟨h, fun _ => hholds, fun h => (by cases h)⟩

/-- A command that is left open, behind a space. -/
theorem closed_loose {name : Text} (h : name ∈ (of source).loose) :
    Closed source (' ' :: '\\' :: name) :=
  Closed.append (a := [' ']) (closed_of_notMem (by decide)) fun _ out =>
    Vocabulary.spelt_loose h out

/-- The command of an operator is left open, and its bounds may hold plus and minus. -/
theorem provides_operator {name command lead : Text} (hop : (name, command) ∈ Bound.operators)
    (hname : name <:+: lead)
    (hwords : ∀ p ∈ openEnded, p.1 <:+: lead → p.2 ∈ (of source).loose) :
    Closed source command ∧
      ∀ {l text : Text}, Closed source text → Provides source (.bound, l, text) := by
  have hoperators : ∀ operator ∈ Bound.operators, operator.2 = '\\' :: operator.2.tail ∧
      (operator.1, operator.2.tail) ∈ openEnded ∧ (operator.1, "pm".toList) ∈ openEnded ∧
      (operator.1, "mp".toList) ∈ openEnded := by decide
  obtain ⟨hcommand, hopen, hplus, hminus⟩ := hoperators _ hop
  refine ⟨fun F out => ?_, fun h => ⟨h, fun h => (by cases h), fun _ =>
    ⟨hwords _ hplus hname, hwords _ hminus hname⟩⟩⟩
  rw [show command = '\\' :: command.tail from hcommand]
  exact Vocabulary.spelt_loose (hwords _ hopen hname) out

/-- **The vocabulary provides for the catalogue of constructs.** -/
theorem Listed.provides {previous : Option Char} {shape : Shape} (h : Listed previous shape)
    (hfenced : shape.Fenced)
    (hwords : ∀ p ∈ openEnded, p.1 <:+: shape.lead.1 → p.2 ∈ (of source).loose)
    (hbraces : '{' ∈ shape.lead.1 → source.HoldsCommands) :
    Closed source shape.lead.2 ∧ ∀ p ∈ shape.slots, Provides source p := by
  have hcalls : ∀ name ∈ ["sqrt".toList, "vec".toList], '\\' :: name ++ ['{'] ∈ templates := by
    decide
  have hrounded : ∀ name ∈ ["floor".toList, "ceil".toList], "\\l" ++ name ++ [' '] ∈ templates ∧
      (name, 'r' :: name) ∈ openEnded := by decide
  have hbrace : Closed source ['}'] := closed_of_notMem (by decide)
  have hjoint : Closed source "\x7d\x7b".toList := closed_of_notMem (by decide)
  cases h with
  | compoundFactorial =>
    exact ⟨closed_of_notMem (by decide : '\\' ∉ ['(']),
      List.forall_mem_singleton.mpr (provides_argument (closed_of_notMem (by decide)))⟩
  | factorial =>
    exact ⟨closed_of_notMem (by decide : '\\' ∉ ([] : Text)),
      List.forall_mem_singleton.mpr (provides_argument (closed_of_notMem (by decide)))⟩
  | @command name blanks _ hname =>
    exact ⟨closed_template _ (hcalls name hname) ⟨'{', List.getLast?_concat, rfl⟩,
      List.forall_mem_singleton.mpr (provides_argument hbrace)⟩
  | @rounded name blanks _ hname =>
    obtain ⟨htemplate, hopen⟩ := hrounded name hname
    have hloose := hwords _ hopen ⟨[], blanks ++ ['('], by simp⟩
    exact ⟨closed_template _ htemplate ⟨' ', List.getLast?_concat, rfl⟩,
      List.forall_mem_singleton.mpr (provides_argument (closed_loose hloose))⟩
  | @function name blanks _ hname =>
    refine ⟨closed_template _ (List.mem_append_left _ (List.mem_map.mpr ⟨name, hname, rfl⟩))
      ⟨'(', List.getLast?_concat, rfl⟩, List.forall_mem_singleton.mpr (provides_argument ?_)⟩
    exact closed_of_notMem (by decide)
  | binomial =>
    exact ⟨closed_template "\\binom\x7b".toList (by decide) ⟨'{', rfl, rfl⟩,
      List.forall_mem_cons.mpr ⟨provides_argument hjoint,
        List.forall_mem_singleton.mpr (provides_argument hbrace)⟩⟩
  | unbounded hop =>
    obtain ⟨hcommand, -⟩ := provides_operator hop (List.prefix_append _ _).isInfix hwords
    exact ⟨hcommand, List.forall_mem_nil _⟩
  | lowerBound hop =>
    obtain ⟨hcommand, hslot⟩ := provides_operator hop (List.prefix_append _ _).isInfix hwords
    exact ⟨hcommand.append (closed_of_notMem (by decide)),
      List.forall_mem_singleton.mpr (hslot hbrace)⟩
  | bothBounds hop _ _ _ hbetween =>
    obtain ⟨hcommand, hslot⟩ := provides_operator hop (List.prefix_append _ _).isInfix hwords
    refine ⟨hcommand.append (closed_of_notMem (by decide)), List.forall_mem_cons.mpr
      ⟨hslot ?_, List.forall_mem_singleton.mpr (hslot hbrace)⟩⟩
    rcases hbetween with rfl | rfl
    · exact closed_template _ (by decide) ⟨' ', rfl, rfl⟩
    · exact closed_of_notMem (by decide)
  | vector n =>
    have hangle : Closed source " \\rangle".toList :=
      closed_loose (hwords ("<".toList, "rangle".toList) (by decide) List.infix_rfl)
    refine ⟨closed_template "\\langle ".toList (by decide) ⟨' ', rfl, rfl⟩, fun p hp => ?_⟩
    rcases List.mem_append.mp hp with hp | hp
    · rw [List.eq_of_mem_replicate hp]
      exact provides_argument (closed_template _ (by decide) ⟨' ', rfl, rfl⟩)
    · rw [List.mem_singleton.mp hp]
      exact provides_argument hangle
  | set =>
    have hholds := hbraces List.mem_cons_self
    exact ⟨closed_template "\\\x7b".toList (by decide) ⟨'{', rfl, rfl⟩,
      List.forall_mem_singleton.mpr (provides_member
        (closed_template "\\\x7d".toList (by decide) ⟨'}', rfl, rfl⟩) hholds)⟩
  | conditionalSet =>
    have hholds := hbraces List.mem_cons_self
    exact ⟨closed_template "\\\x7b".toList (by decide) ⟨'{', rfl, rfl⟩,
      List.forall_mem_cons.mpr ⟨provides_member
        (closed_template _ (by decide) ⟨' ', rfl, rfl⟩) hholds,
      List.forall_mem_singleton.mpr (provides_member
        (closed_template "\\\x7d".toList (by decide) ⟨'}', rfl, rfl⟩) hholds)⟩⟩
  | absolute =>
    exact ⟨closed_template "\\left|".toList (by decide) ⟨'|', rfl, rfl⟩,
      List.forall_mem_singleton.mpr (provides_argument
        (closed_template _ (by decide) ⟨'|', rfl, rfl⟩))⟩
  | fraction =>
    exact ⟨closed_template "\\frac\x7b".toList (by decide) ⟨'{', rfl, rfl⟩,
      List.forall_mem_cons.mpr ⟨provides_argument hjoint,
        List.forall_mem_singleton.mpr (provides_argument hbrace)⟩⟩
  -- Scripts take a part as it is, so that they are not fenced.
  | script => exact absurd rfl (hfenced _ List.mem_cons_self).1
  | bareScript => exact absurd rfl (hfenced _ List.mem_cons_self).1
  | power => exact absurd rfl (hfenced _ List.mem_cons_self).1
  | barePower => exact absurd rfl (hfenced _ List.mem_cons_self).1

/-- An operand without its brackets. -/
theorem Operand.ungrouped_cases (operand : Text) :
    ungrouped operand = operand ∨ operand = '(' :: (ungrouped operand ++ [')']) := by
  rw [ungrouped]
  split
  · rename_i content hsplit
    obtain ⟨rest, hopen, hclosing⟩ := Option.bind_eq_some_iff.mp hsplit
    right
    rw [Text.after?_eq_some_iff.mp hopen, Delimiters.round_splitClosing? hclosing]
  · exact .inl rfl

theorem Vocabulary.Covers.ungrouped {F : Fragments} {operand : Text} (h : Covers source F operand) :
    Covers source F (Operand.ungrouped operand) := by
  rcases Operand.ungrouped_cases operand with heq | heq
  · rwa [heq]
  · rw [heq] at h
    refine Covers.part (a := ['(']) (c := [')']) h fun d hd => ?_
    obtain rfl : ')' = d := by simpa using hd
    decide

/-- A word without the underscore behind it, if that is not part of a marker. -/
theorem Vocabulary.Word.of_concat {V : Vocabulary} {F : Fragments} {r : Text}
    (h : V.Word F (r ++ ['_']))
    (hmarker : ∀ n p, p <:+ r → Marker.ofNat n ≠ p ++ ['_']) : V.Word F r := by
  generalize hword : r ++ ['_'] = word at h
  cases h with
  | whole hname =>
    have halpha := (V.alpha _ (List.mem_append_left _ hname)).2 '_' (by simp [← hword])
    cases halpha
  | @filled name _ _ n hn hfits =>
    rcases filled_cases hword with ⟨more, rfl⟩ | ⟨p, m, rfl, hp, hne, hm⟩ | ⟨m, -, hne, hm⟩
    · exact .filled hn hfits
    · obtain ⟨c, m, rfl⟩ := List.exists_cons_of_ne_nil hne
      rw [List.cons_append] at hm
      obtain ⟨rfl, hnil⟩ := List.cons.inj hm
      rw [(List.append_eq_nil_iff.mp hnil.symm).1] at hp
      exact absurd hp (hmarker n p (List.suffix_append _ _))
    · obtain ⟨c, m, rfl⟩ := List.exists_cons_of_ne_nil hne
      simp [Marker.ofNat_eq] at hm

/-- A word behind a backslash does not go on in the rest of a line, where an operand ends. -/
theorem Vocabulary.Covers.of_stop {F : Fragments} {a right rest : Text}
    (h : Covers source F (a ++ (right ++ rest))) (seam : Marked.Seam right rest)
    (stop : Operand.Stop right rest) : Covers source F right := by
  have hpart : right <:+: a ++ (right ++ rest) := ⟨a, rest, by simp⟩
  refine ⟨?_, fun hbrace => h.braces (hpart.subset hbrace),
    fun p hp hword => h.words p hp (hword.trans hpart)⟩
  rintro x r rfl
  have hread := h.reads (a ++ x) (r ++ rest) (by simp)
  rw [List.append_nil] at hread ⊢
  rcases stop with hclose | ⟨⟨c, hc, hname⟩, hstops⟩ | ⟨more, rfl⟩
  · have hlast : r.getLast? = some ')' := by
      cases r with
      | nil => simp at hclose
      | cons d r => simpa using hclose
    rw [← List.append_nil r]
    exact hread.exchange_last ⟨')', hlast, rfl⟩
  · rw [← List.append_nil r]
    refine hread.exchange ?_ hstops Text.stops_nil
    rintro rfl
    obtain rfl : '\\' = c := by simpa using hc
    cases hname
  · -- A script in brackets follows, and no marker goes across.
    rw [← List.append_nil r]
    refine hread.exchange_word List.prefix_rfl (fun _ hhead => by cases hhead) fun _ hword => ?_
    have hrun : Text.nameRun ('_' :: '(' :: more) = ['_'] := by
      simp [Text.nameRun, (by decide : isNameChar '_' = true),
        (by decide : isNameChar '(' = false)]
    rw [hrun] at hword
    rw [show Text.nameRun [] = [] from rfl, List.append_nil]
    refine hword.of_concat fun n p hp hmarker => ?_
    have hne : p ≠ [] := by
      rintro rfl
      simp [Marker.ofNat_eq] at hmarker
    exact seam n p ['_'] hmarker.symm hne (by simp)
      (hp.trans ⟨x ++ ['\\'], by simp⟩) ⟨'(' :: more, rfl⟩

/-- A part of a construct in front of a closing sign. -/
theorem Vocabulary.Covers.enclosed {F : Fragments}
    (h : Covers source F (before ++ (written ++ after))) (a b : Text) (sign : Char) (c : Text)
    (hwritten : written = a ++ (b ++ sign :: c)) (hname : isNameChar sign = false)
    (hbrace : sign ≠ '{') : Covers source F b := by
  have hline : before ++ (written ++ after) = (before ++ a) ++ (b ++ (sign :: (c ++ after))) := by
    simp [hwritten]
  rw [hline] at h
  refine h.part fun d hd => ?_
  obtain rfl : sign = d := by simpa using hd
  exact ⟨hname, hbrace⟩

/-- A covered line as it is. -/
theorem Vocabulary.Covers.spelt {F : Fragments} {line : Text} (h : Covers source F line) :
    line.Spelt ((of source).Reads F) [] :=
  h.reads.mono fun _ hread => hread.of_lines

theorem IsBase.ne_backslash {mark base : Char} (h : IsBase mark base) :
    base ≠ '\\' ∧ mark ≠ '\\' := by
  rcases h with ⟨rfl, h⟩ | ⟨rfl, h | rfl | rfl⟩
  · refine ⟨?_, by decide⟩
    rintro rfl
    cases h
  · refine ⟨?_, by decide⟩
    rintro rfl
    exact absurd h (by decide +kernel)
  · decide
  · decide

theorem Script.IsRun.notMem_backslash {run : Text} (h : Script.IsRun run after) : '\\' ∉ run :=
  fun hmem => by cases h.all _ hmem

theorem Marker.notMem_ofDigits {digits : Text} (h : Script.IsDigits digits) :
    '\\' ∉ Marker.ofDigits digits := by
  have hlead : '\\' ∉ Marker.lead := by decide
  have htail : '\\' ∉ Marker.tail := by decide
  have hdigits : '\\' ∉ digits := fun hmem => absurd (h.all _ hmem) (by decide +kernel)
  simp [Marker.ofDigits, hlead, htail, hdigits]

/-- A script in braces on its base. -/
theorem IsBase.spelt {V : Vocabulary} {F : Fragments} {mark base : Char} (h : IsBase mark base)
    (hlatex : latex.Spelt (V.Reads F) []) (out : Text) :
    Text.Spelt (V.Reads F) (base :: mark :: Latex.braced latex) out := by
  obtain ⟨hbase, hmark⟩ := h.ne_backslash
  rw [Text.spelt_cons hbase, Text.spelt_cons hmark]
  exact hlatex.braced out

/-- An exponent on a fragment. -/
theorem Marker.spelt_power {V : Vocabulary} {F : Fragments} {digits : Text}
    (h : Script.IsDigits digits) (hlatex : latex.Spelt (V.Reads F) []) (out : Text) :
    Text.Spelt (V.Reads F) (Latex.braced (Marker.ofDigits digits) ++ '^' :: Latex.braced latex)
      out :=
  Text.spelt_append.mpr ⟨Text.Spelt.braced (Text.spelt_of_notMem (Marker.notMem_ofDigits h)) _,
    (Text.spelt_cons (by decide)).mpr (hlatex.braced out)⟩

/-- The numerator of a fraction stands in front of a sign. -/
theorem Vocabulary.Covers.numerator {F : Fragments} {left blanks rest : Text}
    (h : Covers source F (before ++ (left ++ (blanks ++ '/' :: rest)))) (hb : blanks.Blank) :
    Covers source F left := by
  refine h.part fun d hd => ?_
  cases blanks with
  | nil =>
    obtain rfl : '/' = d := by simpa using hd
    decide
  | cons c blanks =>
    obtain rfl : c = d := by simpa using hd
    have hblank := hb c List.mem_cons_self
    refine ⟨isNameChar_of_isBlank hblank, ?_⟩
    rintro rfl
    exact absurd hblank (by decide)

theorem spelt_fraction {F : Fragments} {numerator denominator : Text}
    (hnumerator : numerator.Spelt ((of source).Reads F) [])
    (hdenominator : denominator.Spelt ((of source).Reads F) []) (out : Text) :
    Text.Spelt ((of source).Reads F) (Latex.command "frac" [numerator, denominator]) out := by
  have hlatex : Latex.command "frac" [numerator, denominator] =
      "\\frac\x7b".toList ++ (numerator ++ ('}' :: Latex.braced denominator)) := by
    simp [Latex.command, Latex.braced]
  rw [hlatex]
  refine Text.spelt_append.mpr ⟨closed_template _ (by decide) ⟨'{', rfl, rfl⟩ _ _,
    Text.spelt_append.mpr ⟨hnumerator.before (Text.stops_cons.mpr (by decide)), ?_⟩⟩
  exact (Text.spelt_cons (by decide)).mpr (hdenominator.braced out)

/-- **What is put aside is spelt with the vocabulary of the line**, whatever follows it. -/
theorem Written.spelt (htreat : treat.Keeps (spelling source))
    (h : Written treat before after written s latex s') (hsound : (spelling source).Sound s)
    (hcovers : Covers source s.fragments (before ++ (written ++ after))) :
    s.Grows s' ∧ (spelling source).Sound s' ∧
      ∀ out : Text, latex.Spelt ((of source).Reads s'.fragments) out := by
  cases h with
  | @listed shape written latex _ _ _ _ listed fenced slots =>
    have hlead : shape.lead.1 <:+: before ++ (shape.lead.1 ++ written ++ after) :=
      ⟨before, written ++ after, by simp⟩
    obtain ⟨hclosed, hprovides⟩ : Closed source _ ∧ ∀ p ∈ shape.slots, _ := listed.provides fenced
      (fun p hp hword => Vocabulary.mem_loose hp (hcovers.words p hp (hword.trans hlead)))
      (fun hbrace => hcovers.braces (hlead.subset hbrace))
    have hline : before ++ (shape.lead.1 ++ written ++ after) =
        (before ++ shape.lead.1) ++ (written ++ after) := by simp
    rw [hline] at hcovers
    obtain ⟨hgrows, hsound', hlatex⟩ := slots.spelt htreat hsound hcovers fenced hprovides
    exact ⟨hgrows, hsound', fun out => Text.spelt_append.mpr ⟨hclosed _ _, hlatex out⟩⟩
  | @fraction left right blanks blanks' numerator denominator _ s₁ _ _ _ hb hb' seam stop hleft
      hright =>
    have hline : before ++ (left ++ (blanks ++ '/' :: (blanks' ++ right)) ++ after) =
        before ++ (left ++ (blanks ++ '/' :: (blanks' ++ (right ++ after)))) := by simp
    have hline' : before ++ (left ++ (blanks ++ '/' :: (blanks' ++ right)) ++ after) =
        (before ++ (left ++ (blanks ++ '/' :: blanks'))) ++ (right ++ after) := by simp
    have hleft' : Covers source s.fragments left := Covers.numerator (hline ▸ hcovers) hb
    rw [hline'] at hcovers
    obtain ⟨hgrows, hsound₁, hnumerator⟩ := htreat.spelt hleft hsound hleft'.ungrouped
    -- What follows the denominator is judged by how its operand ends.
    obtain ⟨hgrows', hsound₂, hdenominator⟩ := htreat.spelt hright hsound₁
      ((hcovers.of_stop seam stop).mono hgrows.fragments).ungrouped
    exact ⟨hgrows.trans hgrows', hsound₂, spelt_fraction (hgrows'.spelt hnumerator) hdenominator⟩
  | @script base mark argument t _ _ hbase harg =>
    obtain ⟨hgrows, hsound', ht⟩ := htreat.spelt harg hsound (hcovers.enclosed
      [base, mark, '('] argument ')' [] (by simp) (by decide) (by decide))
    exact ⟨hgrows, hsound', hbase.spelt ht⟩
  | @bareScript base mark run _ hbase hrun =>
    have hslash : '\\' ∉ run := by
      rcases hrun with hrun | ⟨-, digits, rfl, hdigits⟩
      · exact hrun.notMem_backslash
      · exact Marker.notMem_ofDigits hdigits
    exact ⟨.refl _, hsound, hbase.spelt (Text.spelt_of_notMem hslash)⟩
  | @group content argument t _ _ harg =>
    obtain ⟨hgrows, hsound', ht⟩ := htreat.spelt harg hsound (hcovers.enclosed
      ('(' :: (content ++ [')', '^', '('])) argument ')' [] (by simp) (by decide) (by decide))
    -- The group under the exponent is taken as it stands in the line.
    have hcontent := hcovers.enclosed ['('] content ')' ('^' :: '(' :: (argument ++ [')']))
      (by simp) (by decide) (by decide)
    refine ⟨hgrows, hsound', fun out => ?_⟩
    rw [Text.spelt_cons (by decide)]
    refine Text.spelt_append.mpr ⟨(hgrows.spelt hcontent.spelt).before
      (Text.stops_cons.mpr (by decide)), ?_⟩
    rw [Text.spelt_cons (by decide), Text.spelt_cons (by decide)]
    exact ht.braced out
  | @power digits newline argument t _ _ hdigits _ harg =>
    obtain ⟨hgrows, hsound', ht⟩ := htreat.spelt harg hsound (hcovers.enclosed
      (Marker.ofDigits digits ++ (newline ++ ['^', '('])) argument ')' [] (by simp) (by decide)
      (by decide))
    exact ⟨hgrows, hsound', Marker.spelt_power hdigits ht⟩
  | barePower hdigits hrun =>
    exact ⟨.refl _, hsound,
      Marker.spelt_power hdigits (Text.spelt_of_notMem hrun.notMem_backslash)⟩
  | @bracedPower digits content _ hdigits =>
    have hcontent := hcovers.enclosed (Marker.ofDigits digits ++ ['^', '{']) content '}' []
      (by simp) (by decide) (by decide)
    exact ⟨.refl _, hsound, Marker.spelt_power hdigits hcontent.spelt⟩

/-- A covered line, with a marker for one of its constructs. -/
theorem Written.covers (h : Written treat before after written s latex s') (hgrows : s.Grows s')
    (hcovers : Covers source s.fragments (before ++ (written ++ after))) :
    (before ++ (s'.marker ++ after)).Spelt
      ((of source).lines.Reads (s'.put latex).fragments) [] := by
  have hF := (hgrows.put latex).fragments
  refine Text.spelt_append.mpr ⟨?_, Text.spelt_append.mpr ⟨Text.spelt_of_notMem fun hmem => ?_, ?_⟩⟩
  · intro x r hbefore
    have hread := hcovers.reads x (r ++ (written ++ after)) (by simp [hbefore])
    rw [List.append_nil] at hread ⊢
    exact h.reads hbefore hF (s'.getElem?_put latex) hread
  · have hname := Marker.nameChar_of_mem_ofNat hmem
    cases hname
  · have hafter := (Text.spelt_append.mp (Text.spelt_append.mp hcovers.reads).2).2
    exact hafter.mono fun _ hread => hread.mono hF

/-- A covered line stays covered when a brace is escaped. -/
theorem Vocabulary.Covers.escape {F : Fragments} (h : Covers source F (before ++ '{' :: after))
    (hlast : before.getLast? ≠ some '\\') :
    (before ++ '\\' :: '{' :: after).Spelt ((of source).lines.Reads F) [] := by
  obtain ⟨hbefore, hafter⟩ := Text.spelt_append.mp h.reads
  refine Text.spelt_append.mpr ⟨?_, Text.spelt_backslash.mpr
    ⟨.inl ⟨'{', rfl, List.mem_singleton_self _⟩, hafter⟩⟩
  intro x r hx
  refine (hbefore x r hx).exchange ?_ (Text.stops_cons.mpr (by decide))
    (Text.stops_cons.mpr (by decide))
  rintro rfl
  exact hlast (by simp [hx])

/-- **The spelling of commands is kept by every step of the extraction.** -/
theorem lawful_spelling (source : Text) : (spelling source).Lawful where
  rewrites {treat line line' s s'} htreat hstep hsound hline := by
    have hopen : ∀ p ∈ openEnded, p.1 ≠ [] ∧ ∀ c ∈ p.1, isUnmarked c = true := by decide
    -- A step brings no open-ended construct into the line.
    have hwords : ∀ p ∈ openEnded, p.1 <:+: line' → p.1 <:+: source := by
      rintro p hp ⟨a, b, rfl⟩
      obtain ⟨a, b, rfl, -⟩ := hstep.inOrder (List.forall_mem_singleton.mpr (hopen p hp))
        ⟨a, b, by simp, trivial⟩
      exact hline.words p hp ⟨a, b, by simp⟩
    cases hstep with
    | @store before written after latex _ s' written =>
      obtain ⟨hgrows, hsound', hlatex⟩ := written.spelt htreat hsound hline
      have hput := (Extraction.Grows.refl s').put latex
      refine ⟨hgrows.put _, ?_, written.covers hgrows hline, fun hbrace => ?_, hwords⟩
      · exact List.forall_mem_append.mpr ⟨fun text htext out => hput.spelt (hsound' text htext out),
          List.forall_mem_singleton.mpr fun out => hput.spelt (hlatex out)⟩
      · refine hline.braces ?_
        have hmarker : '{' ∉ s'.marker := fun hmem => by
          cases Marker.nameChar_of_mem_ofNat hmem
        simp only [List.mem_append, hmarker, false_or] at hbrace ⊢
        tauto
    | escape hlast =>
      exact ⟨.refl _, hsound, hline.escape hlast, fun _ => hline.braces (by simp), hwords⟩
  trim h := h.trim
  segment prose h := h.spelt_segmentLine prose
  hold hsound hline := ⟨hsound, hline, hline.spelt⟩

end Constructs

end MathNotes
