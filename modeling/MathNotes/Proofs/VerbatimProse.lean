import MathNotes.Proofs.Idempotence
import MathNotes.Proofs.IdleSteps
import MathNotes.Proofs.KeptMarkers

/-!
# Prose word for word

Prose stands in `\text{…}`, with its special characters escaped.  Every escape is read as one unit
of the span, so the span is closed by its own brace and by none before it
(`Symbol.proseBodyWidth?_escapeText`).  No span can start in front of another and reach into it,
since there is a backslash only at its start.  So the pass over finished LaTeX finds the span whole,
and treats the two sides of it as if they stood alone (`Symbol.symbolPass_escaped`).

A line of words (`ProseWord`) is prose altogether: no construct is written without a sign, every
word is a segment of its own, and only spaces separate them.  The line is written as one span
(`Segment.segmentLine_words`), which nothing changes any more (`Expression.compile_words`).
-/

namespace MathNotes

/-! ## The end of a span -/

namespace Symbol

theorem proseBodyWidth?_bare {a : Text} (h : a.Bare) (rest : Text) :
    proseBodyWidth? (a ++ rest) = (proseBodyWidth? rest).map (· + a.length) := by
  induction a with
  | nil => simp
  | cons c a ih =>
    obtain ⟨⟨hopen, hclose, hescape⟩, ha⟩ := Text.bare_cons.mp h
    rw [List.cons_append, proseBodyWidth?.eq_def]
    simp [hopen, hclose, hescape, ih ha, Function.comp_def, Nat.add_assoc]

theorem proseBodyWidth?_escaped {c : Char} (h : c ≠ '\n') (rest : Text) :
    proseBodyWidth? ('\\' :: c :: rest) = (proseBodyWidth? rest).map (· + 2) := by
  rw [proseBodyWidth?.eq_def]
  simp [h]

/-- A character of prose neither closes the span nor breaks it off, however it is escaped. -/
theorem proseBodyWidth?_escapeChar (c : Char) (rest : Text) :
    proseBodyWidth? (Latex.escapeChar c ++ rest) =
      (proseBodyWidth? rest).map (· + (Latex.escapeChar c).length) := by
  rw [Latex.escapeChar]
  split_ifs with hslash hspecial
  · have hbare : Text.Bare "extbackslash ".toList := by decide
    calc proseBodyWidth? ('\\' :: 't' :: ("extbackslash ".toList ++ rest))
        = ((proseBodyWidth? rest).map (· + 13)).map (· + 2) := by
          rw [proseBodyWidth?_escaped (by decide), proseBodyWidth?_bare hbare]
          rfl
      _ = (proseBodyWidth? rest).map (· + 15) := by
          rw [Option.map_map]
          rfl
  · have hline : ∀ d ∈ "\x7b\x7d#$%&_".toList, d ≠ '\n' := by decide
    exact proseBodyWidth?_escaped (hline c (List.contains_iff_mem.mp hspecial)) rest
  · have hbraces : c ≠ '{' ∧ c ≠ '}' := by
      constructor <;> · rintro rfl; exact hspecial (by decide)
    exact proseBodyWidth?_bare
      (List.forall_mem_singleton.mpr ⟨hbraces.1, hbraces.2, by simpa using hslash⟩) rest

/-- **Escaped prose is closed by its own brace.** -/
theorem proseBodyWidth?_escapeText (content rest : Text) :
    proseBodyWidth? (Latex.escapeText content ++ '}' :: rest) =
      some ((Latex.escapeText content).length + 1) := by
  induction content with
  | nil =>
    rw [Latex.escapeText, List.flatMap_nil, List.nil_append, proseBodyWidth?.eq_def]
    rfl
  | cons c content ih =>
    have hescape : Latex.escapeText (c :: content) =
        Latex.escapeChar c ++ Latex.escapeText content := rfl
    rw [hescape, List.append_assoc, proseBodyWidth?_escapeChar, ih, Option.map_some,
      List.length_append]
    congr 1
    omega

/-- Escaped prose is a span, whatever stands in front of it and behind it. -/
theorem hitsAt_escaped (previous : Option Char) (content after : Text) :
    prosePattern.HitsAt previous (Latex.prose content) (Latex.prose content) after := by
  have hlead : Latex.prose content = proseLead ++ (Latex.escapeText content ++ ['}']) :=
    Latex.prose_eq content
  have hlength : (Latex.prose content).length =
      proseLead.length + ((Latex.escapeText content).length + 1) := by
    rw [hlead, List.length_append, List.length_append, List.length_singleton]
  have hwidth : proseBodyWidth? (Latex.escapeText content ++ ['}'] ++ after) =
      some ((Latex.escapeText content).length + 1) := by
    rw [List.append_assoc]
    exact proseBodyWidth?_escapeText content after
  refine ⟨?_, by simp [hlead, proseLead]⟩
  have hrest : proseLead.isPrefixOf? (Latex.prose content ++ after) =
      some (Latex.escapeText content ++ ['}'] ++ after) := by
    rw [hlead, List.append_assoc, isPrefixOf?_append]
  simp only [prosePattern, hrest, Option.bind_eq_bind, Option.bind_some, hwidth, Option.pure_def]
  rw [← hlength, List.take_left]

/-! ## What stands around a span -/

/-- A span starts with its lead. -/
theorem proseLead_of_prose {previous : Option Char} {text : Text} {hit : Hit Text}
    (h : prosePattern previous text = some hit) : proseLead <+: text := by
  simp only [prosePattern, Option.bind_eq_bind, Option.bind_eq_some_iff] at h
  obtain ⟨rest, hrest, -⟩ := h
  exact ⟨rest, (isPrefixOf?_eq_some_iff.mp hrest).symm⟩

/-- A lead that is not in a text does not start there either when a backslash follows the text. -/
theorem not_lead_append {text rest : Text} (hne : text ≠ []) (h : ¬ proseLead <:+: text)
    (hrest : ∀ c ∈ rest.head?, c = '\\') : ¬ proseLead <+: text ++ rest := by
  intro hlead
  rcases List.prefix_or_prefix_of_prefix hlead (List.prefix_append text rest) with
    hinside | ⟨beyond, hbeyond⟩
  · exact h hinside.isInfix
  · -- The lead goes on over the backslash, but its only backslash is its first character.
    rw [← hbeyond, List.prefix_append_right_inj] at hlead
    cases beyond with
    | nil => exact h (by rw [← hbeyond, List.append_nil])
    | cons c beyond =>
      obtain ⟨more, rfl⟩ := hlead
      obtain rfl : c = '\\' := hrest c rfl
      obtain ⟨d, text, rfl⟩ := List.exists_cons_of_ne_nil hne
      have htail : '\\' ∈ proseLead.tail := by simp [← hbeyond]
      exact absurd htail (by decide)

theorem misses_prose_of_no_lead {text rest : Text} (h : ¬ proseLead <:+: text)
    (hrest : ∀ c ∈ rest.head?, c = '\\') (previous : Option Char) :
    prosePattern.Misses previous text rest := by
  induction text generalizing previous with
  | nil => exact Pattern.misses_nil
  | cons c text ih =>
    refine ⟨?_, ih (fun hlead => h (hlead.trans (List.suffix_cons c text).isInfix)) _⟩
    by_contra hne
    obtain ⟨hit, hhit⟩ := Option.ne_none_iff_exists'.mp hne
    exact not_lead_append (List.cons_ne_nil c text) h hrest (proseLead_of_prose hhit)

/-- **The pass goes around a span of prose.** -/
theorem symbolPass_prose {before : Text} (h : ¬ proseLead <:+: before) (content after : Text) :
    symbolPass (before ++ (Latex.prose content ++ after)) =
      symbolPass before ++ (Latex.prose content ++ symbolPass after) := by
  have hhead : ∀ c ∈ (Latex.prose content ++ after).head?, c = '\\' := by
    rw [Latex.prose_eq]
    simp
  have hnil : ∀ c ∈ List.head? ([] : Text), c = '\\' := by simp
  rw [symbolPass_of_misses (misses_prose_of_no_lead h hnil none)]
  exact symbolPass_behind (misses_prose_of_no_lead h hhead none)
    (hitsAt_escaped none content after)

theorem symbolPass_prose_alone (content : Text) :
    symbolPass (Latex.prose content) = Latex.prose content := by
  have hlead : ¬ proseLead <:+: [] := by decide
  have hpass := symbolPass_prose hlead content []
  rwa [show symbolPass [] = [] from rfl, List.nil_append, List.append_nil] at hpass

/-- Escaped prose is left alone by the pass over finished LaTeX, and the pass treats what stands in
front of it and what stands behind it as if each stood alone. -/
theorem symbolPass_escaped (content before after : Text)
    (h : ¬ "\\text\x7b".toList <:+: before) :
    ∃ front back, Checked.symbolPass before = .ok front ∧ Checked.symbolPass after = .ok back ∧
      Checked.symbolPass
        (before ++ "\\text\x7b" ++ Latex.escapeText content ++ "\x7d" ++ after) =
        .ok (front ++ "\\text\x7b" ++ Latex.escapeText content ++ "\x7d" ++ back) := by
  refine ⟨_, _, Checked.symbolPass_eq before, Checked.symbolPass_eq after, ?_⟩
  have hpass := symbolPass_prose h content after
  rw [Latex.prose_eq] at hpass
  rw [Checked.symbolPass_eq]
  refine congrArg Except.ok ?_
  simpa using hpass

theorem symbolPass_escaped_arrows :
    ¬ "\\text\x7b".toList <:+: "x->\\text".toList ∧
      ∃ front back, Checked.symbolPass "x->\\text" = .ok front ∧
        Checked.symbolPass "\x7d->pi" = .ok back ∧
        Checked.symbolPass ("x->\\text" ++ "\\text\x7b" ++
          Latex.escapeText "\\pi in \x7b\x7d_#" ++ "\x7d" ++ "\x7d->pi") =
          .ok (front ++ "\\text\x7b" ++ Latex.escapeText "\\pi in \x7b\x7d_#" ++ "\x7d" ++
            back) :=
  ⟨by decide, symbolPass_escaped _ _ _ (by decide)⟩

end Symbol

/-! ## Lines of words -/

/-- A word of prose: two or more letters that do not always belong to a formula. -/
abbrev ProseWord := { word : Text //
  2 ≤ word.length ∧ (∀ c ∈ word, c.isAlpha = true) ∧ Symbol.isKeyword word = false }

/-- Words, with a space between neighbours. -/
def sentence (words : List ProseWord) : Text := Text.join [' '] (words.map Subtype.val)

namespace ProseWord

theorem ne_nil (word : ProseWord) : word.val ≠ [] :=
  List.ne_nil_of_length_pos (Nat.lt_of_lt_of_le Nat.zero_lt_two word.2.1)

theorem isNameChar (word : ProseWord) : ∀ c ∈ word.val, isNameChar c = true :=
  fun c hc => isNameChar_of_isAlpha (word.2.2.1 c hc)

theorem sentence_singleton (word : ProseWord) : sentence [word] = word.val := by
  simp [sentence, Text.join, List.intercalate]

theorem sentence_cons_cons (first second : ProseWord) (words : List ProseWord) :
    sentence (first :: second :: words) = first.val ++ ([' '] ++ sentence (second :: words)) := by
  simp [sentence, Text.join, List.intercalate]

theorem head?_sentence (first : ProseWord) (words : List ProseWord) :
    (sentence (first :: words)).head? = first.val.head? := by
  cases words with
  | nil => rw [sentence_singleton]
  | cons second words => rw [sentence_cons_cons, List.head?_append_of_ne_nil _ first.ne_nil]

/-- There are only letters and spaces in a line of words. -/
theorem isAlpha_of_mem_sentence {words : List ProseWord} {c : Char} (h : c ∈ sentence words) :
    c.isAlpha = true ∨ c = ' ' := by
  rcases words with _ | ⟨first, words⟩
  · cases h
  · induction words generalizing first with
    | nil =>
      rw [sentence_singleton] at h
      exact .inl (first.2.2.1 c h)
    | cons second words ih =>
      rw [sentence_cons_cons, List.mem_append, List.mem_append, List.mem_singleton] at h
      rcases h with hfirst | hspace | hmore
      · exact .inl (first.2.2.1 c hfirst)
      · exact .inr hspace
      · exact ih second hmore

theorem not_mem_sentence {c : Char} (halpha : c.isAlpha = false) (hspace : c ≠ ' ')
    (words : List ProseWord) : c ∉ sentence words := by
  intro hmem
  rcases isAlpha_of_mem_sentence hmem with h | h
  · rw [halpha] at h
    cases h
  · exact hspace h

end ProseWord

theorem isDigitSign_of_isAlpha {c : Char} (h : c.isAlpha = true) : isDigitSign c = false :=
  ascii_forall (P := fun c => c.isAlpha = true → isDigitSign c = false) (by decide)
    (toNat_lt_of_isAlphanum (by simp [Char.isAlphanum, h])) h

namespace Segment

theorem ofToken_proseWord (word : ProseWord) (next : Option Text) :
    ofToken word.val next = text word.val := by
  obtain ⟨word, hlength, halpha, hkeyword⟩ := word
  have hno : ∀ c, c.isAlpha = false → c ∉ word := fun c hc hmem => by
    rw [halpha c hmem] at hc
    cases hc
  have hunder : '_' ∉ word := hno _ (by decide)
  have hcaret : '^' ∉ word := hno _ (by decide)
  have hslash : '\\' ∉ word := hno _ (by decide)
  have hprime : '\'' ∉ word := hno _ (by decide)
  rcases word with _ | ⟨c, _ | ⟨d, word⟩⟩
  · cases hlength
  · cases Nat.lt_of_succ_lt_succ hlength
  · have hc := halpha c List.mem_cons_self
    have hname := isNameChar_of_isAlpha hc
    have hblank : Text.isBlankRun (c :: d :: word) = false := by
      simp [Text.isBlankRun, isBlank_of_isNameChar hname]
    have hsigns : (c :: d :: word).all isPunctuation = false := by
      simp [isPunctuation_of_isNameChar hname]
    have hprimed : isPrimed (c :: d :: word) = false := by
      simp only [List.mem_cons, not_or] at hprime
      simp [isPrimed, Ne.symm hprime.2.1]
    simp only [List.mem_cons, not_or] at hunder hcaret hslash
    simp [ofToken, ofWord, hblank, hsigns, hprimed, hkeyword, hunder, hcaret, Ne.symm hslash.1,
      isDigitSign_of_isAlpha hc, isArticle]

/-- **Words that only spaces separate are one run of prose.** -/
theorem mergeText_sentence (first : ProseWord) (words : List ProseWord) :
    mergeText (ofTokens (tokenize (sentence (first :: words)))) =
      [text (sentence (first :: words))] := by
  induction words generalizing first with
  | nil =>
    rw [ProseWord.sentence_singleton, tokenize_eq_singleton first.ne_nil first.isNameChar, ofTokens,
      ofToken_proseWord]
    rfl
  | cons second words ih =>
    have hkind : ∀ c ∈ first.val, CharKind.of c = .other := fun c hc =>
      kind_of_isNameChar (first.isNameChar c hc)
    have hstop : ∀ c ∈ ([' '] ++ sentence (second :: words)).head?, CharKind.of c ≠ .other := by
      rintro c hc
      obtain rfl := Option.some.inj hc
      decide
    have hnext : ∀ c ∈ (sentence (second :: words)).head?, isBlank c = false := by
      intro c hc
      rw [ProseWord.head?_sentence] at hc
      exact isBlank_of_isNameChar (second.isNameChar c (List.mem_of_mem_head? hc))
    have hspace : Text.Blank [' '] := List.forall_mem_singleton.mpr (by decide)
    calc mergeText (ofTokens (tokenize (sentence (first :: second :: words))))
        = consText first.val (space [' '] ::
            mergeText (ofTokens (tokenize (sentence (second :: words))))) := by
          rw [ProseWord.sentence_cons_cons,
            ofTokens_run first.ne_nil hkind hstop (ofToken_proseWord first),
            ofTokens_blanks (by simp) hspace hnext]
          rfl
      _ = [text (sentence (first :: second :: words))] := by
          rw [ih, ProseWord.sentence_cons_cons]
          rfl

theorem segmentLine_words (first : ProseWord) (words : List ProseWord) :
    segmentLine true (sentence (first :: words)) = Latex.prose (sentence (first :: words)) := by
  rw [segmentLine, ofLine_true, mergeText_sentence, render, renderBehind, renderOne, renderBehind]
  simp [nearest?, proseGap]

end Segment

/-! ## Compiling words -/

theorem Latex.escapeText_sentence (words : List ProseWord) :
    escapeText (sentence words) = sentence words := by
  have hplain : ∀ c ∈ sentence words, escapeChar c = [c] := by
    have hspecial : ∀ d ∈ '\\' :: "\x7b\x7d#$%&_".toList, d.isAlpha = false ∧ d ≠ ' ' := by decide
    intro c hc
    have hkept : c ∉ '\\' :: "\x7b\x7d#$%&_".toList := fun hmem =>
      ProseWord.not_mem_sentence (hspecial c hmem).1 (hspecial c hmem).2 words hc
    rw [List.mem_cons, not_or] at hkept
    rw [escapeChar, if_neg (by simpa using hkept.1), if_neg (by simpa using hkept.2)]
  rw [escapeText, List.flatMap_congr hplain, List.flatMap_singleton']

/-- There is no construct in a text without the signs of constructs, however deep they may nest. -/
theorem Construct.extract_of_no_sign {text : Text} (h : ∀ c ∈ '^' :: signs, c ∉ text)
    (rounds depth : Nat) (s : Extraction) :
    ∃ kept, extract rounds depth text s = (text, { s with kept := kept }) := by
  cases depth with
  | zero => exact ⟨s.kept ++ [text], rfl⟩
  | succ depth =>
    obtain ⟨hmark, hsigns⟩ := List.forall_mem_cons.mp h
    rw [extract_succ, runSteps_of_no_sign hsigns, needs_exponents _ _ _ hmark]
    exact ⟨s.kept, rfl⟩

/-- A text without markers is resolved as it is, in no pass. -/
theorem Fragments.resolve_of_not_mem (fragments : Fragments) (limit : Int) {text : Text}
    (h : '_' ∉ text) : fragments.resolve limit text = .ok ⟨text, 0, false⟩ := by
  have hnone : Marker.occursIn text = false := by
    rw [Marker.occursIn, Pattern.occursIn, Marker.hits_of_not_mem h]
    rfl
  rw [resolve]
  cases limit.toNat with
  | zero => rw [resolveFrom, hnone]
  | succ budget => rw [resolveFrom, if_neg (by simp [hnone])]

namespace Expression

/-- There is nothing to replace and nothing to put aside in a line of words. -/
theorem segmented_sentence (settings : Settings) (first : ProseWord) (words : List ProseWord) :
    ∃ kept, segmented settings (sentence (first :: words)) =
      (Latex.prose (sentence (first :: words)), { kept := kept }) := by
  have hforeign : ∀ c ∈ '.' :: '^' :: Construct.signs, c ∉ sentence (first :: words) := by
    have key : ∀ c ∈ '.' :: '^' :: Construct.signs, c.isAlpha = false ∧ c ≠ ' ' := by decide
    exact fun c hc => ProseWord.not_mem_sentence (key c hc).1 (key c hc).2 _
  obtain ⟨hpoint, hsigns⟩ := List.forall_mem_cons.mp hforeign
  have hconstants : Symbol.substituteConstants (sentence (first :: words)) =
      sentence (first :: words) :=
    Symbol.substituteConstants_eq_self fun hlead => hpoint (hlead.subset (by decide))
  obtain ⟨kept, hextract⟩ :=
    Construct.extract_of_no_sign hsigns settings.rounds.toNat settings.depth.toNat {}
  refine ⟨kept, ?_⟩
  rw [segmented, hconstants, hextract, ← Segment.segmentLine_words]

/-- **A line of words is compiled to the same words**, under any settings. -/
theorem compile_words (settings : Settings) (words : List ProseWord) (hne : words ≠ []) :
    compile settings (sentence words) =
      .ok ("\\text\x7b" ++ sentence words ++ "\x7d", false) := by
  obtain ⟨first, words, rfl⟩ := List.exists_cons_of_ne_nil hne
  obtain ⟨kept, hsegmented⟩ := segmented_sentence settings first words
  have hunder : '_' ∉ Latex.prose (sentence (first :: words)) := by
    rw [Latex.prose_eq, Latex.escapeText_sentence]
    simp [ProseWord.not_mem_sentence (c := '_') (by decide) (by decide)]
  have hlatex : Latex.prose (sentence (first :: words)) =
      "\\text\x7b".toList ++ sentence (first :: words) ++ "\x7d".toList := by
    rw [Latex.prose_eq, Latex.escapeText_sentence]
    rfl
  rw [compile_eq, hsegmented, Fragments.resolve_of_not_mem _ _ hunder, Except.map,
    Symbol.symbolPass_prose_alone, hlatex]

theorem compile_words_named :
    compile { passes := 0, rounds := 1, depth := -1 } "sqrt of alphas factorial choose".toList =
      .ok ("\\text\x7bsqrt of alphas factorial choose\x7d".toList, false) :=
  compile_words _ [⟨"sqrt", by decide⟩, ⟨"of", by decide⟩, ⟨"alphas", by decide⟩,
    ⟨"factorial", by decide⟩, ⟨"choose", by decide⟩] (by decide)

end Expression

end MathNotes
