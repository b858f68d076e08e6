import MathNotes.Proofs.Totality
import MathNotes.Text.Small

/-!
# Which lines are headings

A heading is a line `K R {`: a keyword in any case, and a rest that does not go on with the word
(`Heading.Opens`).  No keyword begins with another one, so a line has at most one such split
(`Heading.Opens.unique`), and the reader, which tries the keywords one after the other, finds it
(`Heading.read?_of_opens`).

The reader compares letters by a short table of case variants, while the case of a text is a table
of Unicode.  Outside ASCII only the Kelvin sign has a small letter in ASCII, so for the letters of
a keyword the two tables agree on every character that is not irregular
(`Heading.sameLetter_iff`).
-/

namespace MathNotes

/-! ## Small letters -/

theorem toLower_of_le {c : Char} (h : 128 ≤ c.toNat) : c.toLower = c := by
  have hcapital : ¬ (c.val ≥ 'A'.val ∧ c.val ≤ 'Z'.val) := by
    rintro ⟨-, hlast⟩
    have : c.toNat ≤ 0x5a := UInt32.le_iff_toNat_le.mp hlast
    omega
  exact dif_neg hcapital

theorem toNat_toLower_lt {c : Char} (h : c.toNat < 128) : c.toLower.toNat < 128 :=
  ascii_forall (P := fun c => c.toLower.toNat < 128) (by decide) h

theorem SmallRun.small?_eq_some {run : SmallRun} {n : Nat} {d : Char}
    (h : run.small? n = some d) :
    run.first ≤ n ∧ n ≤ run.last ∧ d = Char.ofNat (run.small + (n - run.first)) := by
  rw [SmallRun.small?] at h
  split at h
  next hrun =>
    rw [Bool.and_eq_true, Bool.and_eq_true, decide_eq_true_eq, decide_eq_true_eq] at hrun
    exact ⟨hrun.1.1, hrun.1.2, (Option.some.inj h).symm⟩
  next => cases h

/-- Only two runs have their small letters in ASCII: the capitals of ASCII and the Kelvin sign. -/
theorem smallRuns_spec : ∀ run ∈ smallRuns,
    run = ⟨0x41, 0x5a, 1, 0x61⟩ ∨ run = ⟨0x212a, 0x212a, 1, 0x6b⟩ ∨
    128 ≤ run.first ∧ 128 ≤ run.small ∧
      (run.small + (run.last - run.first) < 0xd800 ∨
        0xdfff < run.small ∧ run.small + (run.last - run.first) < 0x110000) := by
  decide +kernel

/-- In ASCII the small letter is the plain lower case. -/
theorem smallLetter_of_lt {c : Char} (h : c.toNat < 128) : smallLetter c = c.toLower := by
  have hcapital : ((SmallRun.mk 0x41 0x5a 1 0x61).small? c.toNat).getD c = c.toLower :=
    ascii_forall (P := fun c => ((SmallRun.mk 0x41 0x5a 1 0x61).small? c.toNat).getD c = c.toLower)
      (by decide) h
  have hruns : smallRuns = ⟨0x41, 0x5a, 1, 0x61⟩ :: smallRuns.tail := rfl
  rw [smallLetter, hruns, List.findSome?_cons, ← hcapital]
  cases hfirst : (SmallRun.mk 0x41 0x5a 1 0x61).small? c.toNat with
  | some d => rfl
  | none =>
    have hrest : smallRuns.tail.findSome? (·.small? c.toNat) = none := by
      refine List.findSome?_eq_none_iff.mpr fun run hrun => ?_
      by_contra hsome
      obtain ⟨d, hd⟩ := Option.ne_none_iff_exists'.mp hsome
      obtain ⟨hle, -, -⟩ := SmallRun.small?_eq_some hd
      rcases smallRuns_spec run (List.mem_of_mem_tail hrun) with rfl | rfl | ⟨hbeyond, -⟩
      · exact hsome hfirst
      · exact absurd (hle.trans_lt h) (by decide)
      · omega
    simp only [hrest]

/-- Beyond ASCII only the Kelvin sign has a small letter in ASCII. -/
theorem le_smallLetter {c : Char} (h : 128 ≤ c.toNat) (hkelvin : c ≠ '\u212a') :
    128 ≤ (smallLetter c).toNat := by
  rw [smallLetter]
  cases hfound : smallRuns.findSome? (·.small? c.toNat) with
  | none => exact h
  | some d =>
    obtain ⟨run, hrun, hd⟩ := List.exists_of_findSome?_eq_some hfound
    obtain ⟨hfirst, hlast, rfl⟩ := SmallRun.small?_eq_some hd
    rcases smallRuns_spec run hrun with rfl | rfl | ⟨-, hsmall, hvalid⟩
    · exact absurd (h.trans hlast) (by decide)
    · have hn : c.toNat = 0x212a := hlast.antisymm hfirst
      exact absurd (by rw [← Char.ofNat_toNat c, hn]) hkelvin
    · have hscalar : (run.small + (c.toNat - run.first)).isValidChar := by
        rcases hvalid with hvalid | hvalid
        · exact .inl (by omega)
        · exact .inr (by omega)
      have hd : (Char.ofNat (run.small + (c.toNat - run.first))).toNat =
          run.small + (c.toNat - run.first) := by
        rw [Char.ofNat, dif_pos hscalar]
        rfl
      rw [Option.getD_some, hd]
      omega

theorem Text.toSmall_eq_map {text : Text} (h : '\u0130' ∉ text) :
    text.toSmall = text.map smallLetter := by
  have hsingle : ∀ c ∈ text, smallLetters c = [smallLetter c] := by
    intro c hc
    have hdotted : c ≠ '\u0130' := fun heq => h (heq ▸ hc)
    simp [smallLetters, hdotted]
  rw [Text.toSmall, List.flatMap_congr hsingle, List.map_eq_flatMap]

namespace Heading

/-! ## Letters of a keyword -/

/-- A character that is not irregular is a keyword's letter up to case if the two have the same
small letter. -/
theorem sameLetter_iff {letter c : Char} (hletter : letter.isAlpha = true)
    (hregular : c ∉ irregularLetters) :
    sameLetter letter c = true ↔ smallLetter c = smallLetter letter := by
  have hascii : letter.toNat < 128 := by
    have := alpha_range hletter
    omega
  have hlower := toNat_toLower_lt hascii
  have hvariant : (c, letter.toLower) ∈ caseVariants ↔ c = '\u212a' ∧ letter.toLower = 'k' := by
    simp only [irregularLetters, List.mem_cons, List.not_mem_nil, or_false, not_or] at hregular
    simp [caseVariants, hregular]
  rw [sameLetter, Bool.or_eq_true, beq_iff_eq, List.contains_iff_mem, hvariant,
    smallLetter_of_lt hascii]
  by_cases hc : c.toNat < 128
  · have hne : c ≠ '\u212a' := by
      rintro rfl
      exact absurd hc (by decide)
    rw [smallLetter_of_lt hc, or_iff_left fun h => hne h.1]
  have hne : c ≠ letter.toLower := by
    rintro rfl
    exact hc hlower
  rw [toLower_of_le (by omega), or_iff_right hne]
  by_cases hkelvin : c = '\u212a'
  · have hsmall : smallLetter '\u212a' = 'k' := by decide
    rw [hkelvin, hsmall, eq_self, true_and, eq_comm]
  · have hsmall := le_smallLetter (by omega) hkelvin
    have hdiffer : smallLetter c ≠ letter.toLower := fun h => by
      rw [h] at hsmall
      omega
    exact iff_of_false (fun h => hkelvin h.1) hdiffer

theorem isAlpha_of_mem_keywords :
    ∀ keyword ∈ keywords, ∀ letter ∈ keyword, letter.isAlpha = true := by decide

/-- A regular text matches a word of letters if the two are the same in small letters. -/
theorem matched_iff {word spelling : Text} (hword : ∀ letter ∈ word, letter.isAlpha = true)
    (hregular : Regular spelling) :
    List.Forall₂ (sameLetter · · = true) word spelling ↔ spelling.toSmall = word.toSmall := by
  have hdotted : '\u0130' ∉ word := fun h => absurd (hword _ h) (by decide)
  rw [Text.toSmall_eq_map hdotted, Text.toSmall_eq_map (hregular _ (by decide))]
  clear hdotted
  induction word generalizing spelling with
  | nil => simp [List.forall₂_nil_left_iff]
  | cons letter word ih =>
    cases spelling with
    | nil => simp
    | cons c spelling =>
      have hc : c ∉ irregularLetters := fun hc => hregular c hc List.mem_cons_self
      rw [List.forall₂_cons, List.map_cons, List.map_cons, List.cons.injEq]
      exact and_congr (sameLetter_iff (hword letter List.mem_cons_self) hc)
        (ih (fun l hl => hword l (List.mem_cons_of_mem _ hl))
          (hregular.mono (List.subset_cons_self c spelling)))

/-- What matches a word is found at the front of a text. -/
theorem matchKeyword?_append {word spelling : Text}
    (h : List.Forall₂ (sameLetter · · = true) word spelling) (rest : Text) :
    matchKeyword? word (spelling ++ rest) = some (spelling, rest) := by
  induction h with
  | nil => rfl
  | cons hsame _ ih => rw [List.cons_append, matchKeyword?, if_pos hsame, ih, Option.map_some]

/-! ## The split of a line -/

/-- The line is a keyword in some spelling, a rest that does not go on with the word, and a
brace. -/
structure Opens (line spelling rest keyword : Text) : Prop where
  keyword_mem : keyword ∈ keywords
  line_eq : line = spelling ++ rest ++ ['{']
  spelled : spelling.toSmall = keyword.toSmall
  stops : ∀ c ∈ rest.head?, isWordChar c = false

section

variable {line spelling rest keyword : Text}

theorem Opens.regular (h : Opens line spelling rest keyword) (hregular : Regular line) :
    Regular spelling := by
  rw [h.line_eq] at hregular
  exact hregular.left.left

theorem Opens.matched (h : Opens line spelling rest keyword) (hregular : Regular line) :
    List.Forall₂ (sameLetter · · = true) keyword spelling :=
  (matched_iff (isAlpha_of_mem_keywords keyword h.keyword_mem) (h.regular hregular)).mpr h.spelled

/-- The shorter of two spellings at the front of a line is that of the same keyword. -/
theorem Opens.keyword_eq {spelling' rest' keyword' : Text}
    (h : Opens line spelling rest keyword) (h' : Opens line spelling' rest' keyword')
    (hregular : Regular line) (hfront : spelling <+: spelling') : keyword = keyword' := by
  have hlower := flatMap_lowerCase (kelvin_not_mem_keywords keyword h.keyword_mem)
    (h.regular hregular) (h.matched hregular)
  have hlower' := flatMap_lowerCase (kelvin_not_mem_keywords keyword' h'.keyword_mem)
    (h'.regular hregular) (h'.matched hregular)
  refine keywords_unnested keyword h.keyword_mem keyword' h'.keyword_mem ?_
  rw [← hlower, ← hlower']
  exact hfront.flatMap lowerCase

/-- **The split is unique.** -/
theorem Opens.unique {spelling' rest' keyword' : Text}
    (h : Opens line spelling rest keyword) (h' : Opens line spelling' rest' keyword')
    (hregular : Regular line) : spelling = spelling' ∧ rest = rest' ∧ keyword = keyword' := by
  have hfront : spelling <+: line := ⟨rest ++ ['{'], by rw [h.line_eq, List.append_assoc]⟩
  have hfront' : spelling' <+: line := ⟨rest' ++ ['{'], by rw [h'.line_eq, List.append_assoc]⟩
  have hkeyword : keyword = keyword' := by
    rcases List.prefix_or_prefix_of_prefix hfront hfront' with hle | hle
    · exact h.keyword_eq h' hregular hle
    · exact (h'.keyword_eq h hregular hle).symm
  -- A spelling is as long as its keyword.
  have hlength : spelling.length = spelling'.length := by
    rw [← (h.matched hregular).length_eq, ← (h'.matched hregular).length_eq, hkeyword]
  have hparts := h.line_eq.symm.trans h'.line_eq
  obtain ⟨hspelling, hrest⟩ := List.append_inj (List.append_cancel_right hparts) hlength
  exact ⟨hspelling, hrest, hkeyword⟩

/-! ## The reader -/

theorem stops_iff :
    (!rest.head?.any isWordChar) = true ↔ ∀ c ∈ rest.head?, isWordChar c = false := by
  cases rest <;> simp

/-- What is read as a heading is a split of the line. -/
theorem opens_of_read? {title : Text} (hregular : Regular line)
    (h : read? line = some (spelling, title)) :
    ∃ rest keyword, Opens (Text.trim line) spelling rest keyword ∧ title = Text.trim rest := by
  obtain ⟨keyword, hkeyword, rest, hline, hletters, hstops, htitle⟩ := read?_spec h
  have htrim := hregular.trim
  rw [hline] at htrim
  have hspelled := (matched_iff (isAlpha_of_mem_keywords keyword hkeyword) htrim.left.left).mp
    hletters
  exact ⟨rest, keyword, ⟨hkeyword, hline, hspelled, stops_iff.mp hstops⟩, htitle⟩

/-- A split of the line is read as a heading. -/
theorem read?_of_opens (hline : '\n' ∉ line) (hregular : Regular line)
    (h : Opens (Text.trim line) spelling rest keyword) :
    read? line = some (spelling, Text.trim rest) := by
  have htrim := hregular.trim
  have hsome : (read? line).isSome = true := by
    have hmatch := matchKeyword?_append (h.matched htrim) rest
    have hnewline : '\n' ∉ Text.trim rest := by
      intro hmem
      refine hline ((Text.trim_infix line).subset ?_)
      rw [h.line_eq]
      simp [(Text.trim_infix rest).subset hmem]
    have hcut : (spelling ++ rest ++ ['{']).dropLast = spelling ++ rest := List.dropLast_concat
    unfold read?
    simp only [h.line_eq, List.getLast?_concat, beq_self_eq_true, if_true, hcut]
    refine List.findSome?_isSome_iff.mpr ⟨keyword, h.keyword_mem, ?_⟩
    refine Option.isSome_iff_exists.mpr ⟨(spelling, Text.trim rest), ?_⟩
    simp only [hmatch, Option.bind_eq_bind, Option.bind_some, Option.bind_eq_some_iff,
      Option.guard_eq_some']
    exact ⟨(), stops_iff.mpr h.stops, (), by simpa using hnewline, rfl⟩
  obtain ⟨⟨spelling', title'⟩, hread⟩ := Option.isSome_iff_exists.mp hsome
  obtain ⟨rest', keyword', h', rfl⟩ := opens_of_read? hregular hread
  obtain ⟨rfl, rfl, -⟩ := h.unique h' htrim
  exact hread

/-- The heading of a line that splits. -/
theorem ofLine?_of_opens (hline : '\n' ∉ line) (hregular : Regular line)
    (h : Opens (Text.trim line) spelling rest keyword) :
    ofLine? line = .ok (some ⟨keyword, Text.trim rest, italicKeywords.contains keyword⟩) := by
  have hkeyword := keywordFor_of_matched h.keyword_mem (h.regular hregular.trim)
    (h.matched hregular.trim)
  simp only [ofLine?, read?_of_opens hline hregular h, hkeyword]
  rfl

/-- A line that does not split is no heading. -/
theorem ofLine?_eq_none (hregular : Regular line)
    (h : ¬ ∃ spelling rest keyword, Opens (Text.trim line) spelling rest keyword) :
    ofLine? line = .ok none := by
  cases hread : read? line with
  | none => simp only [ofLine?, hread]
  | some found =>
    obtain ⟨spelling, title⟩ := found
    obtain ⟨rest, keyword, hopens, -⟩ := opens_of_read? hregular hread
    exact absurd ⟨spelling, rest, keyword, hopens⟩ h

/-- **Headings are recognised exactly.**  A line without irregular letters is a heading if, trimmed,
it is a keyword in some case, a rest that does not go on with the word, and a brace.  The line has
one such split.  The heading has the keyword in its own case, the trimmed rest as its title, and is
in italics for the italic keywords.  Any other line is none, and no line is at fault. -/
theorem ofLine?_exact (hline : '\n' ∉ line) (hregular : Regular line) :
    ((∃ heading, ofLine? line = .ok (some heading)) ↔
      ∃ spelling rest keyword, Opens (Text.trim line) spelling rest keyword) ∧
    (∀ spelling rest keyword, Opens (Text.trim line) spelling rest keyword →
      ofLine? line =
        .ok (some ⟨keyword, Text.trim rest, italicKeywords.contains keyword⟩) ∧
      ∀ spelling' rest' keyword', Opens (Text.trim line) spelling' rest' keyword' →
        spelling = spelling' ∧ rest = rest' ∧ keyword = keyword') ∧
    ((¬ ∃ spelling rest keyword, Opens (Text.trim line) spelling rest keyword) →
      ofLine? line = .ok none) := by
  refine ⟨⟨?_, ?_⟩, ?_, ofLine?_eq_none hregular⟩
  · rintro ⟨heading, hheading⟩
    by_contra hnone
    rw [ofLine?_eq_none hregular hnone] at hheading
    cases hheading
  · rintro ⟨spelling, rest, keyword, h⟩
    exact ⟨_, ofLine?_of_opens hline hregular h⟩
  · intro spelling rest keyword h
    exact ⟨ofLine?_of_opens hline hregular h, fun _ _ _ h' => h.unique h' hregular.trim⟩

theorem ofLine?_exact_kelvin :
    let line : Text := " rEmar\u212a\u00a0 \x7bon\x7d the proof \x7b\t"
    let rest : Text := "\u00a0 \x7bon\x7d the proof "
    ('\n' ∉ line ∧ Regular line ∧ Opens (Text.trim line) "rEmar\u212a" rest "Remark") ∧
    ofLine? line = .ok (some ⟨"Remark", "\x7bon\x7d the proof", true⟩) ∧
    (∀ spelling' rest' keyword', Opens (Text.trim line) spelling' rest' keyword' →
      "rEmar\u212a".toList = spelling' ∧ rest = rest' ∧ "Remark".toList = keyword') := by
  intro line rest
  have hline : '\n' ∉ line := by decide
  have hregular : Regular line := by decide
  have hopens : Opens (Text.trim line) "rEmar\u212a" rest "Remark" :=
    ⟨by decide, by decide, by decide, by decide⟩
  obtain ⟨hheading, hunique⟩ := (ofLine?_exact hline hregular).2.1 _ _ _ hopens
  exact ⟨⟨hline, hregular, hopens⟩, hheading, hunique⟩

end

end Heading

end MathNotes
