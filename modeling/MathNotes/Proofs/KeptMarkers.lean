import MathNotes.Proofs.CommandLines
import MathNotes.Proofs.ControlWords
import MathNotes.Proofs.Hygiene

/-!
# Markers in segmented lines

A marker is made of underscores, the letters of its lead and decimal digits (`Marker.isChar`).  No
marker goes on over any other character, so the markers of a text are those in front of such a
character and those behind it (`Marker.hits_append_cons`).  Everything here follows from that
equation.

Of two tokens side by side one has no such characters, so the markers of a line are those of its
tokens.  A token with an underscore is part of a formula, and what is escaped in it is in no marker;
so prose and white space hold no markers (`Segment.markers_ofToken`).  When segments are written, no
text gets next to another so that a marker could go on from one into the other
(`Segment.hits_renderBehind`).  Altogether segmentation keeps the markers of a line
(`segmentLine_markers`).
-/

namespace MathNotes

/-! ## Characters of markers -/

theorem RangeTable.exists_of_contains {table : RangeTable} {n : Nat}
    (h : table.contains n = true) : ∃ range ∈ table, range.1 ≤ n ∧ n ≤ range.2 := by
  induction table with
  | nil => cases h
  | cons range table ih =>
    rw [RangeTable.contains, Bool.and_eq_true, Bool.or_eq_true, decide_eq_true_eq,
      decide_eq_true_eq] at h
    obtain ⟨hfirst, hlast | hmore⟩ := h
    · exact ⟨range, List.mem_cons_self, hfirst, hlast⟩
    · obtain ⟨found, hmem, hfound⟩ := ih hmore
      exact ⟨found, List.mem_cons_of_mem _ hmem, hfound⟩

theorem isBlank_of_isDecimal {c : Char} (h : isDecimal c = true) : isBlank c = false := by
  have hapart : ∀ first ∈ decimalZeros, ∀ range ∈ blankTable,
      range.2 < first ∨ first + 10 ≤ range.1 := by decide
  by_contra hblank
  rw [Bool.not_eq_false] at hblank
  obtain ⟨range, hrange, hfirst, hlast⟩ := RangeTable.exists_of_contains hblank
  rw [isDecimal, decimalValue?, Option.isSome_map, List.find?_isSome] at h
  obtain ⟨first, hmem, hdigit⟩ := h
  rw [Bool.and_eq_true, decide_eq_true_eq, decide_eq_true_eq] at hdigit
  have := hapart first hmem range hrange
  omega

namespace Marker

/-- Whether a character can be part of a marker. -/
def isChar (c : Char) : Bool := lead.contains c || isDecimal c

theorem isChar_of_mem_ofDigits {digits : Text} (h : ∀ c ∈ digits, isDecimal c = true) {c : Char}
    (hc : c ∈ ofDigits digits) : isChar c = true := by
  rw [ofDigits, List.mem_append, List.mem_append] at hc
  rcases hc with (hc | hc) | hc
  · rw [isChar, List.contains_iff_mem.mpr hc, Bool.true_or]
  · rw [isChar, h c hc, Bool.or_true]
  · have htail : ∀ c ∈ tail, isChar c = true := by decide
    exact htail c hc

theorem kind_of_isChar {c : Char} (h : isChar c = true) : CharKind.of c = .other := by
  rw [isChar, Bool.or_eq_true] at h
  rcases h with hlead | hdecimal
  · have hkinds : ∀ c ∈ lead, CharKind.of c = .other := by decide
    exact hkinds c (List.contains_iff_mem.mp hlead)
  · have hsigns : ∀ d ∈ punctuation, isDecimal d = false := by decide
    have hpunctuation : isPunctuation c = false := by
      by_contra hc
      rw [Bool.not_eq_false, isPunctuation, List.contains_iff_mem] at hc
      rw [hsigns c hc] at hdecimal
      cases hdecimal
    simp [CharKind.of, hpunctuation, isBlank_of_isDecimal hdecimal]

section Parting

variable {c : Char} {a b : Text}

/-- Whether a marker stands at the front of a text is decided in front of any character that is in
no marker. -/
theorem pattern_append_cons (hc : isChar c = false) (previous : Option Char) (a b : Text) :
    pattern previous (a ++ c :: b) = pattern previous a := by
  cases hread : read? a with
  | some found =>
    obtain ⟨digits, rest⟩ := found
    obtain ⟨rfl, hdigits⟩ := read?_eq_some_iff.mp hread
    have hmore : read? (ofDigits digits ++ rest ++ c :: b) = some (digits, rest ++ c :: b) :=
      read?_eq_some_iff.mpr ⟨List.append_assoc .., hdigits⟩
    rw [pattern, pattern, hread, hmore]
    rfl
  | none =>
    rw [pattern_eq_none hread]
    cases hmore : read? (a ++ c :: b) with
    | none => exact pattern_eq_none hmore
    | some found =>
      -- The marker ends in front of the character, so it is read without it.
      obtain ⟨digits, rest⟩ := found
      obtain ⟨htext, hdigits⟩ := read?_eq_some_iff.mp hmore
      have hnot : c ∉ ofDigits digits := fun hmem => by
        rw [isChar_of_mem_ofDigits hdigits.2 hmem] at hc
        cases hc
      rcases char_cases htext.symm with ⟨t, ha, -⟩ | ⟨t, hmarker, -⟩
      · rw [read?_eq_some_iff.mpr ⟨ha, hdigits⟩] at hread
        cases hread
      · exact absurd (by simp [hmarker]) hnot

theorem piecesFrom_append_cons (hc : isChar c = false) (a b : Text) (previous : Option Char)
    {skip : Nat} (hskip : skip ≤ a.length) :
    pattern.piecesFrom previous skip (a ++ c :: b) =
      pattern.piecesFrom previous skip a ++ .char c :: pattern.pieces b := by
  induction a generalizing previous skip with
  | nil =>
    obtain rfl := Nat.le_zero.mp hskip
    have hnone : pattern previous (c :: b) = none := pattern_append_cons hc previous [] b
    simp only [List.nil_append, Pattern.piecesFrom, hnone]
    cases b <;> rfl
  | cons d a ih =>
    rw [List.cons_append, Pattern.piecesFrom.eq_def, Pattern.piecesFrom.eq_def _ _ _ (d :: a)]
    cases skip with
    | succ k => exact ih _ (Nat.le_of_succ_le_succ hskip)
    | zero =>
      simp only
      rw [← List.cons_append, pattern_append_cons hc]
      cases hhit : pattern previous (d :: a) with
      | none => simp [ih _ (Nat.zero_le _)]
      | some hit =>
        have hwidth := (recognises_pattern.proper hhit).2
        rw [List.length_cons] at hwidth
        simp [ih (some d) (Nat.sub_le_of_le_add hwidth)]

/-- **No marker goes on over a character that is in none.** -/
theorem hits_append_cons (hc : isChar c = false) (a b : Text) :
    pattern.hits (a ++ c :: b) = pattern.hits a ++ pattern.hits b := by
  rw [Pattern.hits, Pattern.pieces, piecesFrom_append_cons hc a b none (Nat.zero_le _),
    List.filterMap_append]
  rfl

theorem hits_cons (hc : isChar c = false) (b : Text) : pattern.hits (c :: b) = pattern.hits b :=
  hits_append_cons hc [] b

theorem hits_of_not_mem {text : Text} (h : '_' ∉ text) : pattern.hits text = [] := by
  have hpass := Pattern.piecesFrom_pass (misses_of_not_mem h [])
  rw [List.append_nil] at hpass
  rw [Pattern.hits, Pattern.pieces, hpass]
  simp [Pattern.piecesFrom]

/-- Two texts of which one shows the other a character that is in no marker. -/
def Parted (a b : Text) : Prop :=
  (∃ c ∈ a.getLast?, isChar c = false) ∨ ∃ c ∈ b.head?, isChar c = false

theorem parted_of_head {c : Char} (hc : isChar c = false) (h : b.head? = some c) : Parted a b :=
  .inr ⟨c, h, hc⟩

theorem parted_of_last {c : Char} (hc : isChar c = false) (h : a.getLast? = some c) : Parted a b :=
  .inl ⟨c, h, hc⟩

theorem hits_append (h : Parted a b) :
    pattern.hits (a ++ b) = pattern.hits a ++ pattern.hits b := by
  rcases h with ⟨c, hlast, hc⟩ | ⟨c, hhead, hc⟩
  · obtain ⟨front, rfl⟩ := List.getLast?_eq_some_iff.mp hlast
    rw [List.append_assoc, List.singleton_append, hits_append_cons hc, hits_append_cons hc]
    simp [Pattern.hits, Pattern.pieces, Pattern.piecesFrom]
  · obtain ⟨rest, rfl⟩ := List.head?_eq_some_iff.mp hhead
    rw [hits_append_cons hc, hits_cons hc]

theorem Parted.append (h : Parted a b) (front back : Text) : Parted (front ++ a) (b ++ back) := by
  rcases h with ⟨c, hlast, hc⟩ | ⟨c, hhead, hc⟩
  · refine parted_of_last hc ?_
    rw [List.getLast?_append, Option.mem_def.mp hlast, Option.some_or]
  · refine parted_of_head hc ?_
    rw [List.head?_append, Option.mem_def.mp hhead, Option.some_or]

end Parting

/-! ## Tokens -/

theorem parted_of_kinds {a b : Text} {c d : Char} (hlast : a.getLast? = some c)
    (hhead : b.head? = some d) (h : CharKind.of c ≠ CharKind.of d) : Parted a b := by
  by_cases hd : isChar d = true
  · refine parted_of_last (Bool.eq_false_iff.mpr fun hc => h ?_) hlast
    rw [kind_of_isChar hc, kind_of_isChar hd]
  · exact parted_of_head (Bool.eq_false_iff.mpr hd) hhead

/-- **The markers of a line are those of its tokens.** -/
theorem hits_tokens {line : Text} {tokens : List Text} (h : Tokenized line tokens) :
    pattern.hits line = tokens.flatMap pattern.hits := by
  induction h with
  | nil => rfl
  | @cons run rest tokens hne _ hstop _ ih =>
    rw [List.flatMap_cons, ← ih]
    cases hhead : rest.head? with
    | none =>
      rw [List.head?_eq_none_iff.mp hhead, List.append_nil]
      exact (List.append_nil _).symm
    | some d =>
      have hlast := List.getLast?_eq_some_getLast hne
      exact hits_append (parted_of_kinds hlast hhead
        (hstop _ (List.getLast_mem hne) d hhead))

end Marker

/-! ## Prose -/

namespace Latex

theorem prose_eq (content : Text) :
    prose content = '\\' :: ("text\x7b".toList ++ escapeText content ++ ['}']) := by
  simp [prose, command, braced]

theorem not_mem_escapeText {content : Text} (h : '_' ∉ content) : '_' ∉ escapeText content := by
  intro hmem
  obtain ⟨c, hc, hmem⟩ := List.mem_flatMap.mp hmem
  rw [escapeChar] at hmem
  split_ifs at hmem
  · exact absurd hmem (by decide)
  · obtain rfl : '_' = c := by simpa using hmem
    exact h hc
  · obtain rfl : '_' = c := by simpa using hmem
    exact h hc

end Latex

/-! ## Segments -/

namespace Segment

/-- The markers of a segment. Only formulas have any. -/
def markers : Segment → List Text
  | math content => Marker.pattern.hits content
  | _ => []

theorem hits_append_escapeMath (front text : Text) :
    Marker.pattern.hits (front ++ escapeMath text) = Marker.pattern.hits (front ++ text) := by
  induction text generalizing front with
  | nil => rfl
  | cons c text ih =>
    rw [show escapeMath (c :: text) = escapeMathChar c ++ escapeMath text from rfl, escapeMathChar]
    split
    · rename_i hspecial
      have hsigns : ∀ c ∈ "%#&$".toList, Marker.isChar c = false := by decide
      have hc := hsigns c (List.contains_iff_mem.mp hspecial)
      calc Marker.pattern.hits (front ++ '\\' :: c :: escapeMath text)
          = Marker.pattern.hits front ++ Marker.pattern.hits (escapeMath text) := by
            rw [Marker.hits_append_cons (by decide), Marker.hits_cons hc]
        _ = Marker.pattern.hits (front ++ c :: text) := by
            rw [Marker.hits_append_cons hc]
            exact congrArg _ (ih [])
    · simpa using ih (front ++ [c])

/-- What is escaped in a formula is in no marker. -/
theorem hits_escapeMath (text : Text) :
    Marker.pattern.hits (escapeMath text) = Marker.pattern.hits text :=
  hits_append_escapeMath [] text

/-- The symbol table holds no marker, and nothing that a marker could go on from. -/
theorem tokens_unmarked : ∀ p ∈ Symbol.tokens, '_' ∉ p.1 ∧ '_' ∉ p.2 ∧
    ∃ c ∈ p.2.getLast?, Marker.isChar c = false := by
  decide

/-- **A token and its segment have the same markers.** -/
theorem markers_ofToken (prose : Bool) (token : Text) (next : Option Text) :
    (if prose then ofToken token next else (ofToken token next).asMath).markers =
      Marker.pattern.hits token := by
  rcases ofToken_cases token next with ⟨h, hblank⟩ | ⟨h, -⟩ | h | h | ⟨h, hunder⟩
  · have hunder : '_' ∉ token := fun hmem => absurd (hblank _ hmem) (by decide)
    rw [h, Marker.hits_of_not_mem hunder]
    cases prose <;> rfl
  · rw [h]
    cases prose <;> rfl
  · have hsymbol : Marker.pattern.hits (symbolFor token) = Marker.pattern.hits token := by
      rcases symbolFor_cases token with ⟨p, hp, rfl, hvalue⟩ | ⟨-, hvalue⟩
      · obtain ⟨hunder, hunder', -⟩ := tokens_unmarked p hp
        rw [hvalue, Marker.hits_of_not_mem hunder, Marker.hits_of_not_mem hunder']
      · rw [hvalue]
    rw [h, ← hsymbol, ← hits_escapeMath]
    cases prose <;> rfl
  · rw [h, ← hits_escapeMath]
    cases prose <;> rfl
  · rw [h]
    cases prose with
    | true => exact (Marker.hits_of_not_mem hunder).symm
    | false => exact hits_escapeMath token

theorem markers_ofLine (prose : Bool) (tokens : List Text) :
    (ofLine prose tokens).flatMap markers = tokens.flatMap Marker.pattern.hits := by
  induction tokens with
  | nil => cases prose <;> rfl
  | cons token tokens ih =>
    obtain ⟨next, hsegments⟩ := ofLine_cons prose token tokens
    rw [hsegments, List.flatMap_cons, List.flatMap_cons, markers_ofToken, ih]

/-! ## Segments side by side -/

/-- What may stand next to each other: no white space next to white space, and no two formulas of
which a marker could go on from one into the other. -/
def Apart (a b : Segment) : Prop :=
  ¬(a.isSpace = true ∧ b.isSpace = true) ∧
    ∀ x y, a = math x → b = math y → Marker.Parted x y

/-- Both ends of what is written for punctuation are in no marker. -/
theorem ends_punctuation {token content : Text} (hne : token ≠ [])
    (hkind : ∀ c ∈ token, CharKind.of c = .punctuation) (prose : Bool) (next : Option Text)
    (hmath : (if prose then ofToken token next else (ofToken token next).asMath) = math content) :
    (∃ c ∈ content.head?, Marker.isChar c = false) ∧
      ∃ c ∈ content.getLast?, Marker.isChar c = false := by
  have hall : ∀ c ∈ token, isPunctuation c = true := fun c hc => isPunctuation_of_kind (hkind c hc)
  rw [ofToken_punctuation hne hall] at hmath
  have hcontent : escapeMath (symbolFor token) = content := by
    cases prose <;> exact Segment.math.inj hmath
  rcases symbolFor_cases token with ⟨p, hp, -, hvalue⟩ | ⟨-, hvalue⟩
  · obtain ⟨hescape, -, hhead, -⟩ := tokens_spec p hp
    rw [← hcontent, hvalue, hescape]
    exact ⟨⟨'\\', hhead, by decide⟩, (tokens_unmarked p hp).2.2⟩
  · have hspecial : ∀ d ∈ punctuation, d ∉ "%#&$".toList := by decide
    have hself : escapeMath token = token := escapeMath_eq_self fun d hd =>
      hspecial d (List.contains_iff_mem.mp (hall d hd))
    have hsign : ∀ c ∈ token, Marker.isChar c = false := fun c hc => by
      rw [Bool.eq_false_iff]
      intro hchar
      cases (hkind c hc).symm.trans (Marker.kind_of_isChar hchar)
    rw [← hcontent, hvalue, hself]
    exact ⟨⟨_, List.head?_eq_some_head hne, hsign _ (List.head_mem hne)⟩,
      ⟨_, List.getLast?_eq_some_getLast hne, hsign _ (List.getLast_mem hne)⟩⟩

theorem kind_ne_blank {token content : Text}
    (hkind : ∀ c ∈ token, ∀ d ∈ token, CharKind.of c = CharKind.of d) (prose : Bool)
    (next : Option Text)
    (hmath : (if prose then ofToken token next else (ofToken token next).asMath) = math content) :
    ∀ c ∈ token, CharKind.of c ≠ .blank := by
  intro c hc hblank
  have hrun : Text.isBlankRun token = true := by
    rw [Text.isBlankRun, Bool.and_eq_true, List.all_eq_true]
    exact ⟨by simpa using List.ne_nil_of_mem hc,
      fun d hd => isBlank_of_kind ((hkind d hd c hc).trans hblank)⟩
  rw [ofToken, if_pos hrun] at hmath
  cases prose <;> cases hmath

/-- Tokens of different kinds are kept apart. -/
theorem apart_of_kinds {run next : Text} (hrun : run ≠ []) (hnext : next ≠ [])
    (hkind : ∀ c ∈ run, ∀ d ∈ run, CharKind.of c = CharKind.of d)
    (hkind' : ∀ c ∈ next, ∀ d ∈ next, CharKind.of c = CharKind.of d)
    (hdiff : ∀ c ∈ run, ∀ d ∈ next, CharKind.of c ≠ CharKind.of d) (prose : Bool)
    (behind behind' : Option Text) :
    Apart (if prose then ofToken run behind else (ofToken run behind).asMath)
      (if prose then ofToken next behind' else (ofToken next behind').asMath) := by
  obtain ⟨c, hc⟩ := List.exists_mem_of_ne_nil _ hrun
  obtain ⟨d, hd⟩ := List.exists_mem_of_ne_nil _ hnext
  refine ⟨?_, fun x y hx hy => ?_⟩
  · rintro ⟨hspace, hspace'⟩
    have hcast : ∀ segment : Segment,
        (if prose then segment else segment.asMath).isSpace = segment.isSpace := by
      rintro (_ | _ | _) <;> cases prose <;> rfl
    rw [hcast] at hspace hspace'
    refine hdiff c hc d hd ?_
    rw [(blank_of_isSpace hspace).kind hc, (blank_of_isSpace hspace').kind hd]
  · -- Neither is white space, so one of them is punctuation.
    have hblank := kind_ne_blank hkind prose behind hx c hc
    have hblank' := kind_ne_blank hkind' prose behind' hy d hd
    cases hc' : CharKind.of c with
    | blank => exact absurd hc' hblank
    | punctuation =>
      exact .inl (ends_punctuation hrun (fun e he => (hkind e he c hc).trans hc') prose behind hx).2
    | other =>
      cases hd' : CharKind.of d with
      | blank => exact absurd hd' hblank'
      | punctuation =>
        exact .inr
          (ends_punctuation hnext (fun e he => (hkind' e he d hd).trans hd') prose behind' hy).1
      | other => exact absurd (hc'.trans hd'.symm) (hdiff c hc d hd)

theorem apart_ofLine {line : Text} {tokens : List Text} (h : Tokenized line tokens) (prose : Bool) :
    (ofLine prose tokens).IsChain Apart := by
  induction h with
  | nil => cases prose <;> exact .nil
  | @cons run rest tokens hne hkind hstop more ih =>
    obtain ⟨behind, hsegments⟩ := ofLine_cons prose run tokens
    rw [hsegments]
    refine List.isChain_cons.mpr ⟨?_, ih⟩
    cases more with
    | nil => cases prose <;> exact fun _ h => by cases h
    | @cons next rest tokens hne' hkind' _ _ =>
      obtain ⟨behind', hsegments'⟩ := ofLine_cons prose next tokens
      rw [hsegments']
      rintro segment hsegment
      obtain rfl := Option.some.inj hsegment
      obtain ⟨d, token, rfl⟩ := List.exists_cons_of_ne_nil hne'
      refine apart_of_kinds hne hne' hkind hkind' (fun c hc e he heq => ?_) prose behind behind'
      exact hstop c hc d rfl (heq.trans (hkind' e he d List.mem_cons_self))

/-! ## Merging -/

theorem markers_textBehindSpace? {segments rest : List Segment} {content : Text}
    (h : textBehindSpace? segments = some (content, rest)) :
    segments.flatMap markers = rest.flatMap markers := by
  fun_induction textBehindSpace? segments with
  | case1 =>
    cases h
    rfl
  | case2 blanks segments _ ih => exact ih h
  | case3 => cases h

/-- Merging words changes no formula. -/
theorem markers_mergeText (segments : List Segment) :
    (mergeText segments).flatMap markers = segments.flatMap markers := by
  induction segments with
  | nil => rfl
  | cons segment segments ih =>
    rw [List.flatMap_cons, ← ih]
    cases segment with
    | math content => rfl
    | space blanks => rfl
    | text word =>
      rw [mergeText, consText]
      split
      · rename_i hfound
        exact (markers_textBehindSpace? hfound).symm
      · rfl

theorem head?_mergeText (segments : List Segment) :
    (mergeText segments).head? = segments.head? ∨
      ∃ content, (mergeText segments).head? = some (text content) := by
  rcases segments with _ | ⟨word | content | blanks, segments⟩
  · exact .inl rfl
  · rw [mergeText, consText]
    split <;> exact .inr ⟨_, rfl⟩
  · exact .inl rfl
  · exact .inl rfl

/-- A relation between neighbours that prose is in with everything is kept when words merge. -/
theorem isChain_mergeText {R : Segment → Segment → Prop} (hleft : ∀ content b, R (text content) b)
    (hright : ∀ a content, R a (text content)) {segments : List Segment} (h : segments.IsChain R) :
    (mergeText segments).IsChain R := by
  induction segments with
  | nil => exact .nil
  | cons segment segments ih =>
    obtain ⟨hhead, htail⟩ := List.isChain_cons.mp h
    have hcons : (segment :: mergeText segments).IsChain R := by
      refine List.isChain_cons.mpr ⟨fun b hb => ?_, ih htail⟩
      rcases head?_mergeText segments with heq | ⟨content, heq⟩
      · exact hhead b (heq ▸ hb)
      · obtain rfl : text content = b := Option.some.inj (heq.symm.trans hb)
        exact hright segment content
    cases segment with
    | math content => exact hcons
    | space blanks => exact hcons
    | text word =>
      rw [mergeText, consText]
      split
      · rename_i content rest hfound
        obtain ⟨-, hsuffix⟩ := textBehindSpace?_mem hfound
        exact List.isChain_cons.mpr ⟨fun b _ => hleft _ b, (ih htail).suffix hsuffix⟩
      · exact hcons

/-- A property of words that is kept when words are joined holds of merged prose. -/
theorem forall_text_mergeText {P : Text → Prop} (hjoin : ∀ a b, P a → P b → P (a ++ ' ' :: b))
    {segments : List Segment} (h : ∀ content, text content ∈ segments → P content) :
    ∀ content, text content ∈ mergeText segments → P content := by
  induction segments with
  | nil => exact h
  | cons segment segments ih =>
    have hrest := ih fun content hmem => h content (List.mem_cons_of_mem _ hmem)
    cases segment with
    | math formula => exact fun content hmem => hrest content (by simpa [mergeText] using hmem)
    | space blanks => exact fun content hmem => hrest content (by simpa [mergeText] using hmem)
    | text word =>
      have hword := h word List.mem_cons_self
      intro content hmem
      rw [mergeText, consText] at hmem
      split at hmem
      · rename_i merged rest hfound
        obtain ⟨hmerged, hsuffix⟩ := textBehindSpace?_mem hfound
        rcases List.mem_cons.mp hmem with heq | hmem
        · obtain rfl := Segment.text.inj heq
          exact hjoin _ _ hword (hrest _ hmerged)
        · exact hrest content (hsuffix.subset hmem)
      · rcases List.mem_cons.mp hmem with heq | hmem
        · obtain rfl := Segment.text.inj heq
          exact hword
        · exact hrest content hmem

/-! ## Writing -/

/-- Prose without underscores is in no marker, and no marker goes on over it. -/
theorem hits_prose {content : Text} (h : '_' ∉ content) (front back : Text) :
    Marker.pattern.hits (front ++ Latex.prose content ++ back) =
      Marker.pattern.hits front ++ Marker.pattern.hits back := by
  have hinside : '_' ∉ "text\x7b".toList ++ Latex.escapeText content := by
    simp [Latex.not_mem_escapeText h]
  rw [Latex.prose_eq, List.append_assoc, List.cons_append, Marker.hits_append_cons (by decide),
    List.append_assoc _ ['}'], List.singleton_append, Marker.hits_append_cons (by decide),
    Marker.hits_of_not_mem hinside, List.nil_append]

theorem proseGap_cases (close : Text → Bool) (neighbour : Option Segment) :
    proseGap close neighbour = [] ∨ proseGap close neighbour = ['\\', ' '] := by
  unfold proseGap
  split
  · split
    · exact .inl rfl
    · exact .inr rfl
  · exact .inl rfl

theorem operatorGap_cases (neighbour : Option Segment) :
    operatorGap neighbour = [] ∨ operatorGap neighbour = [' '] := by
  unfold operatorGap
  split
  · exact .inr rfl
  · exact .inl rfl

/-- **A segment is written with its own markers.** -/
theorem hits_renderOne {segment : Segment} (h : ∀ content, segment = text content → '_' ∉ content)
    (before after : List Segment) :
    Marker.pattern.hits (renderOne before segment after) = segment.markers := by
  cases segment with
  | math content =>
    rw [renderOne]
    split
    · rename_i hop
      obtain ⟨p, hp, rfl⟩ := List.mem_map.mp (List.contains_iff_mem.mp hop)
      have hcontent := (tokens_unmarked p (List.mem_of_mem_filter hp)).2.1
      have hgap : ∀ neighbour, '_' ∉ operatorGap neighbour := fun neighbour => by
        rcases operatorGap_cases neighbour with heq | heq <;> simp [heq]
      rw [markers, Marker.hits_of_not_mem hcontent]
      exact Marker.hits_of_not_mem (by simp [hcontent, hgap])
    · rfl
  | space blanks =>
    rw [renderOne]
    split <;> exact Marker.hits_of_not_mem (by decide)
  | text content =>
    have hgap : ∀ close neighbour, '_' ∉ proseGap close neighbour := fun close neighbour => by
      rcases proseGap_cases close neighbour with heq | heq <;> simp [heq]
    rw [renderOne, hits_prose (h content rfl), Marker.hits_of_not_mem (hgap _ _),
      Marker.hits_of_not_mem (hgap _ _)]
    rfl

/-- Both ends of what is written for prose are in no marker. -/
theorem ends_renderOne_text (before after : List Segment) (content : Text) :
    (∃ c ∈ (renderOne before (text content) after).head?, Marker.isChar c = false) ∧
      ∃ c ∈ (renderOne before (text content) after).getLast?, Marker.isChar c = false := by
  rw [renderOne, Latex.prose_eq, ← List.cons_append]
  constructor
  · refine ⟨'\\', ?_, by decide⟩
    rcases proseGap_cases endsOpen (nearest? before) with heq | heq <;> simp [heq]
  · rcases proseGap_cases startsClosed (nearest? after) with heq | heq
    · exact ⟨'}', by rw [heq, List.append_nil, ← List.append_assoc, List.getLast?_concat]; rfl,
        by decide⟩
    · exact ⟨' ', by rw [heq, List.append_cons, List.getLast?_concat]; rfl, by decide⟩

theorem parted_text (written : Text) (before rest : List Segment) (content : Text) :
    Marker.Parted written (renderBehind before (text content :: rest)) := by
  have h : Marker.Parted written (renderOne before (text content) rest) :=
    .inr (ends_renderOne_text before rest content).1
  exact h.append [] _

theorem parted_math {x y : Text} (h : Marker.Parted x y) (before rest : List Segment) :
    Marker.Parted (renderOne before (math x) (math y :: rest))
      (renderBehind (math x :: before) (math y :: rest)) := by
  have hblank : Marker.isChar ' ' = false := by decide
  rw [renderBehind, renderOne, renderOne]
  by_cases hx : operatorCommands.contains x = true
  · rw [if_pos hx]
    exact Marker.parted_of_last hblank (by simp [operatorGap, isMath])
  · rw [if_neg hx]
    by_cases hy : operatorCommands.contains y = true
    · rw [if_pos hy]
      exact Marker.parted_of_head hblank rfl
    · rw [if_neg hy]
      exact h.append [] _

/-- What is written behind a formula does not go on with a marker of the formula. -/
theorem parted_renderBehind {content : Text} {after : List Segment}
    (h : (math content :: after).IsChain Apart) (before : List Segment) :
    renderBehind (math content :: before) after = [] ∨
      Marker.Parted (renderOne before (math content) after)
        (renderBehind (math content :: before) after) := by
  rcases after with _ | ⟨prose | formula | blanks, rest⟩
  · exact .inl rfl
  · exact .inr (parted_text ..)
  · exact .inr (parted_math ((List.isChain_cons_cons.mp h).1.2 _ _ rfl rfl) before rest)
  · -- White space is written where a formula follows it, and dropped in front of prose.
    rcases rest with _ | ⟨prose | formula | blanks', rest⟩
    · exact .inl rfl
    · exact .inr (parted_text ..)
    · exact .inr (Marker.parted_of_head (c := ' ') (by decide) rfl)
    · exact absurd ⟨rfl, rfl⟩ (List.isChain_cons_cons.mp (List.isChain_cons_cons.mp h).2).1.1

/-- **Segments are written with the markers of their formulas.** -/
theorem hits_renderBehind {segments : List Segment} (h : segments.IsChain Apart)
    (hprose : ∀ content, text content ∈ segments → '_' ∉ content) (before : List Segment) :
    Marker.pattern.hits (renderBehind before segments) = segments.flatMap markers := by
  induction segments generalizing before with
  | nil => rfl
  | cons segment segments ih =>
    have hown : ∀ content, segment = text content → '_' ∉ content := fun content heq =>
      hprose content (heq ▸ List.mem_cons_self)
    have hone := hits_renderOne hown before segments
    have hrest := ih h.tail (fun content hmem => hprose content (List.mem_cons_of_mem _ hmem))
      (segment :: before)
    rw [renderBehind, List.flatMap_cons, ← hone, ← hrest]
    cases segment with
    | text content =>
      exact Marker.hits_append (.inl (ends_renderOne_text before segments content).2)
    | space blanks =>
      rw [renderOne]
      split
      · exact Marker.hits_append (Marker.parted_of_last (c := ' ') (by decide) rfl)
      · rfl
    | math content =>
      rcases parted_renderBehind h before with hnil | hparted
      · rw [hnil, List.append_nil]
        exact (List.append_nil _).symm
      · exact Marker.hits_append hparted

theorem prose_infix_renderBehind {segments : List Segment} {content : Text}
    (h : text content ∈ segments) (before : List Segment) :
    Latex.prose content <:+: renderBehind before segments := by
  induction segments generalizing before with
  | nil => cases h
  | cons segment segments ih =>
    rw [renderBehind]
    rcases List.mem_cons.mp h with rfl | hmem
    · refine List.IsInfix.trans ?_ (List.prefix_append _ _).isInfix
      exact ⟨_, _, rfl⟩
    · exact (ih hmem _).trans (List.suffix_append _ _).isInfix

end Segment

/-! ## Lines -/

theorem Segment.not_mem_ofLine {prose : Bool} {tokens : List Text} {content : Text}
    (h : text content ∈ ofLine prose tokens) : '_' ∉ content := by
  induction tokens with
  | nil => cases prose <;> cases h
  | cons token tokens ih =>
    obtain ⟨next, hsegments⟩ := ofLine_cons prose token tokens
    rw [hsegments] at h
    rcases List.mem_cons.mp h with heq | h
    · rcases ofToken_cases token next with ⟨hcase, -⟩ | ⟨hcase, -⟩ | hcase | hcase | ⟨hcase, hunder⟩
      all_goals
        rw [hcase] at heq
        cases prose <;> cases heq
      exact hunder
    · exact ih h

theorem Segment.not_mem_mergeText {prose : Bool} {tokens : List Text} {content : Text}
    (h : text content ∈ mergeText (ofLine prose tokens)) : '_' ∉ content :=
  forall_text_mergeText (P := ('_' ∉ ·)) (fun a b ha hb => by simp [ha, hb])
    (fun _ hword => not_mem_ofLine hword) content h

theorem Segment.apart_mergeText {line : Text} {tokens : List Text} (h : Tokenized line tokens)
    (prose : Bool) : (mergeText (ofLine prose tokens)).IsChain Apart := by
  refine isChain_mergeText (fun content b => ⟨?_, ?_⟩) (fun a content => ⟨?_, ?_⟩)
    (apart_ofLine h prose)
  · rintro ⟨hspace, -⟩
    cases hspace
  · intro x y hx
    cases hx
  · rintro ⟨-, hspace⟩
    cases hspace
  · intro x y _ hy
    cases hy

/-- **Segmentation keeps every marker.**  The written line has the markers of the line, in their
order.  For every run of prose `\text{…}` is written, and wherever that stands in the written line,
the markers of the line are those in front of it and those behind it. -/
theorem segmentLine_markers (prose : Bool) (line : Text) :
    ∃ segments written, Segment.classify (tokenize line) = .ok segments ∧
      Checked.segmentLine prose line = .ok written ∧
      Marker.pattern.hits written = Marker.pattern.hits line ∧
      ∀ content, .text content ∈
          Segment.mergeText (if prose then segments else segments.map Segment.asMath) →
        Latex.prose content <:+: written ∧
          ∀ front back, written = front ++ Latex.prose content ++ back →
            Marker.pattern.hits line = Marker.pattern.hits front ++ Marker.pattern.hits back := by
  have htokens := tokenized_tokenize line
  have hkept : Marker.pattern.hits (segmentLine prose line) = Marker.pattern.hits line := by
    calc Marker.pattern.hits (segmentLine prose line)
        = (Segment.mergeText (Segment.ofLine prose (tokenize line))).flatMap Segment.markers :=
          Segment.hits_renderBehind (Segment.apart_mergeText htokens prose)
            (fun _ => Segment.not_mem_mergeText) []
      _ = (tokenize line).flatMap Marker.pattern.hits := by
          rw [Segment.markers_mergeText, Segment.markers_ofLine]
      _ = Marker.pattern.hits line := (Marker.hits_tokens htokens).symm
  refine ⟨_, _, Checked.classify_eq htokens, Checked.segmentLine_eq prose line, hkept,
    fun content hmem => ⟨Segment.prose_infix_renderBehind hmem [], ?_⟩⟩
  intro front back hcut
  rw [← hkept, hcut, Segment.hits_prose (Segment.not_mem_mergeText hmem)]

theorem segmentLine_markers_between :
    let line : Text := "let __PH07__ be 5% of a__PH1__PH2__, if (__PH) 3__ is \\__PH\u0664__&"
    (Marker.pattern.hits line = ["07".toList, "1".toList, "\u0664".toList] ∧
      Segment.text "be" ∈ Segment.mergeText (Segment.ofTokens (tokenize line))) ∧
    ∃ segments written, Segment.classify (tokenize line) = .ok segments ∧
      Checked.segmentLine true line = .ok written ∧
      Marker.pattern.hits written = Marker.pattern.hits line ∧
      ∀ content, .text content ∈
          Segment.mergeText (if true then segments else segments.map Segment.asMath) →
        Latex.prose content <:+: written ∧
          ∀ front back, written = front ++ Latex.prose content ++ back →
            Marker.pattern.hits line = Marker.pattern.hits front ++ Marker.pattern.hits back :=
  ⟨by decide, segmentLine_markers true _⟩

end MathNotes
