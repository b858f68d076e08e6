import MathNotes.Proofs.Echo
import MathNotes.Segment.Line

/-!
# Segmented lines

A line is cut into tokens, every token becomes a segment, words are merged, and the segments are
written out.  Each segment echoes the part of the line that it stands for (`Segment.Casts`); only
white space next to prose or at the ends of the line is dropped, and there no letter gets next to
another (`Segment.exists_renderBehind`).  So the segmented line says what the line says
(`exists_segmentLine`).
-/

namespace MathNotes

open Marked

/-! ## Tokens -/

/-- A text cut into runs of one kind, each as long as possible. -/
inductive Tokenized : Text → List Text → Prop
  | nil : Tokenized [] []
  | cons {run rest : Text} {tokens : List Text} (hne : run ≠ [])
      (hkind : ∀ c ∈ run, ∀ d ∈ run, CharKind.of c = CharKind.of d)
      (hstop : ∀ c ∈ run, ∀ d ∈ rest.head?, CharKind.of c ≠ CharKind.of d)
      (more : Tokenized rest tokens) : Tokenized (run ++ rest) (run :: tokens)

/-- **The tokens of a line are its maximal runs.** -/
theorem tokenized_tokenize (line : Text) : Tokenized line (tokenize line) := by
  induction line with
  | nil => exact .nil
  | cons c rest ih =>
    rw [tokenize]
    generalize tokenize rest = tokens at ih
    cases ih with
    | nil => exact show Tokenized ([c] ++ []) [[c]] from .cons (by simp) (by simp) (by simp) .nil
    | @cons run rest tokens hne hkind hstop more =>
      cases run with
      | nil => exact absurd rfl hne
      | cons next token =>
        simp only
        split
        · -- The character joins the first run.
          rename_i heq
          refine show Tokenized ((c :: next :: token) ++ rest) _ from .cons (by simp) ?_ ?_ more
          · have hc : ∀ d ∈ next :: token, CharKind.of c = CharKind.of d := fun d hd =>
              heq.trans (hkind next List.mem_cons_self d hd)
            intro a ha b hb
            rw [List.mem_cons] at ha hb
            rcases ha with rfl | ha <;> rcases hb with rfl | hb
            · rfl
            · exact hc b hb
            · exact (hc a ha).symm
            · exact hkind a ha b hb
          · intro a ha d hd
            rcases List.mem_cons.mp ha with rfl | ha
            · rw [heq]
              exact hstop next List.mem_cons_self d hd
            · exact hstop a ha d hd
        · -- The character is a run of its own.
          rename_i hdiff
          refine show Tokenized ([c] ++ _) _ from
            .cons (by simp) (by simp) ?_ (.cons hne hkind hstop more)
          simpa using hdiff

theorem isPunctuation_of_isNameChar {c : Char} (h : isNameChar c = true) :
    isPunctuation c = false := by
  by_contra hp
  rw [Bool.not_eq_false, isPunctuation, List.contains_iff_mem] at hp
  have key : ∀ d ∈ punctuation, isNameChar d = false := by decide
  rw [key c hp] at h
  cases h

theorem kind_of_isNameChar {c : Char} (h : isNameChar c = true) : CharKind.of c = .other := by
  have hb : isBlank c = false := by
    by_contra hb
    rw [isNameChar_of_isBlank (by simpa using hb)] at h
    cases h
  simp [CharKind.of, hb, isPunctuation_of_isNameChar h]

/-- Two characters of different kinds are not both characters of a name. -/
theorem seam_of_kinds {a b : Text}
    (h : ∀ c ∈ a.getLast?, ∀ d ∈ b.head?, CharKind.of c ≠ CharKind.of d) : Seam a b := by
  by_cases hb : ∀ d ∈ b.head?, isNameChar d = false
  · exact seam_of_head hb
  · simp only [not_forall, Bool.not_eq_false] at hb
    obtain ⟨d, hd, hname⟩ := hb
    refine seam_of_last fun c hc => ?_
    by_contra hc'
    rw [Bool.not_eq_false] at hc'
    exact h c hc d hd ((kind_of_isNameChar hc').trans (kind_of_isNameChar hname).symm)

/-- Tokens are cut where no marker is. -/
theorem exists_tokens {line : Text} {tokens : List Text} (h : Tokenized line tokens) (w : Marked)
    (hw : w.text = line) : ∃ parts : List Marked, parts.map Marked.text = tokens ∧
      parts.flatten = w := by
  induction h generalizing w with
  | nil =>
    exact ⟨[], rfl, (eq_nil_of_text hw).symm⟩
  | cons _ _ hstop _ ih =>
    obtain ⟨u, v, rfl, rfl, hv⟩ := split hw
      (seam_of_kinds fun c hc => hstop c (List.mem_of_getLast? hc))
    obtain ⟨parts, hparts, rfl⟩ := ih v hv
    exact ⟨u :: parts, by rw [List.map_cons, hparts], rfl⟩

/-! ## Segments -/

namespace Segment

/-- A segment and the part of the line that it stands for. -/
inductive Casts : Segment → Marked → Prop
  | space {blanks : Text} (h : blanks.Blank) : Casts (.space blanks) (plain blanks)
  | math {u t : Marked} (h : u.Echoes t) : Casts (.math t.text) u
  | text {source content : Text} (h : (plain source).Echoes (plain content)) :
      Casts (.text content) (plain source)

theorem escapeMath_of_isNameChar {text : Text} (h : ∀ c ∈ text, isNameChar c = true) :
    escapeMath text = text := by
  have hspecial : ∀ c ∈ "%#&$".toList, isNameChar c = false := by decide
  have hchar : ∀ c ∈ text, escapeMathChar c = [c] := by
    intro c hc
    have hnot : c ∉ "%#&$".toList := fun hm => by
      have := hspecial c hm
      rw [h c hc] at this
      cases this
    rw [escapeMathChar, if_neg (by simpa using hnot)]
  rw [escapeMath, List.flatMap_congr hchar, List.flatMap_singleton']

theorem escapeMath_append (a b : Text) : escapeMath (a ++ b) = escapeMath a ++ escapeMath b :=
  List.flatMap_append

/-- The escaped form of an item. -/
def escapeItem : Piece Nat → Marked
  | .char c => plain (escapeMathChar c)
  | .hit n => [.hit n]

theorem text_escape (u : Marked) : Marked.text (u.flatMap escapeItem) = escapeMath u.text := by
  induction u with
  | nil => rfl
  | cons x u ih =>
    rw [List.flatMap_cons, text_append, ih]
    cases x with
    | char c =>
      rw [escapeItem, text_plain, text_char, escapeMath, escapeMath, List.flatMap_cons]
    | hit n =>
      have hmarker := escapeMath_of_isNameChar fun c => Marker.nameChar_of_mem_ofNat (n := n)
      rw [text_hit, escapeMath_append, hmarker, escapeItem, text_hit, text_nil, List.append_nil]

/-- The characters of a formula are escaped between the markers. -/
theorem echoes_escape (u : Marked) : u.Echoes (u.flatMap escapeItem) := by
  refine echoes_flatMap (fun x => ?_) u
  cases x with
  | char c =>
    rw [escapeItem, escapeMathChar]
    split
    · exact (echoes_added (t := ['\\']) (by decide)).append (.refl [.char c])
    · exact .refl _
  | hit n => exact .refl _

/-- What a token becomes. -/
theorem ofToken_cases (token : Text) (next : Option Text) :
    (ofToken token next = .space token ∧ token.Blank) ∨
    (ofToken token next = .math token ∧ token.head? = some '\\') ∨
    ofToken token next = .math (escapeMath (symbolFor token)) ∨
    ofToken token next = .math (escapeMath token) ∨
    (ofToken token next = .text token ∧ '_' ∉ token) := by
  unfold ofToken
  by_cases hblank : Text.isBlankRun token = true
  · refine .inl ⟨if_pos hblank, fun c hc => ?_⟩
    rw [Text.isBlankRun, Bool.and_eq_true, List.all_eq_true] at hblank
    exact hblank.2 c hc
  · rw [if_neg hblank]
    by_cases hcommand : (token.head? == some '\\') = true
    · exact .inr (.inl ⟨if_pos hcommand, beq_iff_eq.mp hcommand⟩)
    · rw [if_neg hcommand]
      by_cases hscript : (token.contains '_' || token.contains '^') = true
      · exact .inr (.inr (.inr (.inl (if_pos hscript))))
      · rw [if_neg hscript]
        have hunder : '_' ∉ token := fun hm => hscript (by simp [hm])
        refine .inr (.inr ?_)
        unfold ofWord
        split_ifs <;> simp [hunder]

/-- What a token is replaced by in a formula. -/
theorem echoes_symbol (u : Marked) :
    ∃ t : Marked, t.text = escapeMath (symbolFor u.text) ∧ u.Echoes t := by
  rw [symbolFor]
  cases hlookup : Symbol.tokens.lookup u.text with
  | none => exact ⟨_, text_escape u, echoes_escape u⟩
  | some command =>
    have htokens : ∀ p ∈ Symbol.tokens, '_' ∉ p.1 ∧ (escapeMath p.2).content = p.1.content ∧
        (escapeMath p.2).Clear ∧ (escapeMath p.2).head? ≠ some 'H' ∧
        (escapeMath p.2).getLast? ≠ some 'P' ∧ escapeMath p.2 ≠ [] := by decide +kernel
    obtain ⟨l₁, l₂, hsplit, -⟩ := List.lookup_eq_some_iff.mp hlookup
    obtain ⟨hunder, hcontent, hclear, hhead, hlast, hne⟩ :=
      htokens (u.text, command) (by simp [hsplit])
    refine ⟨plain (escapeMath command), text_plain _, ?_⟩
    rw [eq_plain_of_not_name (w := u) fun c hc he => hunder (he ▸ hc)]
    exact echoes_plain hcontent hclear hhead hlast hne

/-- **The segment of a token echoes it**, also when all words belong to the formula. -/
theorem casts_ofToken (prose : Bool) (u : Marked) (next : Option Text) :
    Casts (if prose then ofToken u.text next else (ofToken u.text next).asMath) u := by
  rcases ofToken_cases u.text next with ⟨h, hblank⟩ | ⟨h, -⟩ | h | h | ⟨h, hunder⟩
  · have hcasts : Casts (.space u.text) u := by
      have := Casts.space hblank
      rwa [← eq_plain_of_blank hblank] at this
    rw [h]
    cases prose <;> exact hcasts
  · rw [h]
    cases prose <;> exact .math (.refl u)
  · obtain ⟨t, ht, hecho⟩ := echoes_symbol u
    rw [h, ← ht]
    cases prose <;> exact .math hecho
  · rw [h, ← text_escape]
    cases prose <;> exact .math (echoes_escape u)
  · rw [h]
    have hplain : u = plain u.text := eq_plain_of_not_name fun c hc he => hunder (he ▸ hc)
    cases prose with
    | true =>
      have := Casts.text (.refl (plain u.text))
      rwa [← hplain] at this
    | false =>
      have := Casts.math (echoes_escape u)
      rwa [text_escape] at this

theorem ofLine_true (tokens : List Text) : ofLine true tokens = ofTokens tokens := rfl

/-- Segments side by side with the parts of the line that they stand for. -/
abbrev Lines (segments : List Segment) (parts : List Marked) : Prop :=
  List.Forall₂ Casts segments parts

theorem lines_ofTokens (prose : Bool) (parts : List Marked) :
    Lines (ofLine prose (parts.map Marked.text)) parts := by
  induction parts with
  | nil => cases prose <;> exact .nil
  | cons u parts ih =>
    have hhead := casts_ofToken prose u ((parts.map Marked.text).find? (!Text.isBlankRun ·))
    cases prose with
    | true => exact .cons hhead ih
    | false => exact .cons hhead ih

/-! ## Merging -/

theorem exists_of_isSpace {segment : Segment} (h : segment.isSpace = true) :
    ∃ blanks, segment = .space blanks := by
  cases segment with
  | space blanks => exact ⟨blanks, rfl⟩
  | text content => cases h
  | math content => cases h

/-- Prose is found behind a gap of white space, however long. -/
theorem textBehindSpace?_eq_some_iff {segments rest : List Segment} {content : Text} :
    textBehindSpace? segments = some (content, rest) ↔
      ∃ gap, gap ≠ [] ∧ (∀ segment ∈ gap, segment.isSpace = true) ∧
        segments = gap ++ text content :: rest := by
  constructor
  · intro h
    fun_induction textBehindSpace? segments with
    | case1 blanks content rest =>
      cases h
      exact ⟨[.space blanks], by simp, by simp [isSpace], rfl⟩
    | case2 blanks segments _ ih =>
      obtain ⟨gap, -, hgap, rfl⟩ := ih h
      exact ⟨.space blanks :: gap, by simp, by simpa [isSpace] using hgap, rfl⟩
    | case3 => cases h
  · rintro ⟨gap, hne, hgap, rfl⟩
    induction gap with
    | nil => exact absurd rfl hne
    | cons first gap ih =>
      obtain ⟨hfirst, hmore⟩ := List.forall_mem_cons.mp hgap
      obtain ⟨blanks, rfl⟩ := exists_of_isSpace hfirst
      cases gap with
      | nil => rfl
      | cons second gap =>
        obtain ⟨blanks', rfl⟩ := exists_of_isSpace (hmore second List.mem_cons_self)
        exact ih (List.cons_ne_nil _ _) hmore

/-- White space in front of segments is kept. -/
theorem mergeText_append_of_isSpace {gap : List Segment}
    (hgap : ∀ segment ∈ gap, segment.isSpace = true) (segments : List Segment) :
    mergeText (gap ++ segments) = gap ++ mergeText segments := by
  induction gap with
  | nil => rfl
  | cons segment gap ih =>
    obtain ⟨hsegment, hmore⟩ := List.forall_mem_cons.mp hgap
    obtain ⟨blanks, rfl⟩ := exists_of_isSpace hsegment
    rw [List.cons_append, mergeText, ih hmore]
    · rfl
    · simp

/-- The prose behind white space: what it stands for, and what follows. -/
theorem textBehindSpace?_spec {segments : List Segment} {content : Text} {rest : List Segment}
    (hfound : textBehindSpace? segments = some (content, rest)) {parts : List Marked}
    (h : Lines segments parts) :
    rest <:+ segments ∧ ∃ (blanks source : Text) (more : List Marked),
      parts.flatten = plain blanks ++ (plain source ++ more.flatten) ∧ blanks.Blank ∧
        (plain source).Echoes (plain content) ∧ Lines rest more := by
  fun_induction textBehindSpace? segments generalizing parts with
  | case1 blanks content rest =>
    cases hfound
    cases h with
    | cons hspace h =>
    cases h with
    | cons htext hrest =>
    cases hspace with
    | space hblank =>
    cases htext with
    | text hecho =>
      exact ⟨⟨[_, _], rfl⟩, _, _, _, by rw [List.flatten_cons, List.flatten_cons], hblank, hecho,
        hrest⟩
  | case2 blanks rest hne ih =>
    cases h with
    | cons hspace h =>
    cases hspace with
    | space hblank =>
      obtain ⟨hsuffix, b, source, more, hflat, hb, hecho, hrest⟩ := ih hfound h
      refine ⟨hsuffix.trans (List.suffix_cons _ _), blanks ++ b, source, more, ?_, ?_, hecho, hrest⟩
      · rw [List.flatten_cons, hflat, plain_append, List.append_assoc]
      · intro c hc
        exact (List.mem_append.mp hc).elim (hblank c) (hb c)
  | case3 => cases hfound

/-- No two pieces of white space stand next to each other. -/
def Spaced (segments : List Segment) : Prop :=
  segments.IsChain fun a b => ¬(a.isSpace = true ∧ b.isSpace = true)

theorem lines_consText {source word : Text} (hecho : (plain source).Echoes (plain word))
    {merged : List Segment} {parts : List Marked} (h : Lines merged parts) (hs : Spaced merged) :
    Spaced (consText word merged) ∧ ∃ parts' : List Marked,
      Lines (consText word merged) parts' ∧ parts'.flatten = plain source ++ parts.flatten := by
  have hcons : ∀ {content rest}, Spaced rest → Spaced (.text content :: rest) := by
    intro content rest hrest
    refine List.isChain_cons.mpr ⟨fun b _ hb => ?_, hrest⟩
    cases hb.1
  rw [consText]
  split
  · rename_i content rest hfound
    obtain ⟨hsuffix, blanks, behind, more, hflat, hblank, hbehind, hrest⟩ :=
      textBehindSpace?_spec hfound h
    refine ⟨hcons (hs.suffix hsuffix), plain (source ++ (blanks ++ behind)) :: more,
      .cons (.text ?_) hrest, ?_⟩
    · have hgap : (plain blanks).Echoes (plain [' ']) :=
        echoes_of_inert (Text.content_of_blank hblank) (by decide) (by decide)
      rw [plain_append, plain_append, plain_append]
      exact hecho.append (hgap.append hbehind)
    · rw [List.flatten_cons, hflat]
      simp
  · exact ⟨hcons hs, plain source :: parts, .cons (.text hecho) h, rfl⟩

theorem isSpace_head_mergeText (segments : List Segment) :
    (mergeText segments).head?.any isSpace = segments.head?.any isSpace := by
  rcases segments with _ | ⟨_ | _ | _, rest⟩
  · rfl
  · rw [mergeText, consText]
    split <;> rfl
  · rfl
  · rfl

/-- **Merged segments stand for the same line.** -/
theorem lines_mergeText {segments : List Segment} {parts : List Marked} (h : Lines segments parts)
    (hs : Spaced segments) : Spaced (mergeText segments) ∧
      ∃ parts', Lines (mergeText segments) parts' ∧ parts'.flatten = parts.flatten := by
  induction h with
  | nil => exact ⟨hs, [], .nil, rfl⟩
  | @cons segment u segments parts hcast h ih =>
    obtain ⟨hmerged, parts', hlines, hflat⟩ := ih hs.tail
    have hhead : ∀ b ∈ (mergeText segments).head?,
        ¬(segment.isSpace = true ∧ b.isSpace = true) := by
      rintro b hb ⟨hsegment, hspace⟩
      have hany := isSpace_head_mergeText segments
      rw [Option.mem_def.mp hb, Option.any_some, hspace] at hany
      obtain ⟨d, hd, hdspace⟩ := (Option.any_eq_true _ _).mp hany.symm
      exact (List.isChain_cons.mp hs).1 d hd ⟨hsegment, hdspace⟩
    cases hcast with
    | space hblank =>
      exact ⟨List.isChain_cons.mpr ⟨hhead, hmerged⟩, _, .cons (.space hblank) hlines,
        by rw [List.flatten_cons, hflat, List.flatten_cons]⟩
    | math hecho =>
      exact ⟨List.isChain_cons.mpr ⟨hhead, hmerged⟩, _, .cons (.math hecho) hlines,
        by rw [List.flatten_cons, hflat, List.flatten_cons]⟩
    | text hecho =>
      obtain ⟨hspaced, parts'', hlines', hflat'⟩ := lines_consText hecho hlines hmerged
      exact ⟨hspaced, parts'', hlines', by rw [hflat', hflat, List.flatten_cons]⟩

/-! ## Writing out -/

theorem echoes_escapeText (content : Text) :
    (plain content).Echoes (plain (Latex.escapeText content)) := by
  have hchar : ∀ c, Echoes [.char c] (plain (Latex.escapeChar c)) := by
    intro c
    rw [Latex.escapeChar]
    split
    · rename_i hc
      rw [beq_iff_eq] at hc
      subst hc
      exact echoes_of_inert (s := ['\\']) (by decide) (by decide) (by decide)
    · split
      · exact (echoes_added (t := ['\\']) (by decide)).append (.refl [.char c])
      · exact .refl [.char c]
  induction content with
  | nil => exact .refl []
  | cons c content ih =>
    rw [Latex.escapeText, List.flatMap_cons, plain_append]
    exact (hchar c).append ih

theorem inert_proseGap (close : Text → Bool) (neighbour : Option Segment) :
    (proseGap close neighbour).Inert := by
  unfold proseGap
  split
  · split <;> decide
  · decide

theorem inert_operatorGap (neighbour : Option Segment) : (operatorGap neighbour).Inert := by
  unfold operatorGap
  split <;> decide

/-- A segment that is written, and what is written for it. A formula may be empty once its markers
are replaced, but nothing else may, and nothing else ends in a letter. -/
theorem exists_renderOne {segment : Segment} {u : Marked} (h : Casts segment u)
    (before after : List Segment)
    (hkept : segment.isSpace = true →
      before.head?.any isMath = true ∧ after.head?.any isMath = true) :
    ∃ t : Marked, t.text = renderOne before segment after ∧ u.Echoes t ∧
      (segment.isMath = true ∨ ∀ value : Nat → Text, t.fill value ≠ [] ∧
        (t.fill value).head? ≠ some 'H' ∧ (t.fill value).getLast? ≠ some 'P') := by
  cases h with
  | @space blanks hblank =>
    obtain ⟨hb, ha⟩ := hkept rfl
    refine ⟨plain [' '], ?_, echoes_of_inert (Text.content_of_blank hblank) (by decide) (by decide),
      .inr fun value => ?_⟩
    · rw [renderOne, hb, ha]
      rfl
    · rw [fill_plain]
      decide
  | @math u t hecho =>
    rw [renderOne]
    split
    · refine ⟨plain (operatorGap before.head?) ++ (t ++ plain (operatorGap after.head?)), by simp,
        ?_, .inl rfl⟩
      have := (echoes_added (inert_operatorGap before.head?)).append
        (hecho.append (echoes_added (inert_operatorGap after.head?)))
      rwa [List.append_nil] at this
    · exact ⟨t, rfl, hecho, .inl rfl⟩
  | @text source content hecho =>
    -- What is added around prose stands for nothing, and it has a sign at either end.
    have hfront : Text.Inert (proseGap endsOpen (nearest? before) ++ "\\text\x7b".toList) :=
      Text.inert_append.mpr ⟨inert_proseGap _ _, by decide⟩
    have hback : Text.Inert ('}' :: proseGap startsClosed (nearest? after)) :=
      Text.inert_cons.mpr ⟨by decide, inert_proseGap _ _⟩
    refine ⟨plain (proseGap endsOpen (nearest? before) ++ "\\text\x7b".toList) ++
      (plain (Latex.escapeText content) ++ plain ('}' :: proseGap startsClosed (nearest? after))),
      ?_, ?_, .inr fun value => ?_⟩
    · simp [renderOne, Latex.prose, Latex.command, Latex.braced]
    · have := (echoes_added hfront).append
        ((hecho.trans (echoes_escapeText content)).append (echoes_added hback))
      rwa [List.append_nil, List.nil_append] at this
    · simp only [fill_append, fill_plain]
      refine ⟨by simp, ?_, ?_⟩
      · rw [List.head?_append_of_ne_nil _ (by simp)]
        exact hfront.head
      · rw [List.getLast?_append_of_ne_nil _ (by simp), List.getLast?_append_of_ne_nil _ (by simp)]
        exact hback.last

/-- `t`, written behind the segments `before`, says what the parts of the line say. An `H` at its
front was at the front of the line, unless white space was dropped there that is not behind a
formula. -/
structure Writes (before segments : List Segment) (line t : Marked) : Prop where
  trace : t.trace = line.trace
  clear : ∀ value : Nat → Text, (line.fill value).Clear → (t.fill value).Clear
  front : ∀ value : Nat → Text, (t.fill value).head? = some 'H' →
    segments.head?.any isSpace = false →
      segments.head?.any isMath = true ∧ (line.fill value).head? = some 'H'
  behindMath : ∀ value : Nat → Text, (t.fill value).head? = some 'H' →
    before.head?.any isMath = true → (line.fill value).head? = some 'H'

/-- A segment that is written in front of others. -/
theorem Writes.cons {segment : Segment} {before segments : List Segment} {u t line rest : Marked}
    (h : Writes (segment :: before) segments line rest) (hecho : u.Echoes t)
    (hends : segment.isMath = true ∨ ∀ value : Nat → Text, t.fill value ≠ [] ∧
      (t.fill value).head? ≠ some 'H' ∧ (t.fill value).getLast? ≠ some 'P') :
    Writes before (segment :: segments) (u ++ line) (t ++ rest) := by
  have hfront : ∀ value : Nat → Text, (Marked.fill value (t ++ rest)).head? = some 'H' →
      segment.isMath = true ∧ (Marked.fill value (u ++ line)).head? = some 'H' := by
    intro value hh
    rw [fill_append, List.head?_append, Option.or_eq_some_iff, List.head?_eq_none_iff] at hh
    rw [fill_append, List.head?_append, Option.or_eq_some_iff, List.head?_eq_none_iff]
    rcases hends with hmath | hends
    · exact ⟨hmath, hh.imp (hecho.head value) fun ⟨hnil, hh⟩ =>
        ⟨hecho.nil value hnil, h.behindMath value hh hmath⟩⟩
    · obtain ⟨hne, hhead, -⟩ := hends value
      rcases hh with hh | ⟨hnil, -⟩
      · exact absurd hh hhead
      · exact absurd hnil hne
  refine ⟨?_, fun value hc => ?_, fun value hh _ => hfront value hh, fun value hh _ =>
    (hfront value hh).2⟩
  · rw [trace_append, trace_append, hecho.trace, h.trace]
  · rw [fill_append, Text.clear_append] at hc ⊢
    refine ⟨hecho.clear value hc.1, h.clear value hc.2.1, fun ⟨hlast, hhead⟩ => ?_⟩
    rcases hends with hmath | hends
    · exact hc.2.2 ⟨hecho.last value hlast, h.behindMath value hhead hmath⟩
    · exact (hends value).2.2 hlast

/-- White space that is dropped: what follows it is no formula, or nothing stands in front. -/
theorem Writes.drop {blanks : Text} (hblank : blanks.Blank) {before segments : List Segment}
    {line rest : Marked} (h : Writes (.space blanks :: before) segments line rest)
    (hspaced : segments.head?.any isSpace = false)
    (hdrop : before.head?.any isMath = true → segments.head?.any isMath = false) :
    Writes before (.space blanks :: segments) (plain blanks ++ line) rest := by
  refine ⟨?_, fun value hc => ?_, fun value _ hspace => ?_, fun value hh hmath => ?_⟩
  · rw [trace_append, trace_plain, Text.content_of_blank hblank, plain_nil, List.nil_append,
      h.trace]
  · rw [fill_append] at hc
    exact h.clear value hc.right
  · cases hspace
  · have := (h.front value hh hspaced).1
    rw [hdrop hmath] at this
    cases this

/-- **What is written for segments says what they stand for.** -/
theorem exists_renderBehind {segments : List Segment} {parts : List Marked}
    (h : Lines segments parts) (hs : Spaced segments) (before : List Segment) :
    ∃ t : Marked, t.text = renderBehind before segments ∧
      Writes before segments parts.flatten t := by
  induction h generalizing before with
  | nil => exact ⟨[], rfl, rfl, fun _ h => h, fun _ h => (by cases h), fun _ h => (by cases h)⟩
  | @cons segment u segments parts hcast h ih =>
    obtain ⟨rest, hrest, hwrites⟩ := ih hs.tail (segment :: before)
    rw [renderBehind, List.flatten_cons]
    by_cases hkept : segment.isSpace = true →
        before.head?.any isMath = true ∧ segments.head?.any isMath = true
    · obtain ⟨t, ht, hecho, hends⟩ := exists_renderOne hcast before segments hkept
      exact ⟨t ++ rest, by rw [text_append, ht, hrest], hwrites.cons hecho hends⟩
    · rw [Classical.not_imp] at hkept
      obtain ⟨hspace, hdrop⟩ := hkept
      cases hcast with
      | math => cases hspace
      | text => cases hspace
      | @space blanks hblank =>
        refine ⟨rest, ?_, hwrites.drop hblank ?_ fun hm => ?_⟩
        · rw [renderOne, if_neg (by simpa using hdrop), List.nil_append, hrest]
        · rw [Option.any_eq_false]
          intro b hb
          by_contra hbs
          exact (List.isChain_cons.mp hs).1 b hb ⟨rfl, by simpa using hbs⟩
        · simpa [hm] using hdrop

end Segment

/-! ## Lines -/

theorem Text.Blank.kind {text : Text} (h : text.Blank) {c : Char} (hc : c ∈ text) :
    CharKind.of c = .blank := by
  have hp : isPunctuation c = false := by
    by_contra hp
    rw [Bool.not_eq_false, isPunctuation, List.contains_iff_mem] at hp
    have key : ∀ d ∈ punctuation, isBlank d = false := by decide
    rw [← key c hp, h c hc] at *
    contradiction
  simp [CharKind.of, hp, h c hc]

theorem isBlank_of_kind {c : Char} (h : CharKind.of c = .blank) : isBlank c = true := by
  rw [CharKind.of] at h
  split_ifs at h with _ hb
  exact hb

theorem Segment.blank_of_isSpace {token : Text} {next : Option Text}
    (h : (ofToken token next).isSpace = true) : token.Blank := by
  rcases ofToken_cases token next with ⟨-, hblank⟩ | ⟨hcase, -⟩ | hcase | hcase | ⟨hcase, -⟩
  · exact hblank
  all_goals
    rw [hcase] at h
    cases h

/-- Of two tokens next to each other one is not white space. -/
theorem spaced_ofTokens {line : Text} {tokens : List Text} (h : Tokenized line tokens) :
    Segment.Spaced (Segment.ofTokens tokens) := by
  induction h with
  | nil => exact .nil
  | @cons run rest tokens hne _ hstop more ih =>
    refine List.isChain_cons.mpr ⟨?_, ih⟩
    rintro b hb ⟨hrun, hspace⟩
    cases more with
    | nil => cases hb
    | @cons next rest tokens hnext _ _ _ =>
      cases hb
      obtain ⟨c, run, rfl⟩ := List.exists_cons_of_ne_nil hne
      obtain ⟨d, next, rfl⟩ := List.exists_cons_of_ne_nil hnext
      refine hstop c List.mem_cons_self d rfl ?_
      rw [(Segment.blank_of_isSpace hrun).kind List.mem_cons_self,
        (Segment.blank_of_isSpace hspace).kind List.mem_cons_self]

theorem spaced_asMath {segments : List Segment} (h : Segment.Spaced segments) :
    Segment.Spaced (segments.map Segment.asMath) := by
  have hspace : ∀ s : Segment, s.asMath.isSpace = s.isSpace := by rintro (_ | _ | _) <;> rfl
  rw [Segment.Spaced, List.isChain_map]
  simp only [hspace]
  exact h

/-- **A segmented line says what the line says.** -/
theorem exists_segmentLine (prose : Bool) (w : Marked) :
    ∃ t : Marked, t.text = segmentLine prose w.text ∧ w.Recasts t := by
  have htokens := tokenized_tokenize w.text
  obtain ⟨parts, hparts, rfl⟩ := exists_tokens htokens w rfl
  have hlines := Segment.lines_ofTokens prose parts
  have hspaced : Segment.Spaced (Segment.ofLine prose (parts.map Marked.text)) := by
    rw [hparts, Segment.ofLine]
    split
    · exact spaced_ofTokens htokens
    · exact spaced_asMath (spaced_ofTokens htokens)
  obtain ⟨hmerged, parts', hlines', hflat⟩ := Segment.lines_mergeText hlines hspaced
  obtain ⟨t, ht, hwrites⟩ := Segment.exists_renderBehind hlines' hmerged []
  rw [hflat] at hwrites
  refine ⟨t, ?_, hwrites.trace, hwrites.clear⟩
  rw [ht, segmentLine, ← hparts]
  rfl

end MathNotes
