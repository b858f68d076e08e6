import MathNotes.Proofs.CheckedLines
import MathNotes.Proofs.FrontLines

/-!
# White space between words

How a line is segmented depends on where its white space is, but not on how much there is and of
which kind: the line may be trimmed, and every run of white space in it replaced by one space
(`segmentLine_squeezed`).

That changes the white-space tokens and nothing else (`tokenize_squeezed`).  Two lists that differ
in their gaps only, where gaps at the end do not count, are `Respaced`.  Tokens like that become
segments like that, words are merged in both lists alike, and both are written alike
(`Segment.renderBehind_respaced`), since no segment looks into the white space next to it.
-/

namespace MathNotes

/-! ## Squeezed texts -/

namespace Text

/-- A text with every longest run of white space replaced by one space. -/
def squeezed (text : Text) : Text :=
  (text.splitBy fun c d => isBlank c == isBlank d).flatMap fun run =>
    if run.all isBlank then [' '] else run

theorem squeezed_append_run {blank : Bool} {run rest : Text} (hne : run ≠ [])
    (hall : ∀ c ∈ run, isBlank c = blank) (hstops : ∀ c ∈ rest.head?, isBlank c = !blank) :
    squeezed (run ++ rest) = (if blank then [' '] else run) ++ squeezed rest := by
  have hrun : run.all isBlank = blank := by
    obtain ⟨c, hc⟩ := List.exists_mem_of_ne_nil run hne
    cases blank with
    | true => exact List.all_eq_true.mpr hall
    | false => exact List.all_eq_false.mpr ⟨c, hc, by simp [hall c hc]⟩
  rw [squeezed, splitBy_append_run hne hall hstops, List.flatMap_cons, hrun, squeezed]

theorem squeezed_blanks {blanks rest : Text} (hne : blanks ≠ []) (hblank : blanks.Blank)
    (hstops : ∀ c ∈ rest.head?, isBlank c = false) :
    squeezed (blanks ++ rest) = ' ' :: squeezed rest :=
  squeezed_append_run hne hblank hstops

theorem squeezed_visible {text : Text} (h : ∀ c ∈ text, isBlank c = false) (rest : Text) :
    squeezed (text ++ rest) = text ++ squeezed rest := by
  -- The run that `text` is part of ends at the first white space behind it.
  obtain ⟨run, after, rfl, hrun, hstops⟩ : ∃ run after, rest = run ++ after ∧
      (∀ c ∈ run, isBlank c = false) ∧ ∀ c ∈ after.head?, isBlank c = true := by
    refine ⟨_, _, (List.takeWhile_append_dropWhile (p := (!isBlank ·))).symm, fun c hc => ?_,
      fun c hc => ?_⟩
    · simpa using List.mem_takeWhile_imp hc
    · simpa using head?_dropWhile_stops c hc
  have key : ∀ run : Text, (∀ c ∈ run, isBlank c = false) →
      squeezed (run ++ after) = run ++ squeezed after := by
    intro run hrun
    by_cases hne : run = []
    · rw [hne, List.nil_append, List.nil_append]
    · exact squeezed_append_run hne hrun hstops
  rw [← List.append_assoc, key _ (List.forall_mem_append.mpr ⟨h, hrun⟩), key run hrun,
    List.append_assoc]

theorem head?_squeezed (text : Text) :
    (squeezed text).head? = text.head?.map fun c => if isBlank c then ' ' else c := by
  cases text with
  | nil => rfl
  | cons c text =>
    by_cases hc : isBlank c = true
    · have hsplit : c :: text = (c :: text.takeWhile isBlank) ++ text.dropWhile isBlank := by
        rw [List.cons_append, List.takeWhile_append_dropWhile]
      have hblank : Text.Blank (c :: text.takeWhile isBlank) :=
        List.forall_mem_cons.mpr ⟨hc, fun _ hd => List.mem_takeWhile_imp hd⟩
      rw [hsplit, squeezed_blanks (List.cons_ne_nil _ _) hblank head?_dropWhile_stops]
      simp [hc]
    · have hvisible : ∀ d ∈ [c], isBlank d = false := by simpa using hc
      rw [← List.singleton_append, squeezed_visible hvisible]
      simp [hc]

end Text

/-! ## Tokens -/

/-- A token, or one space for white space. -/
def respace (token : Text) : Text := if Text.isBlankRun token then [' '] else token

theorem kind_eq_blank_iff {c : Char} : CharKind.of c = .blank ↔ isBlank c = true := by
  refine ⟨isBlank_of_kind, fun h => ?_⟩
  have hblank : Text.Blank [c] := List.forall_mem_singleton.mpr h
  exact hblank.kind List.mem_cons_self

theorem kind_squeezed (c : Char) : CharKind.of (if isBlank c then ' ' else c) = CharKind.of c := by
  split
  · rename_i hc
    rw [kind_eq_blank_iff.mpr hc]
    decide
  · rfl

/-- **Squeezing changes the white-space tokens only.** -/
theorem tokenize_squeezed (line : Text) :
    tokenize line.squeezed = (tokenize line).map respace := by
  have h := tokenized_tokenize line
  generalize tokenize line = tokens at h
  induction h with
  | nil => rfl
  | @cons run rest tokens hne hkind hstop more ih =>
    obtain ⟨c, hc⟩ := List.exists_mem_of_ne_nil run hne
    have hrun : ∀ d ∈ run, CharKind.of d = CharKind.of c := fun d hd => hkind d hd c hc
    have hrest : ∀ d ∈ rest.squeezed.head?, CharKind.of d ≠ CharKind.of c := by
      intro d hd
      rw [Text.head?_squeezed] at hd
      obtain ⟨e, he, rfl⟩ := Option.map_eq_some_iff.mp (Option.mem_def.mp hd)
      rw [kind_squeezed]
      exact (hstop c hc e he).symm
    rw [List.map_cons, ← ih]
    by_cases hblank : CharKind.of c = .blank
    · -- A run of white space becomes a single space.
      rw [hblank] at hrun hrest
      have hblanks : run.Blank := fun d hd => isBlank_of_kind (hrun d hd)
      have hstops : ∀ d ∈ rest.head?, isBlank d = false := by
        intro d hd
        by_contra hd'
        exact hstop c hc d hd (hblank.trans (kind_eq_blank_iff.mpr (by simpa using hd')).symm)
      have hspace : ∀ d ∈ [' '], CharKind.of d = .blank := by decide
      rw [Text.squeezed_blanks hne hblanks hstops, ← List.singleton_append,
        tokenize_run (List.cons_ne_nil _ _) hspace hrest, respace,
        if_pos (Text.isBlankRun_iff.mpr ⟨hne, hblanks⟩)]
    · -- Any other run is left as it is.
      have hvisible : ∀ d ∈ run, isBlank d = false := by
        intro d hd
        by_contra hd'
        exact hblank ((hrun d hd).symm.trans (kind_eq_blank_iff.mpr (by simpa using hd')))
      have hnot : ¬ run.isBlankRun = true := fun h => by
        have := (Text.isBlankRun_iff.mp h).2 c hc
        rw [hvisible c hc] at this
        cases this
      rw [Text.squeezed_visible hvisible, tokenize_run hne hrun hrest, respace, if_neg hnot]

/-- White space at the end of a line is a token of its own. -/
theorem tokenize_append_blanks {text blanks : Text}
    (hlast : ∀ c ∈ text.getLast?, isBlank c = false) (hne : blanks ≠ []) (hblank : blanks.Blank) :
    tokenize (text ++ blanks) = tokenize text ++ [blanks] := by
  have hkind : ∀ c ∈ blanks, CharKind.of c = .blank := fun c hc => hblank.kind hc
  have h := tokenized_tokenize text
  generalize tokenize text = tokens at h
  induction h with
  | nil =>
    have hstop : ∀ c ∈ ([] : Text).head?, CharKind.of c ≠ .blank := by simp
    have hrun := tokenize_run hne hkind hstop
    rwa [List.append_nil] at hrun
  | @cons run rest tokens hrun hsame hstop more ih =>
    obtain ⟨c, hc⟩ := List.exists_mem_of_ne_nil run hrun
    have hrest : ∀ d ∈ (rest ++ blanks).head?, CharKind.of d ≠ CharKind.of c := by
      intro d hd
      rcases rest with _ | ⟨e, rest⟩
      · -- The run ends the text, so it is not white space.
        rw [List.nil_append] at hd
        rw [List.append_nil] at hlast
        have hend := hlast _ (List.getLast?_eq_some_getLast hrun)
        intro heq
        rw [hkind d (List.mem_of_head? hd), hsame c hc _ (List.getLast_mem hrun)] at heq
        rw [isBlank_of_kind heq.symm] at hend
        cases hend
      · exact (hstop c hc d hd).symm
    rw [List.append_assoc, tokenize_run hrun (fun d hd => hsame d hd c hc) hrest, List.cons_append]
    refine congrArg (run :: ·) (ih fun d hd => hlast d ?_)
    rw [List.getLast?_append, Option.mem_def.mp hd]
    rfl

/-! ## Lists that differ in their gaps -/

/-- Two lists that agree but for their gaps: a gap stands for any other gap, and gaps at the end do
not count. -/
inductive Respaced {α : Type} (isGap : α → Bool) : List α → List α → Prop
  | ends {a b : List α} (ha : ∀ x ∈ a, isGap x = true) (hb : ∀ y ∈ b, isGap y = true) :
      Respaced isGap a b
  | gap {x y : α} {a b : List α} (hx : isGap x = true) (hy : isGap y = true)
      (more : Respaced isGap a b) : Respaced isGap (x :: a) (y :: b)
  | same (x : α) {a b : List α} (more : Respaced isGap a b) : Respaced isGap (x :: a) (x :: b)

namespace Respaced

variable {α : Type} {isGap : α → Bool} {a b : List α}

theorem symm (h : Respaced isGap a b) : Respaced isGap b a := by
  induction h with
  | ends ha hb => exact .ends hb ha
  | gap hx hy _ ih => exact .gap hy hx ih
  | same x _ ih => exact .same x ih

theorem append_gap (a : List α) {x : α} (hx : isGap x = true) : Respaced isGap (a ++ [x]) a := by
  induction a with
  | nil => exact .ends (by simpa using hx) (by simp)
  | cons y a ih => exact .same y ih

/-- The first element that is no gap is the same. -/
theorem find? (h : Respaced isGap a b) : a.find? (!isGap ·) = b.find? (!isGap ·) := by
  induction h with
  | ends ha hb =>
    rw [List.find?_eq_none.mpr fun x hx => by simp [ha x hx],
      List.find?_eq_none.mpr fun y hy => by simp [hb y hy]]
  | gap hx hy _ ih => simp [hx, hy, ih]
  | same x _ ih => rw [List.find?_cons, List.find?_cons, ih]

/-- What follows a gap and an element that is no gap follows them in the other list, too. -/
theorem behind {gap rest : List α} {x : α} (hx : isGap x = false)
    (hgap : ∀ y ∈ gap, isGap y = true) (h : Respaced isGap (gap ++ x :: rest) b) :
    ∃ gap' rest', b = gap' ++ x :: rest' ∧ gap'.length = gap.length ∧
      (∀ y ∈ gap', isGap y = true) ∧ Respaced isGap rest rest' := by
  induction gap generalizing b with
  | nil =>
    cases h with
    | ends ha _ => rw [ha x (by simp)] at hx; cases hx
    | gap hy _ _ => rw [hy] at hx; cases hx
    | same x more => exact ⟨[], _, rfl, rfl, by simp, more⟩
  | cons y gap ih =>
    obtain ⟨hy, hmore⟩ := List.forall_mem_cons.mp hgap
    cases h with
    | ends ha _ => rw [ha x (by simp)] at hx; cases hx
    | @gap _ z _ _ _ hz more =>
      obtain ⟨gap', rest', rfl, hlength, hgap', hrest⟩ := ih hmore more
      exact ⟨z :: gap', rest', rfl, by simp [hlength], List.forall_mem_cons.mpr ⟨hz, hgap'⟩, hrest⟩
    | same y more =>
      obtain ⟨gap', rest', rfl, hlength, hgap', hrest⟩ := ih hmore more
      exact ⟨y :: gap', rest', rfl, by simp [hlength], List.forall_mem_cons.mpr ⟨hy, hgap'⟩, hrest⟩

end Respaced

theorem respaced_map_respace (tokens : List Text) :
    Respaced Text.isBlankRun tokens (tokens.map respace) := by
  induction tokens with
  | nil => exact .ends (by simp) (by simp)
  | cons token tokens ih =>
    rw [List.map_cons, respace]
    split
    · rename_i hblank
      exact .gap hblank (by decide) ih
    · exact .same token ih

/-! ## Segments -/

namespace Segment

variable {a b : List Segment}

theorem ofToken_of_isBlankRun {token : Text} (h : token.isBlankRun = true) (next : Option Text) :
    ofToken token next = space token := if_pos h

theorem ofTokens_respaced {tokens tokens' : List Text}
    (h : Respaced Text.isBlankRun tokens tokens') :
    Respaced isSpace (ofTokens tokens) (ofTokens tokens') := by
  have hgaps : ∀ {tokens : List Text}, (∀ token ∈ tokens, token.isBlankRun = true) →
      ∀ segment ∈ ofTokens tokens, segment.isSpace = true := by
    intro tokens
    induction tokens with
    | nil => exact fun _ => List.forall_mem_nil _
    | cons token tokens ih =>
      intro h
      obtain ⟨htoken, hmore⟩ := List.forall_mem_cons.mp h
      rw [ofTokens, ofToken_of_isBlankRun htoken]
      exact List.forall_mem_cons.mpr ⟨rfl, ih hmore⟩
  induction h with
  | ends ha hb => exact .ends (hgaps ha) (hgaps hb)
  | gap hx hy _ ih =>
    rw [ofTokens, ofTokens, ofToken_of_isBlankRun hx, ofToken_of_isBlankRun hy]
    exact .gap rfl rfl ih
  | same token more ih =>
    rw [ofTokens, ofTokens, more.find?]
    exact .same _ ih

theorem asMath_respaced (h : Respaced isSpace a b) :
    Respaced isSpace (a.map asMath) (b.map asMath) := by
  have hspace : ∀ segment : Segment, segment.asMath.isSpace = segment.isSpace := by
    rintro (_ | _ | _) <;> rfl
  have hgaps : ∀ {segments : List Segment}, (∀ segment ∈ segments, segment.isSpace = true) →
      ∀ segment ∈ segments.map asMath, segment.isSpace = true := fun h =>
    List.forall_mem_map.mpr fun segment hmem => (hspace segment).trans (h segment hmem)
  induction h with
  | ends ha hb => exact .ends (hgaps ha) (hgaps hb)
  | gap hx hy _ ih => exact .gap ((hspace _).trans hx) ((hspace _).trans hy) ih
  | same segment _ ih => exact .same _ ih

/-- Prose behind white space is found in both lists. -/
theorem textBehindSpace?_respaced (h : Respaced isSpace a b) {content : Text}
    {rest : List Segment} (hfound : textBehindSpace? a = some (content, rest)) :
    ∃ rest', textBehindSpace? b = some (content, rest') ∧ Respaced isSpace rest rest' := by
  obtain ⟨gap, hne, hgap, rfl⟩ := textBehindSpace?_eq_some_iff.mp hfound
  obtain ⟨gap', rest', rfl, hlength, hgap', hrest⟩ := Respaced.behind rfl hgap h
  have hne' : gap' ≠ [] := by
    rintro rfl
    exact hne (List.length_eq_zero_iff.mp hlength.symm)
  exact ⟨rest', textBehindSpace?_eq_some_iff.mpr ⟨gap', hne', hgap', rfl⟩, hrest⟩

theorem consText_respaced (word : Text) (h : Respaced isSpace a b) :
    Respaced isSpace (consText word a) (consText word b) := by
  cases ha : textBehindSpace? a with
  | some found =>
    obtain ⟨rest', hb, hrest⟩ := textBehindSpace?_respaced h ha
    rw [consText, consText, ha, hb]
    exact .same _ hrest
  | none =>
    cases hb : textBehindSpace? b with
    | some found =>
      obtain ⟨rest', ha', -⟩ := textBehindSpace?_respaced h.symm hb
      rw [ha] at ha'
      cases ha'
    | none =>
      rw [consText, consText, ha, hb]
      exact .same _ h

theorem mergeText_of_isSpace {segments : List Segment}
    (h : ∀ segment ∈ segments, segment.isSpace = true) : mergeText segments = segments := by
  have hmerged := mergeText_append_of_isSpace h []
  rwa [mergeText, List.append_nil] at hmerged

/-- Words are merged in both lists alike. -/
theorem mergeText_respaced (h : Respaced isSpace a b) :
    Respaced isSpace (mergeText a) (mergeText b) := by
  induction h with
  | ends ha hb =>
    rw [mergeText_of_isSpace ha, mergeText_of_isSpace hb]
    exact .ends ha hb
  | gap hx hy _ ih =>
    obtain ⟨blanks, rfl⟩ := exists_of_isSpace hx
    obtain ⟨blanks', rfl⟩ := exists_of_isSpace hy
    exact .gap rfl rfl ih
  | same segment _ ih =>
    cases segment with
    | text word => exact consText_respaced word ih
    | math content => exact .same _ ih
    | space blanks => exact .same _ ih

/-! ## Writing -/

theorem isMath_of_isSpace {segment : Segment} (h : segment.isSpace = true) :
    segment.isMath = false := by
  obtain ⟨blanks, rfl⟩ := exists_of_isSpace h
  rfl

theorem any_isMath_of_isSpace {segments : List Segment}
    (h : ∀ segment ∈ segments, segment.isSpace = true) : segments.head?.any isMath = false := by
  rw [Option.any_eq_false]
  exact fun segment hmem => by simp [isMath_of_isSpace (h segment (List.mem_of_head? hmem))]

/-- Lists that differ in their gaps look alike from a segment in front of them. -/
theorem akin_of_respaced (h : Respaced isSpace a b) : Akin a b := by
  refine ⟨?_, h.find?⟩
  cases h with
  | ends ha hb => rw [any_isMath_of_isSpace ha, any_isMath_of_isSpace hb]
  | gap hx hy _ =>
    rw [List.head?_cons, List.head?_cons, Option.any_some, Option.any_some, isMath_of_isSpace hx,
      isMath_of_isSpace hy]
  | same segment _ => rfl

/-- White space looks alike from a segment behind it. -/
theorem akin_space {before before' : List Segment} (h : Akin before before')
    (blanks blanks' : Text) : Akin (space blanks :: before) (space blanks' :: before') :=
  ⟨rfl, h.nearest⟩

/-- White space at the end is not written. -/
theorem renderBehind_of_isSpace {segments : List Segment}
    (h : ∀ segment ∈ segments, segment.isSpace = true) (before : List Segment) :
    renderBehind before segments = [] := by
  induction segments generalizing before with
  | nil => rfl
  | cons segment segments ih =>
    obtain ⟨hsegment, hmore⟩ := List.forall_mem_cons.mp h
    obtain ⟨blanks, rfl⟩ := exists_of_isSpace hsegment
    rw [renderBehind, renderOne, any_isMath_of_isSpace hmore, Bool.and_false, ih hmore]
    rfl

/-- **Lists that differ in their gaps are written alike.** -/
theorem renderBehind_respaced (h : Respaced isSpace a b) {before before' : List Segment}
    (hbefore : Akin before before') : renderBehind before a = renderBehind before' b := by
  induction h generalizing before before' with
  | ends ha hb => rw [renderBehind_of_isSpace ha, renderBehind_of_isSpace hb]
  | gap hx hy more ih =>
    obtain ⟨blanks, rfl⟩ := exists_of_isSpace hx
    obtain ⟨blanks', rfl⟩ := exists_of_isSpace hy
    have hone := renderOne_congr hbefore (akin_of_respaced more) (space blanks)
    rw [renderBehind, renderBehind, ih (akin_space hbefore blanks blanks'), hone]
    rfl
  | same segment more ih =>
    rw [renderBehind, renderBehind, renderOne_congr hbefore (akin_of_respaced more) segment,
      ih (hbefore.cons segment)]

/-- White space at the front is not written. -/
theorem render_mergeText_space (blanks : Text) (segments : List Segment) :
    render (mergeText (space blanks :: segments)) = render (mergeText segments) := by
  have hakin : Akin [space blanks] [] := ⟨rfl, rfl⟩
  exact renderBehind_congr hakin (mergeText segments)

end Segment

/-! ## Lines -/

theorem segmentLine_respaced {line line' : Text}
    (h : Respaced Text.isBlankRun (tokenize line) (tokenize line')) (prose : Bool) :
    segmentLine prose line = segmentLine prose line' := by
  have hsegments := Segment.ofTokens_respaced h
  cases prose with
  | true => exact Segment.renderBehind_respaced (Segment.mergeText_respaced hsegments) ⟨rfl, rfl⟩
  | false =>
    exact Segment.renderBehind_respaced
      (Segment.mergeText_respaced (Segment.asMath_respaced hsegments)) ⟨rfl, rfl⟩

theorem segmentLine_trimLeft (prose : Bool) (line : Text) :
    segmentLine prose line = segmentLine prose line.trimLeft := by
  obtain ⟨blanks, hsplit, hblank⟩ := Text.trimLeft_append line
  by_cases hne : blanks = []
  · rw [hne, List.nil_append] at hsplit
    rw [← hsplit]
  · have hhead : ∀ c ∈ line.trimLeft.head?, isBlank c = false := head?_dropWhile_stops
    have hsegments := Segment.ofTokens_blanks hne hblank hhead
    rw [← hsplit] at hsegments
    rw [segmentLine, segmentLine, Segment.ofLine, Segment.ofLine, hsegments]
    cases prose with
    | true => exact Segment.render_mergeText_space blanks _
    | false => exact Segment.render_mergeText_space blanks _

theorem segmentLine_trimRight (prose : Bool) (line : Text) :
    segmentLine prose line = segmentLine prose line.trimRight := by
  obtain ⟨blanks, hsplit, hblank⟩ := Text.trimRight_append line
  by_cases hne : blanks = []
  · rw [hne, List.append_nil] at hsplit
    rw [← hsplit]
  · have hlast : ∀ c ∈ line.trimRight.getLast?, isBlank c = false := Text.getLast?_trimRight
    have htokens := tokenize_append_blanks hlast hne hblank
    rw [← hsplit] at htokens
    refine segmentLine_respaced ?_ prose
    rw [htokens]
    exact Respaced.append_gap _ (Text.isBlankRun_iff.mpr ⟨hne, hblank⟩)

/-- **Segmentation does not depend on the amount or the kind of white space.**  A line is segmented
as it is when it is trimmed and every longest run of white space in it is one space. -/
theorem segmentLine_squeezed (prose : Bool) (line : Text) :
    ∃ written, Checked.segmentLine prose line = .ok written ∧
      Checked.segmentLine prose (Text.trim line).squeezed = .ok written := by
  have hsqueezed : segmentLine prose (Text.trim line) =
      segmentLine prose (Text.trim line).squeezed := by
    refine segmentLine_respaced ?_ prose
    rw [tokenize_squeezed]
    exact respaced_map_respace _
  have htrimmed : segmentLine prose line = segmentLine prose (Text.trim line) := by
    rw [segmentLine_trimLeft, segmentLine_trimRight, ← Text.trim]
  refine ⟨segmentLine prose line, Checked.segmentLine_eq prose line, ?_⟩
  rw [Checked.segmentLine_eq, htrimmed, hsqueezed]
  rfl

example : (Text.trim " let\t\u00a0x\u2003\u3000be\n").squeezed = "let x be".toList := by decide

end MathNotes
