import MathNotes.Proofs.Braces
import MathNotes.Proofs.Segmentation

/-!
# Level lines

A line without braces and backslashes is written as LaTeX in two ways, and both times the LaTeX is
level.  Where a line is segmented, prose is put in braces and special characters are escaped
(`level_segmentLine`).  Where it is a bound, scripts are put in braces, also inside each other
(`Bound.level_normalize`): round brackets are turned into braces only where none stand between them,
so that they are never crossed.
-/

namespace MathNotes

/-! ## Segments -/

namespace Segment

/-- Characters of a formula are escaped without a difference for the braces. -/
theorem exchanges_escapeMath (content : Text) : content.Exchanges (escapeMath content) := by
  have hspecial : ∀ c ∈ "%#&$".toList, Text.IsWord [c] := by decide
  induction content with
  | nil => exact .refl []
  | cons c content ih =>
    refine Text.compositional_exchanges.append (a := [c]) (b := escapeMathChar c) ?_ ih
    rw [escapeMathChar]
    split
    · rename_i hc
      have hword := hspecial c (by simpa using hc)
      exact hword.exchanges hword
    · exact .refl [c]

theorem level_escapeMath {content : Text} (h : content.Level) : (escapeMath content).Level :=
  (exchanges_escapeMath content).level h

theorem level_symbolFor {token : Text} (h : token.Bare) : (symbolFor token).Level := by
  have htokens : ∀ p ∈ Symbol.tokens, Text.Level p.2 := by decide
  rw [symbolFor]
  cases hlookup : Symbol.tokens.lookup token with
  | none => exact h.level
  | some command =>
    obtain ⟨l₁, l₂, hsplit, -⟩ := List.lookup_eq_some_iff.mp hlookup
    exact htokens (token, command) (by simp [hsplit])

/-- A segment that is written as a level text: a level formula, or prose without braces, backslashes
and underscores. -/
def Tame : Segment → Prop
  | text content => content.Bare ∧ '_' ∉ content
  | math content => content.Level
  | space _ => True

theorem tame_ofToken {token : Text} (h : token.Bare) (next : Option Text) :
    (ofToken token next).Tame := by
  rcases ofToken_cases token next with ⟨hcase, -⟩ | ⟨hcase, -⟩ | hcase | hcase |
    ⟨hcase, hunder⟩
  · rw [hcase]
    trivial
  · rw [hcase]
    exact h.level
  · rw [hcase]
    exact level_escapeMath (level_symbolFor h)
  · rw [hcase]
    exact level_escapeMath h.level
  · rw [hcase]
    exact ⟨h, hunder⟩

theorem tame_ofTokens {tokens : List Text} (h : ∀ token ∈ tokens, token.Bare) :
    ∀ segment ∈ ofTokens tokens, segment.Tame := by
  induction tokens with
  | nil => exact List.forall_mem_nil _
  | cons token tokens ih =>
    obtain ⟨htoken, htokens⟩ := List.forall_mem_cons.mp h
    exact List.forall_mem_cons.mpr ⟨tame_ofToken htoken _, ih htokens⟩

theorem Tame.asMath {segment : Segment} (h : segment.Tame) : segment.asMath.Tame := by
  cases segment with
  | text content => exact level_escapeMath h.1.level
  | math content => exact h
  | space blanks => exact h

theorem textBehindSpace?_mem {segments rest : List Segment} {content : Text}
    (h : textBehindSpace? segments = some (content, rest)) :
    text content ∈ segments ∧ rest <:+ segments := by
  obtain ⟨gap, -, -, rfl⟩ := textBehindSpace?_eq_some_iff.mp h
  exact ⟨by simp, (List.suffix_cons _ _).trans (List.suffix_append _ _)⟩

theorem tame_consText {word : Text} (hword : (text word).Tame) {merged : List Segment}
    (h : ∀ segment ∈ merged, segment.Tame) : ∀ segment ∈ consText word merged, segment.Tame := by
  rw [consText]
  split
  · rename_i content rest hfound
    obtain ⟨hmem, hsuffix⟩ := textBehindSpace?_mem hfound
    obtain ⟨hbare, hunder⟩ := h _ hmem
    refine List.forall_mem_cons.mpr ⟨⟨?_, ?_⟩, fun segment hsegment => h _ (hsuffix.mem hsegment)⟩
    · exact Text.bare_append.mpr ⟨hword.1, Text.bare_cons.mpr ⟨by decide, hbare⟩⟩
    · simp [hword.2, hunder]
  · exact List.forall_mem_cons.mpr ⟨hword, h⟩

theorem tame_mergeText {segments : List Segment} (h : ∀ segment ∈ segments, segment.Tame) :
    ∀ segment ∈ mergeText segments, segment.Tame := by
  induction segments with
  | nil => exact h
  | cons segment segments ih =>
    obtain ⟨hsegment, hrest⟩ := List.forall_mem_cons.mp h
    cases segment with
    | text word => exact tame_consText hsegment (ih hrest)
    | math content => exact List.forall_mem_cons.mpr ⟨hsegment, ih hrest⟩
    | space blanks => exact List.forall_mem_cons.mpr ⟨hsegment, ih hrest⟩

theorem level_prose {content : Text} (h : content.Bare) (hunder : '_' ∉ content) :
    (Latex.prose content).Level := by
  have hspecial : ∀ c ∈ "\x7b\x7d#$%&_".toList, c ≠ '_' → Text.Level ['\\', c] := by decide
  have hescaped : (Latex.escapeText content).Level := by
    induction content with
    | nil => exact Text.level_nil
    | cons c content ih =>
      obtain ⟨hc, hcontent⟩ := Text.bare_cons.mp h
      obtain ⟨hne, hrest⟩ := not_or.mp (mt List.mem_cons.mpr hunder)
      refine Text.Level.append (a := Latex.escapeChar c) ?_ (ih hcontent hrest)
      rw [Latex.escapeChar, if_neg (show ¬(c == '\\') = true by simp [hc.2.2])]
      split
      · rename_i hmem
        exact hspecial c (by simpa using hmem) (Ne.symm hne)
      · exact Text.Bare.level (Text.bare_cons.mpr ⟨hc, List.forall_mem_nil _⟩)
  have hcommand : Text.Level "\\text".toList := by decide
  show Text.Level ("\\text".toList ++ [Latex.escapeText content].flatMap Latex.braced)
  rw [List.flatMap_singleton]
  exact hcommand.append hescaped.braced

theorem level_proseGap (close : Text → Bool) (neighbour : Option Segment) :
    (proseGap close neighbour).Level := by
  unfold proseGap
  split
  · split <;> decide
  · decide

theorem level_operatorGap (neighbour : Option Segment) : (operatorGap neighbour).Level := by
  unfold operatorGap
  split <;> decide

theorem level_renderOne (before : List Segment) {segment : Segment} (h : segment.Tame)
    (after : List Segment) : (renderOne before segment after).Level := by
  cases segment with
  | math content =>
    rw [renderOne]
    split
    · exact ((level_operatorGap _).append h).append (level_operatorGap _)
    · exact h
  | space blanks =>
    rw [renderOne]
    split <;> decide
  | text content =>
    exact ((level_proseGap _ _).append (level_prose h.1 h.2)).append (level_proseGap _ _)

theorem level_renderBehind (before : List Segment) {segments : List Segment}
    (h : ∀ segment ∈ segments, segment.Tame) : (renderBehind before segments).Level := by
  induction segments generalizing before with
  | nil => exact Text.level_nil
  | cons segment segments ih =>
    obtain ⟨hsegment, hrest⟩ := List.forall_mem_cons.mp h
    exact (level_renderOne before hsegment segments).append (ih (segment :: before) hrest)

end Segment

theorem Tokenized.bare {line : Text} {tokens : List Text} (h : Tokenized line tokens)
    (hbare : line.Bare) : ∀ token ∈ tokens, token.Bare := by
  induction h with
  | nil => exact List.forall_mem_nil _
  | cons _ _ _ _ ih =>
    obtain ⟨hrun, hrest⟩ := Text.bare_append.mp hbare
    exact List.forall_mem_cons.mpr ⟨hrun, ih hrest⟩

/-- **A segmented line is level**, if the line has no braces and backslashes. -/
theorem level_segmentLine (prose : Bool) {line : Text} (h : line.Bare) :
    (segmentLine prose line).Level := by
  have htame := Segment.tame_ofTokens ((tokenized_tokenize line).bare h)
  refine Segment.level_renderBehind [] (Segment.tame_mergeText ?_)
  cases prose with
  | true => exact htame
  | false =>
    intro segment hmem
    obtain ⟨source, hsource, rfl⟩ := List.mem_map.mp hmem
    exact (htame source hsource).asMath

/-! ## Bounds -/

theorem Text.Bare.trim {text : Text} (h : text.Bare) : (Text.trim text).Bare := by
  obtain ⟨blanks, hleft, -⟩ := Text.trimLeft_append text
  obtain ⟨blanks', hright, -⟩ := Text.trimRight_append text.trimLeft
  rw [hleft, hright] at h
  exact (Text.bare_append.mp (Text.bare_append.mp h).2).1

namespace Bound

/-- The depth of braces behind a character of a bound, where scripts are put in braces and no
command is written yet. Round brackets stand only outside of all braces. -/
def read (depth : Nat) (c : Char) : Option Nat :=
  if c = '\\' then none
  else if c = '{' then some (depth + 1)
  else if c = '}' then if depth = 0 then none else some (depth - 1)
  else if (c = '(' ∨ c = ')') ∧ depth ≠ 0 then none
  else some depth

variable {a b text script : Text} {depth top : Nat}

theorem foldlM_read_append :
    (a ++ b).foldlM read depth = some top ↔
      ∃ between, a.foldlM read depth = some between ∧ b.foldlM read between = some top := by
  rw [List.foldlM_append, Option.bind_eq_bind, Option.bind_eq_some_iff]

theorem foldlM_read_cons {c : Char} :
    (c :: text).foldlM read depth = some top ↔
      ∃ between, read depth c = some between ∧ text.foldlM read between = some top := by
  rw [List.foldlM_cons, Option.bind_eq_bind, Option.bind_eq_some_iff]

/-- What a character does to the depth. -/
theorem read_eq_some_iff {c : Char} :
    read depth c = some top ↔ c = '{' ∧ top = depth + 1 ∨ c = '}' ∧ depth = top + 1 ∨
      (c ≠ '{' ∧ c ≠ '}' ∧ c ≠ '\\') ∧ top = depth ∧ (c = '(' ∨ c = ')' → depth = 0) := by
  unfold read
  grind

theorem read_of_bare {c : Char} (h : c ≠ '{' ∧ c ≠ '}' ∧ c ≠ '\\')
    (hround : c = '(' ∨ c = ')' → depth = 0) : read depth c = some depth :=
  read_eq_some_iff.mpr (.inr (.inr ⟨h, rfl, hround⟩))

theorem read_of_bare_text (h : text.Bare) (hround : ∀ c ∈ text, c = '(' ∨ c = ')' → depth = 0) :
    text.foldlM read depth = some depth := by
  induction text with
  | nil => rfl
  | cons c text ih =>
    obtain ⟨hc, htext⟩ := Text.bare_cons.mp h
    obtain ⟨hroundc, hround⟩ := List.forall_mem_cons.mp hround
    exact foldlM_read_cons.mpr ⟨depth, read_of_bare hc hroundc, ih htext hround⟩

/-- Reading a bound is reading it as LaTeX. -/
theorem climb_of_read (h : text.foldlM read depth = some top) : text.climb depth = some top := by
  induction text generalizing depth with
  | nil => exact h
  | cons c text ih =>
    obtain ⟨between, hc, htext⟩ := foldlM_read_cons.mp h
    rcases read_eq_some_iff.mp hc with ⟨rfl, rfl⟩ | ⟨rfl, rfl⟩ | ⟨hbare, rfl, -⟩
    · exact ih htext
    · exact ih htext
    · exact (Text.climb_char hbare _ text).trans (ih htext)

/-- A script without round brackets can also be read inside of braces. -/
theorem read_succ (hscript : ∀ c ∈ script, c ≠ '(' ∧ c ≠ ')')
    (h : script.foldlM read depth = some top) :
    script.foldlM read (depth + 1) = some (top + 1) := by
  induction script generalizing depth with
  | nil =>
    cases h
    rfl
  | cons c script ih =>
    obtain ⟨hc, hscript⟩ := List.forall_mem_cons.mp hscript
    obtain ⟨between, hread, hrest⟩ := foldlM_read_cons.mp h
    refine foldlM_read_cons.mpr ⟨between + 1, ?_, ih hscript hrest⟩
    rcases read_eq_some_iff.mp hread with ⟨rfl, rfl⟩ | ⟨rfl, rfl⟩ | ⟨hbare, rfl, -⟩
    · rfl
    · rfl
    · exact read_of_bare hbare fun hround => (hround.elim hc.1 hc.2).elim

/-- The second text may stand for the first one in a bound. -/
def Rereads (a b : Text) : Prop :=
  ∀ ⦃depth top⦄, a.foldlM read depth = some top → b.foldlM read depth = some top

theorem compositional_rereads : Text.Compositional Rereads where
  refl _ _ _ h := h
  trans h h' _ _ hread := h' (h hread)
  append h h' _ _ hread := by
    obtain ⟨between, ha, hb⟩ := foldlM_read_append.mp hread
    exact foldlM_read_append.mpr ⟨between, h ha, h' hb⟩

theorem read_round {c : Char} (hc : c = '(' ∨ c = ')') (h : read depth c = some top) :
    depth = 0 ∧ top = 0 := by
  rcases read_eq_some_iff.mp h with ⟨rfl, -⟩ | ⟨rfl, -⟩ | ⟨-, rfl, hround⟩
  · simp at hc
  · simp at hc
  · exact ⟨hround hc, hround hc⟩

/-- A script in braces. -/
theorem read_braced (hscript : ∀ c ∈ script, c ≠ '(' ∧ c ≠ ')')
    (h : script.foldlM read depth = some depth) :
    (Latex.braced script).foldlM read depth = some depth :=
  foldlM_read_cons.mpr ⟨depth + 1, rfl,
    foldlM_read_append.mpr ⟨depth + 1, read_succ hscript h, rfl⟩⟩

section Scripts

variable (isBase : Char → Bool) {mark : Char} (hmark : mark = '_' ∨ mark = '^')
include hmark

theorem read_mark : read depth mark = some depth := by
  refine read_of_bare ?_ ?_ <;> rcases hmark with rfl | rfl <;> simp

theorem rereads_grouped (text : Text) :
    Rereads text ((Script.grouped isBase mark).replace (Script.inBraces mark) text) := by
  have hrec := Script.recognises_grouped isBase mark
  refine Pattern.replace_related compositional_rereads hrec.proper ?_ text
  rintro previous matched ⟨base, script⟩ after hat depth top hread
  obtain ⟨rfl, -, hscript⟩ := hrec.spec hat
  obtain ⟨between, hbase, hread⟩ := foldlM_read_cons.mp hread
  obtain ⟨_, hmark', hread⟩ := foldlM_read_cons.mp hread
  cases (read_mark hmark).symm.trans hmark'
  -- The brackets stand outside of all braces, so the script is read from there and back to there.
  obtain ⟨_, hopen, hread⟩ := foldlM_read_cons.mp hread
  obtain ⟨rfl, rfl⟩ := read_round (.inl rfl) hopen
  obtain ⟨_, hinner, hread⟩ := foldlM_read_append.mp hread
  obtain ⟨_, hclose, hread⟩ := foldlM_read_cons.mp hread
  obtain ⟨rfl, rfl⟩ := read_round (.inr rfl) hclose
  cases hread
  exact foldlM_read_cons.mpr ⟨0, hbase, foldlM_read_cons.mpr
    ⟨0, read_mark hmark, read_braced hscript hinner⟩⟩

theorem rereads_bare (text : Text) :
    Rereads text ((Script.bare isBase mark).replace (Script.inBraces mark) text) := by
  have hrec := Script.recognises_bare isBase mark
  refine Pattern.replace_related compositional_rereads hrec.proper ?_ text
  rintro previous matched ⟨base, script⟩ after hat depth top hread
  obtain ⟨rfl, -, -, halnum, -⟩ := hrec.spec hat
  -- Letters and digits leave the depth as it is, wherever they stand.
  have hround : ∀ c ∈ script, c ≠ '(' ∧ c ≠ ')' := by
    refine fun c hc => ⟨?_, ?_⟩ <;>
    · rintro rfl
      cases halnum _ hc
  have hbare : script.Bare := Text.bare_of_isNameChar fun c hc => by simp [isNameChar, halnum c hc]
  have hscript : ∀ depth, script.foldlM read depth = some depth := fun depth =>
    read_of_bare_text hbare fun c hc h => (h.elim (hround c hc).1 (hround c hc).2).elim
  obtain ⟨between, hbase, hread⟩ := foldlM_read_cons.mp hread
  obtain ⟨_, hmark', hread⟩ := foldlM_read_cons.mp hread
  cases (read_mark hmark).symm.trans hmark'
  cases (hscript between).symm.trans hread
  exact foldlM_read_cons.mpr ⟨top, hbase, foldlM_read_cons.mpr
    ⟨top, read_mark hmark, read_braced hround (hscript top)⟩⟩

end Scripts

theorem level_replaceAll {needle command : Text} (hneedle : needle.IsWord)
    (hcommand : command.IsWord) (h : text.Level) :
    (replaceAll needle ('\\' :: command) text).Level := by
  have hrec : (wordPattern (fun _ => false) (fun _ => false)
      [(needle, '\\' :: command)]).Recognises _ :=
    Pattern.recognises_wordPattern fun p hp => List.mem_singleton.mp hp ▸ hneedle.1
  refine (Pattern.replace_related Text.compositional_exchanges hrec.proper ?_ text).level h
  intro previous matched value after hat
  obtain ⟨rfl, rfl⟩ := Prod.mk.inj (List.mem_singleton.mp (hrec.spec hat).1)
  exact hneedle.exchanges hcommand

/-- **A bound is level**, if it was written without braces and backslashes. -/
theorem level_normalize {bound : Text} (h : bound.Bare) : (normalize bound).Level := by
  have hread : (Text.trim bound).foldlM read 0 = some 0 :=
    read_of_bare_text h.trim fun _ _ _ => rfl
  have hscripts := rereads_bare isExponentBase (.inr rfl) _ (rereads_grouped isExponentBase
    (.inr rfl) _ (rereads_bare Char.isAlpha (.inl rfl) _
      (rereads_grouped Char.isAlpha (.inl rfl) _ hread)))
  exact level_replaceAll (by decide) (by decide)
    (level_replaceAll (by decide) (by decide) (climb_of_read hscripts))

end Bound

end MathNotes
