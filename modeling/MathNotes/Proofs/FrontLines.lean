import MathNotes.Proofs.Segmentation
import MathNotes.Symbol.Substitution

/-!
# Lines behind a marker

A marker and a plus sign in front of a line are tokens of their own, and the line behind them has
the segments that it has alone.  What is written for a segment depends on those before it through
the nearest one, and the nearest one that is not white space (`Segment.renderBehind_congr`), so the
line is written as it is alone.  Only the space behind the plus sign depends on the line: in front
of prose it is a control space (`segmentLine_marker`).
-/

namespace MathNotes

/-! ## Tokens -/

theorem tokenize_cons (c : Char) (text : Text) :
    ∃ token more, tokenize (c :: text) = (c :: token) :: more := by
  rw [tokenize]
  split
  · split
    · exact ⟨_, _, rfl⟩
    · exact ⟨_, _, rfl⟩
  · exact ⟨_, _, rfl⟩

/-- A run in front of something of another kind is a token. -/
theorem tokenize_run {run rest : Text} {kind : CharKind} (hne : run ≠ [])
    (hkind : ∀ c ∈ run, CharKind.of c = kind) (hstop : ∀ c ∈ rest.head?, CharKind.of c ≠ kind) :
    tokenize (run ++ rest) = run :: tokenize rest := by
  induction run with
  | nil => exact absurd rfl hne
  | cons c run ih =>
    have hc := hkind c List.mem_cons_self
    cases run with
    | nil =>
      -- The last character of the run stands in front of another token.
      cases rest with
      | nil => rfl
      | cons d rest =>
        obtain ⟨token, more, htokens⟩ := tokenize_cons d rest
        rw [List.singleton_append, tokenize, htokens]
        have hne : CharKind.of c ≠ CharKind.of d := by
          rw [hc]
          exact (hstop d rfl).symm
        simp only [if_neg hne]
    | cons d run =>
      rw [List.cons_append, tokenize,
        ih (List.cons_ne_nil d run) fun e he => hkind e (List.mem_cons_of_mem c he)]
      have heq : CharKind.of c = CharKind.of d := by rw [hc, hkind d (by simp)]
      simp only [if_pos heq]

namespace Segment

/-! ## Segments -/

/-- Segments on one side that look alike from a segment: what is written for it depends on whether
a formula stands next to it, and on the nearest segment that is not white space. -/
structure Akin (side side' : List Segment) : Prop where
  math : side.head?.any isMath = side'.head?.any isMath
  nearest : nearest? side = nearest? side'

theorem Akin.cons {side side' : List Segment} (h : Akin side side') (segment : Segment) :
    Akin (segment :: side) (segment :: side') := by
  have hnearest := h.nearest
  unfold nearest? at hnearest
  exact ⟨rfl, by rw [nearest?, nearest?, List.find?_cons, List.find?_cons, hnearest]⟩

theorem renderOne_congr {before before' after after' : List Segment} (hbefore : Akin before before')
    (hafter : Akin after after') (segment : Segment) :
    renderOne before segment after = renderOne before' segment after' := by
  cases segment <;> simp only [renderOne, operatorGap, hbefore.math, hbefore.nearest, hafter.math,
    hafter.nearest]

/-- What is written for segments depends on those before them through what they look like. -/
theorem renderBehind_congr {before before' : List Segment} (h : Akin before before')
    (segments : List Segment) : renderBehind before segments = renderBehind before' segments := by
  induction segments generalizing before before' with
  | nil => rfl
  | cons segment segments ih =>
    rw [renderBehind, renderBehind, renderOne_congr h ⟨rfl, rfl⟩, ih (h.cons segment)]

theorem nearest?_cons {segment : Segment} (h : segment.isSpace = false) (before : List Segment) :
    nearest? (segment :: before) = some segment := by
  rw [nearest?, List.find?_cons, h]
  rfl

/-- Whether a segment is prose. -/
def isText : Segment → Bool
  | text _ => true
  | _ => false

/-- Whether prose comes first in a line of segments. -/
def opensWithProse (segments : List Segment) : Bool := (nearest? segments).any isText

theorem opensWithProse_mergeText (segments : List Segment) :
    opensWithProse (mergeText segments) = opensWithProse segments := by
  induction segments with
  | nil => rfl
  | cons segment segments ih =>
    cases segment with
    | space content => exact ih
    | math content => rfl
    | text word =>
      rw [mergeText, consText]
      split <;> rfl

/-- A plus sign in front of a line: a space stands behind it, or a control space where the line
opens with prose. -/
def plus (prose : Bool) : Text := if prose then " +\\ " else " + "

theorem not_mem_operatorCommands {content : Text} (h : content.head? ≠ some '\\') :
    operatorCommands.contains content = false := by
  have key : ∀ command ∈ operatorCommands, command.head? = some '\\' := by decide
  by_contra hmem
  rw [Bool.not_eq_false, List.contains_iff_mem] at hmem
  exact h (key content hmem)

section Behind

variable {before : List Segment} (hhead : before.head?.any isMath = false)
  (hnearest : nearest? before = none) {segment : Segment} (hsegment : segment.isSpace = false)
include hnearest

/-- What is written for prose begins as prose. -/
theorem prose_of_isText (h : segment.isText = true) (segments : List Segment) :
    Symbol.proseLead <+: renderBehind before (segment :: segments) := by
  cases segment with
  | space content => cases h
  | math content => cases h
  | text content =>
    simp only [renderBehind, renderOne, hnearest, List.append_assoc]
    exact ⟨_, rfl⟩

include hhead hsegment

/-- Behind a formula and a plus sign, segments are written as they are where nothing but white space
stands before them. -/
theorem renderBehind_plus (content blanks : Text) (segments : List Segment) :
    renderBehind [math content]
        (space " " :: math "+" :: space blanks :: segment :: segments) =
      plus segment.isText ++ renderBehind before (segment :: segments) := by
  have hrest : renderBehind (segment :: space blanks :: math "+" :: [space " ", math content])
      segments = renderBehind (segment :: before) segments := by
    apply renderBehind_congr
    refine ⟨rfl, ?_⟩
    rw [nearest?_cons hsegment, nearest?_cons hsegment]
  have hplus : operatorCommands.contains "+".toList = false := not_mem_operatorCommands (by decide)
  simp only [renderBehind, hrest]
  cases segment with
  | space content => cases hsegment
  | math content =>
    have hgap : operatorGap before.head? = [] := by rw [operatorGap, hhead]; rfl
    simp only [renderOne, hgap, hplus]
    rfl
  | text content =>
    simp only [renderOne, hnearest, hplus]
    rfl

end Behind

theorem ofTokens_run {run rest : Text} {kind : CharKind} {segment : Segment} (hne : run ≠ [])
    (hkind : ∀ c ∈ run, CharKind.of c = kind) (hstop : ∀ c ∈ rest.head?, CharKind.of c ≠ kind)
    (hsegment : ∀ next, ofToken run next = segment) :
    ofTokens (tokenize (run ++ rest)) = segment :: ofTokens (tokenize rest) := by
  rw [tokenize_run hne hkind hstop, ofTokens, hsegment]

theorem ofTokens_blanks {blanks line : Text} (hne : blanks ≠ []) (hblank : blanks.Blank)
    (hline : ∀ c ∈ line.head?, isBlank c = false) :
    ofTokens (tokenize (blanks ++ line)) = space blanks :: ofTokens (tokenize line) := by
  refine ofTokens_run hne (fun c hc => hblank.kind hc) (fun c hc => ?_) fun next => ?_
  · rw [CharKind.of, hline c hc]
    split <;> simp
  · rw [ofToken, if_pos (Text.isBlankRun_iff.mpr ⟨hne, hblank⟩)]

/-- White space at the start of a line is not written. -/
theorem exists_segmentLine_blanks {blanks line : Text} (hblank : blanks.Blank)
    (hline : ∀ c ∈ line.head?, isBlank c = false) :
    ∃ before : List Segment, before.head?.any isMath = false ∧ nearest? before = none ∧
      segmentLine true (blanks ++ line) =
        renderBehind before (mergeText (ofTokens (tokenize line))) ∧
      opensWithProse (ofTokens (tokenize (blanks ++ line))) =
        opensWithProse (ofTokens (tokenize line)) := by
  by_cases hnil : blanks = []
  · subst hnil
    exact ⟨[], rfl, rfl, rfl, rfl⟩
  · refine ⟨[space blanks], rfl, rfl, ?_⟩
    rw [segmentLine, ofLine_true, ofTokens_blanks hnil hblank hline]
    exact ⟨rfl, rfl⟩

theorem ofToken_marker (k : Nat) (next : Option Text) :
    ofToken (Marker.ofNat k) next = math (Marker.ofNat k) := by
  have hblank : ¬ (Marker.ofNat k).isBlankRun = true := by
    rw [Marker.ofNat_eq]
    simp [Text.isBlankRun, show isBlank '_' = false by decide]
  have hcommand : ¬ ((Marker.ofNat k).head? == some '\\') = true := by
    rw [Marker.ofNat_eq]
    simp
  have hunderscore : ((Marker.ofNat k).contains '_' || (Marker.ofNat k).contains '^') = true := by
    rw [Marker.ofNat_eq]
    simp
  rw [ofToken, if_neg hblank, if_neg hcommand, if_pos hunderscore,
    escapeMath_of_isNameChar fun c hc => Marker.nameChar_of_mem_ofNat hc]

/-- The segments of a line behind a marker and a plus sign. -/
theorem ofTokens_marker (k : Nat) {blanks line : Text} (hblank : blanks.Blank)
    (hline : ∀ c ∈ line.head?, isBlank c = false) :
    ofTokens (tokenize (Marker.ofNat k ++ " + " ++ (blanks ++ line))) =
      math (Marker.ofNat k) :: space " " :: math "+" :: space (' ' :: blanks) ::
        ofTokens (tokenize line) := by
  have hspace : isBlank ' ' = true := by decide
  have hgap : Text.Blank (' ' :: blanks) := by
    intro c hc
    rcases List.mem_cons.mp hc with rfl | hc
    · exact hspace
    · exact hblank c hc
  calc ofTokens (tokenize (Marker.ofNat k ++ " + " ++ (blanks ++ line)))
      = ofTokens (tokenize
          (Marker.ofNat k ++ ([' '] ++ (['+'] ++ ((' ' :: blanks) ++ line))))) := by simp
    _ = math (Marker.ofNat k) ::
          ofTokens (tokenize ([' '] ++ (['+'] ++ ((' ' :: blanks) ++ line)))) := by
        refine ofTokens_run (by simp [Marker.ofNat_eq])
          (fun c hc => kind_of_isNameChar (Marker.nameChar_of_mem_ofNat hc)) (fun c hc => ?_)
          (ofToken_marker k)
        cases hc
        decide
    _ = math (Marker.ofNat k) :: space " " ::
          ofTokens (tokenize (['+'] ++ ((' ' :: blanks) ++ line))) := by
        refine congrArg _ (ofTokens_blanks (by simp) (by simpa [Text.Blank] using hspace) ?_)
        intro c hc
        cases hc
        decide
    _ = math (Marker.ofNat k) :: space " " :: math "+" ::
          ofTokens (tokenize ((' ' :: blanks) ++ line)) := by
        have hplus : ∀ c ∈ ['+'], CharKind.of c = .punctuation := by decide
        refine congrArg (_ :: _ :: ·) (ofTokens_run (by simp) hplus ?_ fun next => rfl)
        intro c hc
        cases hc
        decide
    _ = _ := by rw [ofTokens_blanks (by simp) hgap hline]

/-- A line that does not start with white space starts with another segment. -/
theorem exists_first {line : Text} (hne : line ≠ []) (hline : ∀ c ∈ line.head?, isBlank c = false) :
    ∃ segment segments, mergeText (ofTokens (tokenize line)) = segment :: segments ∧
      segment.isSpace = false := by
  obtain ⟨c, line, rfl⟩ := List.exists_cons_of_ne_nil hne
  obtain ⟨token, more, htokens⟩ := tokenize_cons c line
  rw [htokens, ofTokens]
  cases hfirst : ofToken (c :: token) (more.find? (!Text.isBlankRun ·)) with
  | text word =>
    rw [mergeText, consText]
    split
    · exact ⟨_, _, rfl, rfl⟩
    · exact ⟨_, _, rfl, rfl⟩
  | math content => exact ⟨_, _, rfl, rfl⟩
  | space blanks =>
    have hblank := blank_of_isSpace (show _ = true by rw [hfirst]; rfl) c List.mem_cons_self
    rw [hline c rfl] at hblank
    cases hblank

end Segment

open Segment in
/-- **A line behind a marker and a plus sign** is written as it is alone. -/
theorem segmentLine_marker (k : Nat) {line : Text} (h : Text.trimLeft line ≠ []) :
    segmentLine true (Marker.ofNat k ++ " + " ++ line) =
      Marker.ofNat k ++ Segment.plus (opensWithProse (ofTokens (tokenize line))) ++
        segmentLine true line ∧
      (opensWithProse (ofTokens (tokenize line)) = true →
        Symbol.proseLead <+: segmentLine true line) := by
  -- White space in front of the line joins the space behind the plus sign.
  obtain ⟨blanks, hsplit, hblank⟩ := Text.trimLeft_append line
  have hhead : ∀ c ∈ line.trimLeft.head?, isBlank c = false := head?_dropWhile_stops
  obtain ⟨segment, segments, hmerged, hsegment⟩ := exists_first h hhead
  obtain ⟨before, hmath, hnearest, hline, hopens⟩ := exists_segmentLine_blanks hblank hhead
  have hsegments := ofTokens_marker k hblank hhead
  have hmarker : operatorCommands.contains (Marker.ofNat k) = false :=
    not_mem_operatorCommands (by simp [Marker.ofNat_eq])
  have htext : opensWithProse (ofTokens (tokenize line)) = segment.isText := by
    rw [hsplit, hopens, ← opensWithProse_mergeText, hmerged, opensWithProse, nearest?_cons hsegment]
    rfl
  rw [← hsplit] at hline hsegments
  rw [htext, hline, hmerged]
  refine ⟨?_, fun hprose => prose_of_isText hnearest hprose segments⟩
  rw [segmentLine, ofLine_true, hsegments]
  simp only [mergeText]
  rw [hmerged, render, renderBehind, renderBehind_plus hmath hnearest hsegment, renderOne, hmarker,
    ← List.append_assoc]
  rfl

end MathNotes
