import MathNotes.Proofs.Compilation
import MathNotes.Proofs.FrontLines
import MathNotes.Proofs.Fronts

/-!
# Markers written by hand

Nothing tells a marker that was written by hand from one that stands for a fragment.  So when a line
starts with such a marker, it all depends on its number (`Expression.compile_marker`): a number that
no fragment of the line has leaves the marker where it is, and the line behind it is compiled as it
would be alone; any other number gets the fragment written in its place.
-/

namespace MathNotes

open Extract Marked

/-! ## Lines -/

theorem Symbol.constants_spec : ∀ p ∈ constants, p.1.head?.any (!isQuiet ·) = true ∧
    p.2.any (!isBlank ·) = true := by decide

/-- Constants are replaced behind a front as they are in the line alone. -/
theorem Symbol.substituteConstants_front {front : Text} (h : front.Front) (text : Text) :
    substituteConstants (front ++ text) = front ++ substituteConstants text := by
  refine Pattern.replace_behind_space (fun _ => rfl) h.getLast?
    (Pattern.misses_of_forall fun c hc previous text => ?_) id
  rw [constantPattern, wordPattern]
  split
  · rfl
  · refine List.findSome?_eq_none_iff.mpr fun p hp => ?_
    simp only [isPrefixOf?_of_isQuiet (constants_spec p hp).1 (h.quiet c hc)]
    rfl

theorem Text.trimLeft_eq_nil_iff {text : Text} : text.trimLeft = [] ↔ text.Blank :=
  List.dropWhile_eq_nil_iff

/-- No text turns into white space. -/
theorem Text.compositional_blank : Text.Compositional fun a b => b.Blank → a.Blank where
  refl _ h := h
  trans h h' hc := h (h' hc)
  append h h' hb := by
    unfold Text.Blank at *
    simp only [List.forall_mem_append] at hb ⊢
    exact ⟨h hb.1, h' hb.2⟩

theorem Symbol.blank_of_substituteConstants {text : Text} (h : (substituteConstants text).Blank) :
    text.Blank := by
  have hwords : constantPattern.Recognises _ := Pattern.recognises_wordPattern fun p hp hnil => by
    have := (constants_spec p hp).1
    simp [hnil] at this
  refine Pattern.replace_related Text.compositional_blank hwords.proper
    (fun _ _ _ _ hat hblank => ?_) text h
  obtain ⟨c, hc, hnot⟩ := List.any_eq_true.mp (constants_spec _ (hwords.spec hat).1).2
  simp [hblank c hc] at hnot

/-- Extraction leaves more than white space of a line that is more than that. -/
theorem Construct.blank_of_extract {rounds depth : Nat} {text : Text} (hclear : text.Clear)
    (h : Text.Blank (extract rounds depth text {}).1) : text.Blank := by
  obtain ⟨w, G, kept, hextract, hrun⟩ := exists_run rounds depth hclear
  rw [hextract] at h
  -- The last step of the extraction has left a marker or a brace.
  rcases Relation.ReflTransGen.cases_tail hrun with hsame | ⟨state, -, hstep⟩
  · obtain ⟨rfl, -⟩ := Prod.ext_iff.mp hsame
    simpa using h
  · exfalso
    generalize hstate : (w, G) = state' at hstep
    cases hstep with
    | store _ _ =>
      obtain ⟨rfl, -⟩ := Prod.ext_iff.mp hstate
      have := h '_' (by simp [Marker.ofNat_eq])
      revert this
      decide
    | escape =>
      obtain ⟨rfl, -⟩ := Prod.ext_iff.mp hstate
      have := h '{' (by simp)
      revert this
      decide

namespace Expression

/-- Whether a line opens with prose once its constructs are put aside. -/
def opensWithProse (settings : Settings) (line : Text) : Bool :=
  Segment.opensWithProse (Segment.ofTokens (tokenize
    (Construct.extract settings.rounds.toNat settings.depth.toNat
      (Symbol.substituteConstants line) {}).1))

/-- **A line behind a marker and a plus sign**, before its fragments are put back: the fragments are
those of the line alone. -/
theorem segmented_marker (settings : Settings) (hdepth : 0 < settings.depth) (k : Nat) {line : Text}
    (hclear : line.Clear) (hblank : ¬ line.Blank) :
    segmented settings (Marker.ofNat k ++ " + " ++ line) =
      (Marker.ofNat k ++ Segment.plus (opensWithProse settings line) ++ (segmented settings line).1,
        (segmented settings line).2) ∧
      (opensWithProse settings line = true →
        Symbol.proseLead <+: (segmented settings line).1) := by
  obtain ⟨depth, hdepth⟩ : ∃ depth, settings.depth.toNat = depth + 1 :=
    Nat.exists_eq_add_one.mpr (by omega)
  have hfront := Marker.front_ofNat k
  have hextract := Construct.extract_front hfront settings.rounds.toNat depth
    (Symbol.substituteConstants line)
  have hleft : Text.trimLeft (Construct.extract settings.rounds.toNat settings.depth.toNat
      (Symbol.substituteConstants line) {}).1 ≠ [] := fun hnil =>
    hblank (Symbol.blank_of_substituteConstants (Construct.blank_of_extract
      ((Symbol.substituteConstants_spec line).2.1 hclear) (Text.trimLeft_eq_nil_iff.mp hnil)))
  obtain ⟨hsegment, hprose⟩ := segmentLine_marker k hleft
  refine ⟨?_, hprose⟩
  rw [← hdepth] at hextract
  rw [segmented, Symbol.substituteConstants_front hfront, hextract]
  exact congrArg (·, _) hsegment

end Expression

/-! ## Markers without a fragment -/

theorem Pattern.find?_of_occursIn {α : Type} {pattern : Pattern α} {text : Text}
    (h : pattern.occursIn text = false) : pattern.find? none text = none := by
  have key : ∀ (text : Text) (previous : Option Char),
      (∀ value, .hit value ∉ pattern.piecesFrom previous 0 text) →
        pattern.find? previous text = none := by
    intro text
    induction text with
    | nil => exact fun _ _ => rfl
    | cons c text ih =>
      intro previous hnone
      rw [piecesFrom] at hnone
      rw [find?]
      cases hc : pattern previous (c :: text) with
      | some hit =>
        simp only [hc] at hnone
        exact absurd List.mem_cons_self (hnone hit.value)
      | none =>
        simp only [hc] at hnone
        simp [ih (some c) fun value hmem => hnone value (List.mem_cons_of_mem _ hmem)]
  refine key text none fun value hmem => ?_
  have hvalue : value ∈ pattern.hits text := List.mem_filterMap.mpr ⟨.hit value, hmem, rfl⟩
  rw [occursIn, Bool.not_eq_false', List.isEmpty_iff] at h
  simp [h] at hvalue

theorem Marker.pieces_ofNat (k : Nat) (text : Text) :
    pattern.pieces (ofNat k ++ text) = .hit (Text.ofNat k) :: pattern.pieces text := by
  rw [Pattern.pieces, Pattern.piecesFrom_of_hitsAt (hitsAt_ofNat none k text)]
  cases text <;> rfl

theorem Marker.misses_of_not_mem {a : Text} (h : '_' ∉ a) (text : Text) :
    pattern.Misses none a text := by
  refine Pattern.misses_of_forall fun c hc _ rest => pattern_eq_none (read?_ne_lead ?_)
  rintro behind hlead
  obtain ⟨rfl, -⟩ := List.cons.inj hlead
  exact h hc

theorem Segment.getLast?_plus (prose : Bool) : (plus prose).getLast? = some ' ' := by
  cases prose <;> decide

namespace Fragments

variable {fragments : Fragments} {k : Nat} (hk : fragments.length ≤ k)
  (hdigits : (Text.ofNat k).length ≤ Fault.digitLimit) (prose : Bool)
include hk hdigits

/-- A pass leaves a marker without a fragment where it is. -/
theorem resolveOnce_marker (text : Text) :
    fragments.resolveOnce (Marker.ofNat k ++ Segment.plus prose ++ text) =
      (Marker.ofNat k ++ Segment.plus prose ++ ·) <$> fragments.resolveOnce text := by
  have hlookup : fragments.lookup (Text.ofNat k) = .ok (Marker.ofNat k) := by
    rw [lookup, if_neg (by omega), decimalNumber_ofNat, List.getElem?_eq_none hk]
    rfl
  have hplus : '_' ∉ Segment.plus prose := by cases prose <;> decide
  have hbehind : fragments.resolveOnce (Segment.plus prose ++ text) =
      (Segment.plus prose ++ ·) <$> fragments.resolveOnce text :=
    Pattern.replaceM_behind_space (fun _ => rfl) (Segment.getLast?_plus prose)
      (Marker.misses_of_not_mem hplus text)
  calc fragments.resolveOnce (Marker.ofNat k ++ Segment.plus prose ++ text)
      = (Marker.ofNat k ++ ·) <$> fragments.resolveOnce (Segment.plus prose ++ text) := by
        rw [resolveOnce, resolveOnce, replaceM_eq, replaceM_eq, List.append_assoc,
          Marker.pieces_ofNat, List.mapM_cons, replacePiece, hlookup]
        simp
        rfl
    _ = _ := by
        rw [hbehind, ← comp_map]
        simp only [List.append_assoc]
        rfl

omit hk hdigits in
/-- What resolving does when it may make a pass: the line is left as it is when a pass does not
change it, and otherwise the changed line is resolved. -/
theorem resolveFrom_succ {passes budget : Nat} {line : Text} {r : Resolution}
    (hr : fragments.resolveFrom passes (budget + 1) line = .ok r) :
    (fragments.resolveOnce line = .ok line ∧ r.latex = line) ∨
      ∃ updated, updated ≠ line ∧ fragments.resolveOnce line = .ok updated ∧
        fragments.resolveFrom (passes + 1) budget updated = .ok r := by
  rw [resolveFrom] at hr
  by_cases hin : Marker.occursIn line = true
  · rw [if_pos hin] at hr
    cases hupdated : fragments.resolveOnce line with
    | error fault =>
      rw [hupdated] at hr
      cases hr
    | ok updated =>
      rw [hupdated] at hr
      simp only [bind, Except.bind] at hr
      by_cases hsame : updated = line
      · rw [if_pos hsame] at hr
        cases hr
        exact .inl ⟨by rw [hsame], rfl⟩
      · rw [if_neg hsame] at hr
        exact .inr ⟨updated, hsame, rfl, hr⟩
  · rw [if_neg hin] at hr
    cases hr
    exact .inl ⟨replaceM_of_find?_none (Pattern.find?_of_occursIn (eq_false_of_ne_true hin)), rfl⟩

/-- **A marker without a fragment stays**, and what stands behind it is resolved as it is alone. -/
theorem resolveFrom_marker {passes budget : Nat} {text : Text} {r : Resolution}
    (hr : fragments.resolveFrom passes budget text = .ok r) (passes' : Nat) :
    ∃ count, fragments.resolveFrom passes' budget (Marker.ofNat k ++ Segment.plus prose ++ text) =
      .ok ⟨Marker.ofNat k ++ Segment.plus prose ++ r.latex, count, true⟩ := by
  have hoccurs : ∀ text,
      Marker.occursIn (Marker.ofNat k ++ Segment.plus prose ++ text) = true := by
    intro text
    rw [Marker.occursIn, Pattern.occursIn, Pattern.hits, List.append_assoc, Marker.pieces_ofNat]
    rfl
  induction budget generalizing passes passes' text with
  | zero =>
    rw [resolveFrom, Except.ok.injEq] at hr
    subst hr
    refine ⟨passes', ?_⟩
    rw [resolveFrom, hoccurs]
  | succ budget ih =>
    rw [resolveFrom, hoccurs, if_pos rfl, resolveOnce_marker hk hdigits]
    rcases resolveFrom_succ hr with ⟨hself, hlatex⟩ | ⟨updated, hne, hupdated, hrest⟩
    · rw [hself, hlatex]
      simp only [bind, Except.bind, Functor.map, Except.map, if_true]
      exact ⟨passes' + 1, rfl⟩
    · rw [hupdated]
      simp only [bind, Except.bind, Functor.map, Except.map, List.append_cancel_left_eq, if_neg hne]
      exact ih hrest _

omit hk hdigits

/-- A pass does not touch what stands in front of the first marker. -/
theorem prefix_resolveOnce {lead line updated : Text} (hlead : '_' ∉ lead) (h : lead <+: line)
    (hupdated : fragments.resolveOnce line = .ok updated) : lead <+: updated := by
  obtain ⟨rest, rfl⟩ := h
  have hmisses := Marker.misses_of_not_mem hlead rest
  rw [resolveOnce, replaceM_eq, Pattern.pieces, Pattern.piecesFrom_pass hmisses, mapM_chars,
    bind_assoc] at hupdated
  cases hparts : (Marker.pattern.piecesFrom (lead.getLast?.or none) 0 rest).mapM
      (replacePiece fragments.lookup) with
  | error fault =>
    rw [hparts] at hupdated
    cases hupdated
  | ok parts =>
    rw [hparts] at hupdated
    cases hupdated
    rw [List.flatten_append, flatten_singletons]
    exact List.prefix_append _ _

theorem prefix_resolveFrom {lead line : Text} (hlead : '_' ∉ lead) (h : lead <+: line)
    {passes budget : Nat} {r : Resolution}
    (hr : fragments.resolveFrom passes budget line = .ok r) : lead <+: r.latex := by
  induction budget generalizing passes line with
  | zero =>
    rw [resolveFrom, Except.ok.injEq] at hr
    rwa [← hr]
  | succ budget ih =>
    rcases resolveFrom_succ hr with ⟨-, hlatex⟩ | ⟨updated, -, hupdated, hrest⟩
    · rwa [hlatex]
    · exact ih (prefix_resolveOnce hlead h hupdated) hrest

end Fragments

/-! ## Names and operators -/

theorem Pattern.prefix_replace {α : Type} {pattern : Pattern α} {lead line : Text}
    (h : ∀ rest, pattern.Misses none lead rest) (hline : lead <+: line) (replacement : α → Text) :
    lead <+: pattern.replace replacement line := by
  obtain ⟨rest, rfl⟩ := hline
  rw [replace, pieces, piecesFrom_pass (h rest), List.flatMap_append]
  exact ⟨_, congrArg (· ++ _) (Piece.flatMap_write_chars replacement lead).symm⟩

namespace Symbol

/-- No name starts like a marker. -/
theorem name_lead_eq_none (text : Text) : namePattern (some '_') ('P' :: 'H' :: text) = none := by
  have hletters : ∀ p ∈ names, p.1.take 2 ≠ ['P', 'H'] := by decide
  by_contra hne
  obtain ⟨hit, hhit⟩ := Option.ne_none_iff_exists'.mp hne
  obtain ⟨matched, after, htext, -, -, hmem, -⟩ := Pattern.recognises_wordPattern names_ne_nil hhit
  obtain ⟨c, d, word, hword, -⟩ := names_spec _ hmem
  simp only at hword
  rw [hword] at htext
  obtain ⟨rfl, hbehind⟩ := List.cons.inj htext
  obtain ⟨rfl, -⟩ := List.cons.inj hbehind
  exact hletters _ hmem (by rw [hword]; rfl)

theorem settled_marker (previous : Option Char) (k : Nat) (rest : Text) :
    Settled previous (Marker.ofNat k) rest := by
  constructor
  · refine Pattern.misses_of_forall fun c hc _ _ => prose_eq_none (.inl ?_)
    rintro rfl
    exact absurd (Marker.nameChar_of_mem_ofNat hc) (by decide)
  · have hrest : namePattern.Misses (some 'H') (Text.ofNat k ++ ['_', '_']) rest := by
      refine Pattern.misses_of_forall fun c hc _ _ => name_eq_none (.inl ?_)
      rcases List.mem_append.mp hc with hc | hc
      · exact isAlpha_of_isDigit (Marker.digit_of_mem_ofNat hc)
      · exact (by decide : ∀ c ∈ ['_', '_'], c.isAlpha = false) c hc
    rw [Marker.ofNat_eq]
    exact ⟨name_eq_none (.inl rfl), name_eq_none (.inl rfl), name_lead_eq_none _,
      name_eq_none (.inr (.inl rfl)), hrest⟩

theorem settled_plus (previous : Option Char) (prose : Bool) (rest : Text) :
    Settled previous (Segment.plus prose) rest := by
  have halpha : ∀ c ∈ Segment.plus prose, c.isAlpha = false := by cases prose <;> decide
  refine ⟨?_, Pattern.misses_of_forall fun c hc _ _ => name_eq_none (.inl (halpha c hc))⟩
  cases prose with
  | true => exact ⟨rfl, rfl, rfl, rfl, Pattern.misses_nil⟩
  | false => exact ⟨rfl, rfl, rfl, Pattern.misses_nil⟩

theorem misses_operators_marker (previous : Option Char) (k : Nat) (rest : Text) :
    operatorPattern.Misses previous (Marker.ofNat k) rest := by
  have hheads : ∀ p ∈ operators, ∀ c ∈ p.1, isNameChar c = false := by decide
  refine Pattern.misses_of_forall fun c hc previous text => ?_
  by_contra hne
  obtain ⟨hit, hhit⟩ := Option.ne_none_iff_exists'.mp hne
  obtain ⟨matched, after, htext, -, hmatched, command, hmem, -⟩ := recognises_operatorPattern hhit
  obtain ⟨d, matched, rfl⟩ := List.exists_cons_of_ne_nil hmatched
  obtain ⟨rfl, -⟩ := List.cons.inj htext
  have hname := hheads _ hmem c List.mem_cons_self
  rw [Marker.nameChar_of_mem_ofNat hc] at hname
  cases hname

theorem misses_operatorPattern (k : Nat) (prose : Bool) (rest : Text) :
    operatorPattern.Misses none (Marker.ofNat k ++ Segment.plus prose) rest := by
  refine Pattern.misses_append (misses_operators_marker none k _) ?_
  cases prose with
  | true => exact ⟨rfl, rfl, rfl, rfl, Pattern.misses_nil⟩
  | false => exact ⟨rfl, rfl, rfl, Pattern.misses_nil⟩

/-- **Prose at the start of finished LaTeX stays there.** -/
theorem prose_symbolPass {latex : Text} (h : proseLead <+: latex) :
    proseLead <+: symbolPass latex := by
  obtain ⟨body, rfl⟩ := h
  cases hhit : prosePattern none (proseLead ++ body) with
  | some hit =>
    -- The span is kept as it is.
    have hvalue : proseLead <+: hit.value := by
      simp only [prosePattern, Option.bind_eq_bind, Option.bind_eq_some_iff, Option.pure_def,
        Option.some.injEq] at hhit
      obtain ⟨rest, -, width, -, rfl⟩ := hhit
      rw [List.take_length_add_append]
      exact List.prefix_append _ _
    have hpieces : ∃ more, prosePattern.pieces (proseLead ++ body) = .hit hit.value :: more := by
      have hne : proseLead ++ body ≠ [] := by simp [proseLead]
      obtain ⟨c, text, htext⟩ := List.exists_cons_of_ne_nil hne
      rw [htext] at hhit ⊢
      rw [Pattern.pieces, Pattern.piecesFrom, hhit]
      exact ⟨_, rfl⟩
    obtain ⟨more, hmore⟩ := hpieces
    rw [symbolPass, hmore]
    simp only [Piece.gaps, List.flatMap_cons, List.append_assoc]
    exact hvalue.trans (List.prefix_append _ _)
  | none =>
    -- No span starts here, and no name or operator does.
    have hprose : prosePattern.Misses none proseLead body :=
      ⟨hhit, rfl, rfl, rfl, rfl, rfl, Pattern.misses_nil⟩
    have hnames : ∀ rest, namePattern.Misses none proseLead rest := fun rest =>
      names_of_lettersBarred (by decide)
    have hoperators : ∀ rest, operatorPattern.Misses none proseLead rest := fun rest =>
      ⟨rfl, rfl, rfl, rfl, rfl, rfl, Pattern.misses_nil⟩
    rw [symbolPass, Pattern.pieces, Pattern.piecesFrom_pass hprose, Piece.gaps_chars]
    exact (Pattern.prefix_replace hoperators
      (Pattern.prefix_replace hnames (List.prefix_append _ _) id) id).trans (List.prefix_append _ _)

/-- **The pass over finished LaTeX leaves a marker and a plus sign where they are.** -/
theorem symbolPass_marker (k : Nat) (prose : Bool) (latex : Text) :
    symbolPass (Marker.ofNat k ++ Segment.plus prose ++ latex) =
      Marker.ofNat k ++ Segment.plus prose ++ symbolPass latex := by
  have hlast : (Marker.ofNat k ++ Segment.plus prose).getLast? = some ' ' := by
    rw [List.getLast?_append, Segment.getLast?_plus]
    rfl
  have hsettled : ∀ rest, Settled none (Marker.ofNat k ++ Segment.plus prose) rest := fun rest =>
    (settled_marker none k _).append (settled_plus _ prose rest)
  have hnames : ∀ text, substituteNames (Marker.ofNat k ++ Segment.plus prose ++ text) =
      Marker.ofNat k ++ Segment.plus prose ++ substituteNames text := by
    intro text
    rw [substituteNames, Pattern.replace_behind_space (fun _ => rfl) hlast (hsettled text).names,
      Pattern.replace_behind_space (fun _ => rfl) hlast (misses_operatorPattern k prose _)]
    rfl
  rw [symbolPass, Pattern.pieces_behind_space (fun _ => rfl) hlast (hsettled latex).prose,
    Piece.gaps_chars]
  simp only [hnames]
  rw [List.append_assoc]
  rfl

end Symbol

/-! ## Markers with a fragment -/

/-- One text goes as another does, all the way or up to a backslash. -/
def Text.SameUpToCommand (a b : Text) : Prop :=
  a = b ∨ ∃ common, common <+: a ∧ common ++ ['\\'] <+: b

theorem Text.compositional_sameUpToCommand : Text.Compositional Text.SameUpToCommand where
  refl _ := .inl rfl
  trans := by
    rintro a b c (rfl | ⟨common, hca, hcb⟩) (rfl | ⟨common', hcb', hcc⟩)
    · exact .inl rfl
    · exact .inr ⟨common', hcb', hcc⟩
    · exact .inr ⟨common, hca, hcb⟩
    · -- Both parts are fronts of `b`; the shorter one is what all three have in common.
      rcases List.prefix_or_prefix_of_prefix hcb' hcb with hle | hle
      · rcases List.prefix_concat_iff.mp hle with rfl | hle
        · exact .inr ⟨common, hca, (List.prefix_append _ _).trans hcc⟩
        · exact .inr ⟨common', hle.trans hca, hcc⟩
      · exact .inr ⟨common, hca, hle.trans ((List.prefix_append _ _).trans hcc)⟩
  append := by
    rintro a b a' b' (rfl | ⟨common, hca, hcb⟩) h'
    · rcases h' with rfl | ⟨common, hca, hcb⟩
      · exact .inl rfl
      · refine .inr ⟨a ++ common, (List.prefix_append_right_inj a).mpr hca, ?_⟩
        rw [List.append_assoc]
        exact (List.prefix_append_right_inj a).mpr hcb
    · exact .inr ⟨common, hca.trans (List.prefix_append _ _), hcb.trans (List.prefix_append _ _)⟩

/-- What finished LaTeX starts with, up to a backslash, it started with before names and operators
were replaced. -/
theorem Symbol.lead_of_symbolPass {lead latex : Text} (hlead : '\\' ∉ lead)
    (h : lead <+: symbolPass latex) : lead <+: latex := by
  have hnames : ∀ p ∈ names, Text.SameUpToCommand p.1 p.2 := by
    have key : ∀ p ∈ names, ['\\'] <+: p.2 := by decide
    exact fun p hp => .inr ⟨[], List.nil_prefix, key p hp⟩
  have hoperators : ∀ p ∈ operators, Text.SameUpToCommand p.1 p.2 ∧
      Text.SameUpToCommand p.1 (p.2 ++ [' ']) := by
    have key : ∀ p ∈ operators, ['\\'] <+: p.2 := by decide
    exact fun p hp => ⟨.inr ⟨[], List.nil_prefix, key p hp⟩,
      .inr ⟨[], List.nil_prefix, (key p hp).trans (List.prefix_append _ _)⟩⟩
  rcases symbolPass_related Text.compositional_sameUpToCommand hnames hoperators latex with
    hsame | ⟨common, hcommon, hcommand⟩
  · rwa [hsame]
  · rcases List.prefix_or_prefix_of_prefix h hcommand with hle | hle
    · rcases List.prefix_concat_iff.mp hle with rfl | hle
      · simp at hlead
      · exact hle.trans hcommon
    · exact absurd (hle.subset (by simp)) hlead

namespace Table

variable {G : Table} {w : Marked}

theorem iterate_pass_append (G : Table) (u v : Marked) (count : Nat) :
    G.pass^[count] (u ++ v) = G.pass^[count] u ++ G.pass^[count] v := by
  induction count generalizing u v with
  | zero => rfl
  | succ count ih =>
    have hpass : G.pass (u ++ v) = G.pass u ++ G.pass v := List.flatMap_append
    rw [Function.iterate_succ_apply, hpass, ih]
    rfl

theorem iterate_pass_plain (G : Table) (text : Text) (count : Nat) :
    G.pass^[count] (plain text) = plain text := by
  have hpass : G.pass (plain text) = plain text := by
    rw [pass, plain, List.flatMap_map, List.map_eq_flatMap]
  exact Function.iterate_fixed hpass count

theorem Ready.iterate_pass (hG : G.Backward) (h : G.Ready w) (count : Nat) :
    G.Ready (G.pass^[count] w) := by
  induction count generalizing w with
  | zero => exact h
  | succ count ih => exact ih (h.pass hG)

/-- The passes over a fragment only bring up earlier fragments. -/
theorem numbers_iterate_pass (hG : G.Backward) {bound : Nat} (h : ∀ n ∈ w.numbers, n < bound)
    (count : Nat) : ∀ n ∈ (G.pass^[count] w).numbers, n < bound := by
  induction count generalizing w with
  | zero => exact h
  | succ count ih =>
    refine ih fun n hn => ?_
    rw [numbers_pass, List.mem_flatMap] at hn
    obtain ⟨m, hm, hn⟩ := hn
    exact (hG m n hn).trans (h m hm)

/-- A marker that has been replaced is not back at the front of the line. -/
theorem not_marker_iterate_pass (hG : G.Backward) {k count : Nat} {prose : Bool}
    (h : Tidy (G.pass^[count + 1] ([.hit k] ++ (plain (Segment.plus prose) ++ w)))) :
    ¬ Marker.ofNat k <+:
      (G.pass^[count + 1] ([.hit k] ++ (plain (Segment.plus prose) ++ w))).text := by
  have hfirst : G.pass^[count + 1] [.hit k] = G.pass^[count] (G.getD k []) := by
    rw [Function.iterate_succ_apply]
    simp [pass]
  rw [iterate_pass_append, iterate_pass_append, iterate_pass_plain, hfirst] at h ⊢
  rintro ⟨behind, hbehind⟩
  obtain ⟨u, n, v, hpieces, hu, -, hn⟩ := marker_in_text h (a := []) hbehind.symm
    (Marker.textOfNat_ne_nil k) fun c hc => isDecimal_of_isDigit (Marker.digit_of_mem_ofNat hc)
  obtain rfl := Text.ofNat_injective hn
  obtain rfl := eq_nil_of_text hu
  cases hA : G.pass^[count] (G.getD k []) with
  | nil =>
    rw [hA] at hpieces
    cases prose <;> cases hpieces
  | cons x A =>
    rw [hA] at hpieces
    obtain ⟨rfl, -⟩ := List.cons.inj hpieces
    have hless := numbers_iterate_pass hG (hG k) count k (by rw [hA]; simp)
    omega

end Table

/-- A marker with the number of a fragment may be worked on as one that stands for it. -/
theorem Construct.Leaves.ready_marker {text : Text} {w : Marked} {G : Table} (h : Leaves text w G)
    (hclear : text.Clear) {k : Nat} (hk : k < G.length) (prose : Bool) :
    G.Ready ([.hit k] ++ (plain (Segment.plus prose) ++ w)) := by
  have hready := h.ready hclear
  have hplus : (Segment.plus prose).Inert := by cases prose <;> decide
  constructor
  · intro n hn
    simp only [numbers_append, numbers_hit, numbers_plain, List.nil_append, List.cons_append,
      List.mem_cons] at hn
    rcases hn with rfl | hn
    · exact hk
    · exact hready.covers n hn
  · have hbehind : (Segment.plus prose ++ G.expand w).Clear :=
      Text.clear_append.mpr ⟨hplus.clear, hready.clear, fun hends => hplus.last hends.1⟩
    simp only [Table.expand_append, Table.expand_hit, Table.expand_nil, Table.expand_plain,
      List.append_nil]
    refine Text.clear_append.mpr ⟨h.clear_value hclear hk, hbehind, fun hends => ?_⟩
    cases prose <;> cases hends.2

namespace Expression

variable {settings : Settings} (hdepth : 0 < settings.depth) {k : Nat} {line : Text}
  (hclear : line.Clear) (hblank : ¬ line.Blank)
include hdepth hclear hblank

/-- A marker with the number of a fragment is replaced. -/
theorem exists_compile_replaced (hpasses : 0 < settings.passes)
    (hk : k < (segmented settings line).2.fragments.length)
    (hsize : line.length ≤ 10 ^ Fault.digitLimit) :
    ∃ latex left, compile settings (Marker.ofNat k ++ " + " ++ line) = .ok (latex, left) ∧
      ¬ Marker.ofNat k <+: latex := by
  obtain ⟨w, G, kept, hsegmented, hleaves⟩ := exists_segmented settings hclear
  have hmarker := (segmented_marker settings hdepth k hclear hblank).1
  rw [hsegmented] at hk hmarker
  rw [Table.texts_length] at hk
  generalize opensWithProse settings line = prose at hmarker
  have hline := hleaves.ready_marker ((Symbol.substituteConstants_spec line).2.1 hclear) hk prose
  have htext : Marker.ofNat k ++ Segment.plus prose ++ w.text =
      text ([.hit k] ++ (plain (Segment.plus prose) ++ w)) := by simp
  obtain ⟨r, hr⟩ := Table.exists_resolveFrom hleaves.backward hline
    ((length_le_of_leaves hleaves).trans hsize) 0 settings.passes.toNat
  refine ⟨Symbol.symbolPass r.latex, r.unresolved, ?_, fun hlead => ?_⟩
  · rw [compile_eq, hmarker, htext, Fragments.resolve, hr]
    rfl
  · -- At least one pass is made, and the first one replaces the marker.
    have hheight : 0 < G.texts.height (text ([.hit k] ++ (plain (Segment.plus prose) ++ w))) := by
      rw [Table.height_text hline, Fragments.greatest_map_pos]
      simp
    obtain ⟨count, hcount⟩ := Nat.exists_eq_add_one.mpr
      (Nat.lt_min.mpr ⟨Int.pos_iff_toNat_pos.mp hpasses, hheight⟩)
    have hbackslash : '\\' ∉ Marker.ofNat k := fun hmem =>
      absurd (Marker.nameChar_of_mem_ofNat hmem) (by decide)
    have hresolved := Symbol.lead_of_symbolPass hbackslash hlead
    rw [Table.resolveFrom_eq hleaves.backward hline hr, hcount] at hresolved
    exact Table.not_marker_iterate_pass hleaves.backward
      (hline.iterate_pass hleaves.backward _).tidy hresolved

/-- A marker with any other number stays, and the line behind it is compiled as it is alone. -/
theorem exists_compile_marker (hk : (segmented settings line).2.fragments.length ≤ k)
    (hdigits : (Text.ofNat k).length ≤ Fault.digitLimit) :
    ∃ latex left, compile settings line = .ok (latex, left) ∧
      (opensWithProse settings line = true → Symbol.proseLead <+: latex) ∧
      compile settings (Marker.ofNat k ++ " + " ++ line) =
        .ok (Marker.ofNat k ++ Segment.plus (opensWithProse settings line) ++ latex, true) := by
  obtain ⟨w, G, kept, hsegmented, hleaves⟩ := exists_segmented settings hclear
  have hready := hleaves.ready ((Symbol.substituteConstants_spec line).2.1 hclear)
  obtain ⟨hmarker, hprose⟩ := segmented_marker settings hdepth k hclear hblank
  rw [hsegmented] at hk hmarker hprose
  have hlimit : G.length ≤ 10 ^ Fault.digitLimit := by
    have hless := (Nat.length_toDigits_le_iff (by decide) (by decide)).mp hdigits
    rw [Table.texts_length] at hk
    omega
  obtain ⟨r, hr⟩ := Table.exists_resolveFrom hleaves.backward hready hlimit 0
    settings.passes.toNat
  obtain ⟨count, hcount⟩ := Fragments.resolveFrom_marker hk hdigits
    (opensWithProse settings line) hr 0
  refine ⟨Symbol.symbolPass r.latex, r.unresolved, ?_, ?_, ?_⟩
  · rw [compile_eq, hsegmented, Fragments.resolve, hr]
    rfl
  · exact fun hopens => Symbol.prose_symbolPass
      (Fragments.prefix_resolveFrom (by decide) (hprose hopens) hr)
  · rw [compile_eq, hmarker, Fragments.resolve, hcount, ← Symbol.symbolPass_marker]
    rfl

omit hdepth hclear hblank

/-- **Markers written by hand.**  A marker in front of a line, with a plus sign between them, is
left where it is when its number is not that of a fragment of the line, and the line behind it is
compiled as it is alone; only where the line opens with prose, the space becomes a control space.
A marker with the number of a fragment is replaced.

A number of more than `Fault.digitLimit` digits is not read at all.  That there are at most
`10 ^ Fault.digitLimit` characters makes sure that the numbers of the fragments are short enough. -/
theorem compile_marker (k : Nat) (line : Text) (hline : ¬ "PH".toList <:+: line)
    (hblank : line.trim ≠ []) (hdigits : (Text.ofNat k).length ≤ Fault.digitLimit) :
    ∃ s T kept, (segment {} line).run {} = (.ok s, ⟨T, kept⟩) ∧
    (T.length ≤ k → ∃ latex left, compile {} line = .ok (latex, left) ∧
      compile {} (Marker.ofNat k ++ " + " ++ line) =
        .ok (Marker.ofNat k ++ (if opensWithProse {} line then " +\\ " else " + ") ++ latex, true) ∧
      (opensWithProse {} line = true → "\\text\x7b".toList <+: latex)) ∧
    (k < T.length → line.length ≤ 10 ^ Fault.digitLimit →
      ∃ latex left, compile {} (Marker.ofNat k ++ " + " ++ line) = .ok (latex, left) ∧
        ¬ Marker.ofNat k <+: latex) := by
  have hclear := Text.clear_iff_not_infix.mpr hline
  have hnot : ¬ line.Blank := by
    intro h
    apply hblank
    rw [Text.trim, Text.trimLeft_eq_nil_iff.mpr h]
    rfl
  have hrun := run_segment {} line
  have hstays : (segmented {} line).2.fragments.length ≤ k → _ := fun hk =>
    exists_compile_marker (by decide) hclear hnot hk hdigits
  have hreplaced : k < (segmented {} line).2.fragments.length →
      line.length ≤ 10 ^ Fault.digitLimit → _ := fun hk hsize =>
    exists_compile_replaced (by decide) hclear hnot (by decide) hk hsize
  generalize segmented {} line = segmentation at hrun hstays hreplaced
  obtain ⟨s, T, kept⟩ := segmentation
  refine ⟨s, T, kept, hrun, fun hk => ?_, hreplaced⟩
  obtain ⟨latex, left, hcompile, hprose, hmarker⟩ := hstays hk
  refine ⟨latex, left, hcompile, ?_, hprose⟩
  rw [hmarker, Segment.plus]
  split <;> rfl

theorem compile_marker_prose :
    (¬ "PH".toList <:+: "let sqrt(x)".toList ∧ Text.trim "let sqrt(x)" ≠ [] ∧
      (Text.ofNat 1).length ≤ Fault.digitLimit ∧
      ((segment {} "let sqrt(x)").run {}).2.fragments.length = 1) ∧
    ∃ latex left, compile {} "let sqrt(x)" = .ok (latex, left) ∧
      compile {} "__PH1__ + let sqrt(x)" = .ok ("__PH1__ +\\ ".toList ++ latex, true) ∧
      "\\text\x7b".toList <+: latex := by
  have hcount : ((segment {} "let sqrt(x)").run {}).2.fragments.length = 1 := by
    rw [run_segment]
    decide +kernel
  have hopens : opensWithProse {} "let sqrt(x)" = true := by decide +kernel
  obtain ⟨s, T, kept, hrun, hmarkers, -⟩ :=
    compile_marker 1 "let sqrt(x)" (by decide) (by decide) (by decide)
  have hlength : T.length = 1 := by
    rw [hrun] at hcount
    exact hcount
  obtain ⟨latex, left, hcompile, hmarker, hprose⟩ := hmarkers hlength.le
  rw [if_pos hopens] at hmarker
  exact ⟨⟨by decide, by decide, by decide, hcount⟩, latex, left, hcompile, hmarker, hprose hopens⟩

/-- A marker is not safe in front of every line: a fragment takes its place, or prose its space. -/
theorem compile_marker_not_kept :
    (¬ "PH".toList <:+: "sqrt(x)".toList ∧ Text.trim "sqrt(x)" ≠ [] ∧
      compile {} (Marker.ofNat 0 ++ " + " ++ "sqrt(x)") =
        .ok ("\\sqrt\x7bx\x7d + \\sqrt\x7bx\x7d".toList, false) ∧
      ¬ Marker.ofNat 0 ++ " + ".toList <+: "\\sqrt\x7bx\x7d + \\sqrt\x7bx\x7d".toList) ∧
    (¬ "PH".toList <:+: "hello".toList ∧ Text.trim "hello" ≠ [] ∧
      compile {} (Marker.ofNat 5 ++ " + " ++ "hello") =
        .ok ("__PH5__ +\\ \\text\x7bhello\x7d".toList, true) ∧
      ¬ Marker.ofNat 5 ++ " + ".toList <+: "__PH5__ +\\ \\text\x7bhello\x7d".toList) := by
  decide +kernel

end Expression

end MathNotes
