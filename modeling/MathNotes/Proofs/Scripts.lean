import MathNotes.Construct.Script
import MathNotes.Proofs.Calls

/-!
# Scripts along the catalogue

Subscripts and exponents, in brackets or bare, are constructs of the catalogue.  An exponent may
stand on a marker, on a group or on a single character; that no marker is cut open on the way is
where it matters that the line is tidy.
-/

namespace MathNotes

open Marked Extract

namespace Script

/-! ## Subscripts -/

theorem recognises_subscriptHead : subscriptHead.Recognises fun _ matched letter _ =>
    matched = [letter, '_', '('] ∧ letter.isAlpha = true := by
  intro previous text hit h
  cases text with
  | nil => cases h
  | cons letter rest =>
    simp only [subscriptHead, Option.bind_eq_bind, Option.bind_eq_some_iff, Option.guard_eq_some',
      Option.pure_def, Option.some.injEq, Text.after?_eq_some_iff] at h
    obtain ⟨-, halpha, rest, rfl, rest, rfl, rfl⟩ := h
    exact ⟨[letter, '_', '('], rest, rfl, Hit.width_leaving rfl, by simp, rfl, halpha⟩

theorem seamed_subscriptHead : Seamed subscriptHead := by
  intro previous before matched after letter hat
  obtain ⟨rfl, halpha⟩ := recognises_subscriptHead.spec hat
  exact ⟨seam_of_letter_underscore halpha, seam_of_last (by simp [isNameChar])⟩

/-- A base with its mark and a script in brackets. -/
theorem weaves_script {Arg : Treating} (mark : Char) (a : Marked) {b t : Marked} {G G' : Table}
    (h : Arg false b G t G') :
    Shape.Weaves Arg ⟨([], []), [(.verbatim, [mark, '('], [mark, '{']),
      (.argument false, [')'], ['}'])]⟩
      (a ++ (plain [mark, '('] ++ (b ++ plain [')']))) G
      (a ++ (plain [mark, '{'] ++ (t ++ plain ['}']))) G' := by
  have hbase : Slot.verbatim.Fills Arg a G a G := ⟨rfl, rfl⟩
  have hscript : (Slot.argument false).Fills Arg b G t G' := h
  exact weaves_two hbase hscript

theorem builds_subscript {treat : Treatment} {Arg : Treating} (hfollows : treat.Follows Arg) :
    Call.Builds subscriptHead (fun letter argument => do
      return some (Latex.withSubscript [letter] (← treat false argument))) Arg := by
  intro previous m arg after letter G hat hready
  obtain ⟨hm, -⟩ := recognises_subscriptHead.spec hat
  obtain ⟨t, G', hgives, harg⟩ := hfollows false hready
  have hcount : m.text.count '_' < 4 := by
    rw [hm]
    exact List.count_le_length.trans_lt (by decide : 3 < 4)
  rw [eq_plain_of_count hcount, hm]
  exact .inr ⟨plain [letter] ++ (plain ['_', '{'] ++ (t ++ plain ['}'])), G', _,
    hgives.bind (gives_pure_eq (by simp [Latex.withSubscript, Latex.braced]) _),
    .script (.inl rfl), weaves_script '_' (plain [letter]) harg⟩

/-- A bare script is put aside with its base. -/
theorem stores_inBraces {Arg : Treating} {pattern : Pattern (Char × Text)} {mark : Char}
    (hmark : mark = '_' ∨ mark = '^')
    (h : ∀ ⦃previous : Option Char⦄ ⦃m : Marked⦄ ⦃value : Char × Text⦄ ⦃after : Text⦄,
      pattern.HitsAt previous m.text value after →
        ∃ b s : Marked, m = b ++ (plain [mark] ++ s) ∧ b.text = [value.1] ∧ s.text = value.2) :
    Stores pattern (fun script => Extract.store (inBraces mark script)) Arg := by
  intro previous m after value G hat hready
  obtain ⟨b, s, rfl, hb, hs⟩ := h hat
  have hbase : Slot.verbatim.Fills Arg b G b G := ⟨rfl, rfl⟩
  have hscript : Slot.verbatim.Fills Arg s G s G := ⟨rfl, rfl⟩
  refine ⟨b ++ (plain [mark, '{'] ++ (s ++ plain ['}'])), G, _, ?_, fun _ => .bareScript hmark, ?_⟩
  · show (Extract.store (inBraces mark value)).Gives _ _ _
    rw [show inBraces mark value = text (b ++ (plain [mark, '{'] ++ (s ++ plain ['}']))) by
      simp [inBraces, Latex.braced, hb, hs]]
    exact gives_store _ G
  · have hweaves : Shape.Weaves Arg ⟨([], []), [(.verbatim, [mark], [mark, '{']),
      (.verbatim, [], ['}'])]⟩ (plain [] ++ (b ++ (plain [mark] ++ (s ++ plain [])))) G _ G :=
      weaves_two hbase hscript
    simpa using hweaves

theorem cut_subscript {previous : Option Char} {m : Marked} {value : Char × Text} {after : Text}
    (hat : (bare Char.isAlpha '_').HitsAt previous m.text value after) :
    ∃ b s : Marked, m = b ++ (plain ['_'] ++ s) ∧ b.text = [value.1] ∧ s.text = value.2 := by
  exact ⟨plain [value.1], plain value.2, by rw [eq_plain_bare hat]; rfl, text_plain _, text_plain _⟩

end Script

theorem sound_subscripts : Step.Sound Construct.subscripts := by
  intro treat Arg hfollows hArg rounds w G hready
  have hready' : G.Ready ([] ++ w) := hready
  obtain ⟨w', G', hgives, hrun⟩ := Call.runs_collect hArg
    Script.recognises_subscriptHead.proper Script.seamed_subscriptHead.cuts
    (Script.builds_subscript hfollows) rounds hready'
  refine Runs.bind ?_ hgives hrun
  exact runs_replaceM hArg (Script.recognises_bare _ _).proper
    (Script.seamed_bare Bound.joins_letter).cuts
    (Script.stores_inBraces (.inl rfl) fun _ _ _ _ => Script.cut_subscript)
    (hrun.ready hArg hready)

/-! ## Exponents in brackets -/

namespace Marker

theorem isMarker_iff {text : Text} : isMarker text = true ↔
    ∃ digits, text = ofDigits digits ∧ digits ≠ [] ∧ ∀ c ∈ digits, isDecimal c = true := by
  rw [isMarker]
  constructor
  · intro h
    split at h
    · rename_i digits hread
      obtain ⟨htext, hne, hall⟩ := read?_eq_some_iff.mp hread
      exact ⟨digits, by rw [htext, List.append_nil], hne, hall⟩
    · cases h
  · rintro ⟨digits, rfl, hne, hall⟩
    rw [read?_eq_some_iff.mpr ⟨(List.append_nil _).symm, hne, hall⟩]

/-- **A marker at the end of a tidy sequence** is its last item, up to a line feed. -/
theorem atEnd?_spec {w : Marked} (h : w.Tidy) {lead marker : Text}
    (hend : atEnd? w.text = some (lead, marker)) :
    ∃ (u : Marked) (n : Nat) (newline : Text), w = u ++ ([.hit n] ++ plain newline) ∧
      u.text = lead ∧ marker = Marker.ofNat n ∧ (newline = [] ∨ newline = ['\n']) := by
  obtain ⟨newline, hw, hnewline⟩ := dropFinalNewline_append w.text
  obtain ⟨hdrop, hmarker, -⟩ := longestEnd?_eq_some hend
  obtain ⟨digits, rfl, hne, hall⟩ := isMarker_iff.mp hmarker
  rw [hdrop, List.append_assoc] at hw
  obtain ⟨u, n, v, rfl, hu, hv, rfl⟩ := marker_in_text h hw hne hall
  have hplain : v = plain newline := by
    rw [← hv]
    refine eq_plain_of_count ?_
    rw [hv]
    rcases hnewline with rfl | rfl <;> decide
  exact ⟨u, n, newline, by rw [hplain]; rfl, hu, rfl, hnewline⟩

end Marker

namespace Script

/-- What stands on an exponent in brackets, and what is written for it. -/
structure Carried (Arg : Treating) (w : Marked) (start : Nat) (base : Text) (u b l : Marked) :
    Prop where
  cut : w = u ++ b
  start : u.text = w.text.take start
  latex : l.text = base
  weaves : ∀ {arg t : Marked} {G G' : Table}, Arg false arg G t G' → ∃ shape : Shape,
    (∀ before, Listed before shape) ∧
    shape.Weaves Arg (b ++ (plain ['^', '('] ++ (arg ++ plain [')']))) G
      (l ++ (plain ['^', '{'] ++ (t ++ plain ['}']))) G'

/-- A base that is taken as it stands. -/
theorem carried_verbatim {Arg : Treating} {u b : Marked} :
    Carried Arg (u ++ b) u.text.length b.text u b b where
  cut := rfl
  start := by rw [text_append, List.take_left]
  latex := rfl
  weaves h := ⟨_, fun _ => .script (.inr rfl), weaves_script '^' b h⟩

/-- A marker in front of an exponent is put into braces. -/
theorem carried_marker {Arg : Treating} {u : Marked} {n : Nat} {newline : Text}
    (hnewline : newline = [] ∨ newline = ['\n']) :
    Carried Arg (u ++ ([.hit n] ++ plain newline)) u.text.length (Latex.braced (Marker.ofNat n)) u
      ([.hit n] ++ plain newline) (plain ['{'] ++ ([.hit n] ++ plain ['}'])) where
  cut := rfl
  start := by rw [text_append, List.take_left]
  latex := by simp [Latex.braced]
  weaves {arg t G G'} h := by
    have hbase : Slot.verbatim.Fills Arg [.hit n] G [.hit n] G := ⟨rfl, rfl⟩
    have hscript : (Slot.argument false).Fills Arg arg G t G' := h
    have hweaves : Shape.Weaves Arg ⟨([], ['{']), [(.verbatim, newline ++ ['^', '('],
      "\x7d^\x7b".toList), (.argument false, [')'], ['}'])]⟩ _ G _ G' := weaves_two hbase hscript
    exact ⟨_, fun _ => .power hnewline, by simpa using hweaves⟩

/-- In front of the last character there is a seam, unless it is an underscore. -/
theorem seam_of_end {a : Text} {c : Char} (hc : c ≠ '_') : Seam a [c] := by
  intro n p s hps _ hs _ hsc
  obtain rfl : s = [c] := by
    rcases List.prefix_cons_iff.mp hsc with rfl | ⟨t, rfl, ht⟩
    · exact absurd rfl hs
    · rw [List.prefix_nil.mp ht]
  have hlast := congrArg List.getLast? hps
  rw [List.getLast?_concat, Marker.ofNat_eq] at hlast
  simp [List.getLast?_cons] at hlast
  exact hc hlast

/-- **The base of an exponent.** -/
theorem exists_carried (Arg : Treating) {w : Marked} (h : w.Tidy) {start : Nat} {base : Text}
    (hbase : exponentBase? w.text = some (start, base)) :
    ∃ u b l : Marked, Carried Arg w start base u b l := by
  rw [exponentBase?] at hbase
  split at hbase
  · rename_i lead marker hend
    cases hbase
    obtain ⟨u, n, newline, rfl, rfl, rfl, hnewline⟩ := Marker.atEnd?_spec h hend
    exact ⟨u, _, _, carried_marker hnewline⟩
  · split at hbase
    · cases hbase
    · rename_i last hlast
      obtain ⟨front, hfront⟩ := List.getLast?_eq_some_iff.mp hlast
      split at hbase
      · rename_i hclose
        obtain ⟨⟨lead, content⟩, hopening, heq⟩ := Option.map_eq_some_iff.mp hbase
        cases heq
        have htext : w.text = lead ++ ('(' :: content ++ [last]) := by
          rw [hfront] at hopening ⊢
          rw [List.dropLast_concat] at hopening
          rw [Delimiters.round_splitOpening? hopening, List.append_assoc]
        obtain ⟨u, b, rfl, rfl, hb⟩ := split htext (seam_of_head (by simp [isNameChar]))
        rw [text_append, List.drop_left]
        exact ⟨u, b, b, carried_verbatim⟩
      · split at hbase
        · rename_i hletter
          cases hbase
          have hne : last ≠ '_' := by
            rintro rfl
            exact absurd hletter (by decide +kernel)
          obtain ⟨u, b, rfl, rfl, hb⟩ := split hfront (seam_of_end hne)
          have hlength : (text (u ++ b)).length - 1 = u.text.length := by
            rw [text_append, hb]
            simp
          rw [hlength, ← hb]
          exact ⟨u, b, b, carried_verbatim⟩
        · cases hbase

/-- **Collecting exponents runs along the catalogue.** -/
theorem runs_collectExponents {treat : Treatment} {Arg : Treating} (hfollows : treat.Follows Arg)
    (hArg : Arg.Carrying) (rounds : Nat) {before w : Marked} {G : Table}
    (hready : G.Ready (before ++ w)) :
    (collectExponents treat rounds before.text w.text).Runs Arg [] (before ++ w) G := by
  induction rounds generalizing before w G with
  | zero => exact ⟨before ++ w, G, gives_pure_eq (by simp) _, .refl⟩
  | succ rounds ih =>
    rw [collectExponents]
    split
    · exact ⟨before ++ w, G, gives_pure_eq (by simp) _, .refl⟩
    · rename_i skipped after hbreak
      have htext : w.text = skipped ++ '^' :: ('(' :: after) := Text.breakOn?_spec hbreak
      obtain ⟨u, rest, rfl, rfl, hrest⟩ := split_char htext rfl
      obtain ⟨nothing, v, rfl, hnothing, rfl⟩ := split_char (a := []) hrest rfl
      obtain rfl := eq_nil_of_text hnothing
      have hfront : before.text ++ u.text = text (before ++ u) := (text_append _ _).symm
      simp only [hfront]
      split
      · rename_i argument after start base hclosing hbase
        obtain ⟨arg, aft, rfl, rfl, rfl⟩ := split_char (Delimiters.round_splitClosing? hclosing) rfl
        have hline : before ++ (u ++ (plain ['^'] ++ ([] ++ (plain ['('] ++
            (arg ++ (plain [')'] ++ aft)))))) =
            (before ++ u) ++ (plain ['^', '('] ++ (arg ++ (plain [')'] ++ aft))) := by simp
        rw [hline] at hready ⊢
        obtain ⟨u', b, l, hcarried⟩ := exists_carried Arg hready.left.tidy hbase
        obtain ⟨t, G', hgives, harg⟩ := hfollows false hready.right.right.left
        obtain ⟨shape, hlisted, hweaves⟩ := hcarried.weaves harg
        have hrun : Run Arg
            ([] ++ (u' ++ ((b ++ (plain ['^', '('] ++ (arg ++ plain [')']))) ++ aft)), G)
            ([] ++ ((u' ++ [.hit G'.length]) ++ aft),
              G' ++ [l ++ (plain ['^', '{'] ++ (t ++ plain ['}']))]) := .store (hlisted _) hweaves
        have hready' := hrun.ready hArg (by simpa [hcarried.cut] using hready)
        rw [List.nil_append, List.append_assoc] at hready'
        obtain ⟨w', G'', hrest, hrun'⟩ := ih hready'
        refine ⟨w', G'', hgives.bind ?_, ?_⟩
        · rw [show Latex.withExponent base t.text =
            text (l ++ (plain ['^', '{'] ++ (t ++ plain ['}']))) by
              simp [Latex.withExponent, Latex.braced, hcarried.latex]]
          refine (gives_store _ G').bind ?_
          rw [← hcarried.start]
          simpa using hrest
        · rw [hcarried.cut]
          simpa using hrun.trans (by simpa using hrun')
      · -- Nothing is put aside here: what stands behind the bracket is looked at.
        have hpass : G.Ready ((before ++ (u ++ plain ['^', '('])) ++ v) := by simpa using hready
        simpa using ih hpass

/-! ## Bare exponents -/

/-- A run of letters and digits that goes as far as it can. -/
structure IsRun (run after : Text) : Prop where
  ne_nil : run ≠ []
  all : ∀ c ∈ run, c.isAlphanum = true
  stops : ∀ c ∈ after.head?, c.isAlphanum = false

theorem bareRun?_spec {text run after : Text} (h : bareRun? text = some (run, after)) :
    text = run ++ after ∧ IsRun run after := by
  simp only [bareRun?, Option.bind_eq_bind, Option.bind_eq_some_iff, Option.guard_eq_some',
    Option.pure_def, Option.some.injEq, Prod.mk.injEq, drop_takeWhile] at h
  obtain ⟨-, hne, rfl, rfl⟩ := h
  rw [Bool.not_eq_true', List.isEmpty_eq_false_iff] at hne
  exact ⟨List.takeWhile_append_dropWhile.symm, hne, fun c hc => List.mem_takeWhile_imp hc,
    head?_dropWhile_stops⟩

theorem bracedRun?_spec {text run after : Text} (h : bracedRun? text = some (run, after)) :
    text = '{' :: (run ++ '}' :: after) := by
  simp only [bracedRun?, Option.bind_eq_bind, Option.bind_eq_some_iff, Option.guard_eq_some',
    Option.pure_def, Option.some.injEq, Prod.mk.injEq, drop_takeWhile, Text.after?_eq_some_iff] at h
  obtain ⟨rest, rfl, -, -, after', hafter, rfl, rfl⟩ := h
  have hsplit := List.takeWhile_append_dropWhile (p := fun c => c != '{' && c != '}') (l := rest)
  rw [hafter] at hsplit
  rw [hsplit]

/-- The digits of a marker. -/
structure IsDigits (digits : Text) : Prop where
  ne_nil : digits ≠ []
  all : ∀ c ∈ digits, isDecimal c = true

theorem markerRun?_spec {text marker after : Text} (h : markerRun? text = some (marker, after)) :
    ∃ digits, text = marker ++ after ∧ marker = Marker.ofDigits digits ∧ IsDigits digits := by
  obtain ⟨⟨digits, rest⟩, hread, heq⟩ := Option.map_eq_some_iff.mp h
  cases heq
  obtain ⟨htext, hne, hall⟩ := Marker.read?_eq_some_iff.mp hread
  exact ⟨digits, htext, rfl, hne, hall⟩

theorem recognises_bareExponent : bareExponent.Recognises fun _ matched value after =>
    matched = value.1 :: '^' :: value.2 ∧ isExponentBase value.1 = true ∧
      ((∃ digits, value.2 = Marker.ofDigits digits ∧ IsDigits digits) ∨ IsRun value.2 after) := by
  intro previous text hit h
  cases text with
  | nil => cases h
  | cons base rest =>
    simp only [bareExponent, Option.bind_eq_bind, Option.bind_eq_some_iff, Option.guard_eq_some',
      Option.pure_def, Option.some.injEq, Text.after?_eq_some_iff, Prod.exists] at h
    obtain ⟨-, hbase, rest, rfl, exponent, after, hfound, rfl⟩ := h
    have hspec : rest = exponent ++ after ∧
        ((∃ digits, exponent = Marker.ofDigits digits ∧ IsDigits digits) ∨
          IsRun exponent after) := by
      rw [Option.or_eq_some_iff] at hfound
      rcases hfound with hmarker | ⟨-, hrun⟩
      · obtain ⟨digits, htext, hmarker, hdigits⟩ := markerRun?_spec hmarker
        exact ⟨htext, .inl ⟨digits, hmarker, hdigits⟩⟩
      · exact ⟨(bareRun?_spec hrun).1, .inr (bareRun?_spec hrun).2⟩
    obtain ⟨rfl, hkind⟩ := hspec
    exact ⟨base :: '^' :: exponent, after, rfl, Hit.width_leaving rfl, by simp, rfl, hbase, hkind⟩

/-- A bare exponent is cut out, also when it is a marker. -/
theorem cuts_bareExponent : Cuts bareExponent := by
  intro previous before matched after value w htidy hat hw
  obtain ⟨rfl, hbase, hkind⟩ := recognises_bareExponent.spec hat
  have hne : value.1 ≠ '_' := by
    rintro h
    rw [h] at hbase
    cases hbase
  obtain ⟨u, v, rfl, hu, hv⟩ := split hw (seam_of_second hne rfl)
  refine ⟨u, ?_⟩
  rcases hkind with ⟨digits, hdigits, hne, hall⟩ | hrun
  · have hv' : v.text = [value.1, '^'] ++ (Marker.ofDigits digits ++ after) := by
      rw [hv, hdigits]
      rfl
    obtain ⟨x, n, a, rfl, hx, ha, rfl⟩ :=
      marker_in_text (htidy.within (List.suffix_append u v).isInfix) hv' hne hall
    refine ⟨x ++ [.hit n], a, by simp, hu, ?_, ha⟩
    rw [text_append, hx, hdigits]
    simp [Marker.ofNat]
  · obtain ⟨m, a, rfl, hm, ha⟩ := split hv
      (seam_of_run (a := [value.1]) hrun.ne_nil hrun.all rfl (.inl (by decide)) hrun.stops)
    exact ⟨m, a, rfl, hu, hm, ha⟩

theorem cut_bareExponent {previous : Option Char} {m : Marked} {value : Char × Text} {after : Text}
    (hat : bareExponent.HitsAt previous m.text value after) :
    ∃ b s : Marked, m = b ++ (plain ['^'] ++ s) ∧ b.text = [value.1] ∧ s.text = value.2 :=
  split_char (a := [value.1]) (recognises_bareExponent.spec hat).1 rfl

/-! ## Exponents on markers -/

theorem recognises_markerExponent : markerExponent.Recognises fun _ matched value after =>
    ∃ digits, value.1 = Marker.ofDigits digits ∧ IsDigits digits ∧
      (matched = value.1 ++ '^' :: '{' :: (value.2 ++ ['}']) ∨
        matched = value.1 ++ '^' :: value.2 ∧ IsRun value.2 after) := by
  intro previous text hit h
  simp only [markerExponent, Option.bind_eq_bind, Option.bind_eq_some_iff, Option.pure_def,
    Option.some.injEq, Text.after?_eq_some_iff, Prod.exists] at h
  obtain ⟨marker, rest, hmarker, rest, rfl, exponent, after, hfound, rfl⟩ := h
  obtain ⟨digits, rfl, rfl, hdigits⟩ := markerRun?_spec hmarker
  rw [Option.or_eq_some_iff] at hfound
  rcases hfound with hbraced | ⟨-, hfound⟩
  · have htext : Marker.ofDigits digits ++ '^' :: rest =
        (Marker.ofDigits digits ++ '^' :: '{' :: (exponent ++ ['}'])) ++ after := by
      rw [bracedRun?_spec hbraced]
      simp
    exact ⟨_, after, htext, Hit.width_leaving htext, by simp, digits, rfl, hdigits, .inl rfl⟩
  · obtain ⟨rfl, hrun⟩ := bareRun?_spec hfound
    have htext : Marker.ofDigits digits ++ '^' :: (exponent ++ after) =
        (Marker.ofDigits digits ++ '^' :: exponent) ++ after := by simp
    exact ⟨_, after, htext, Hit.width_leaving htext, by simp, digits, rfl, hdigits,
      .inr ⟨rfl, hrun⟩⟩

/-- A marker with its exponent is cut out of a tidy sequence. -/
theorem cut_markerExponent {previous : Option Char} {before matched after : Text}
    {value : Text × Text} {w : Marked} (htidy : w.Tidy)
    (hat : markerExponent.HitsAt previous matched value after)
    (hw : w.text = before ++ (matched ++ after)) :
    ∃ (u : Marked) (n : Nat) (o c : Text) (e a : Marked),
      w = u ++ (([.hit n] ++ (plain ('^' :: o) ++ (e ++ plain c))) ++ a) ∧ u.text = before ∧
      value = (Marker.ofNat n, e.text) ∧ a.text = after ∧
      ((o, c) = ([], []) ∨ (o, c) = (['{'], ['}'])) := by
  obtain ⟨marker, exponent⟩ := value
  obtain ⟨digits, rfl, hdigits, rfl | ⟨rfl, hrun⟩⟩ := recognises_markerExponent.spec hat
  · have hw' : w.text = before ++
        (Marker.ofDigits digits ++ '^' :: '{' :: (exponent ++ '}' :: after)) := by simp [hw]
    obtain ⟨u, n, v, rfl, hu, hv, rfl⟩ := marker_in_text htidy hw' hdigits.ne_nil hdigits.all
    obtain ⟨nothing, v, rfl, hnothing, hv⟩ := split_char (a := []) hv rfl
    obtain ⟨nothing', v, rfl, hnothing', hv⟩ := split_char (a := []) hv rfl
    obtain ⟨e, a, rfl, rfl, ha⟩ := split_char hv rfl
    obtain rfl := eq_nil_of_text hnothing
    obtain rfl := eq_nil_of_text hnothing'
    exact ⟨u, n, ['{'], ['}'], e, a, by simp, hu, rfl, ha, .inr rfl⟩
  · have hw' : w.text = before ++ (Marker.ofDigits digits ++ '^' :: (exponent ++ after)) := by
      simp [hw]
    obtain ⟨u, n, v, rfl, hu, hv, rfl⟩ := marker_in_text htidy hw' hdigits.ne_nil hdigits.all
    have hseam : Seam ('^' :: exponent) after :=
      seam_of_run (a := []) hrun.ne_nil hrun.all rfl (.inl (by decide)) hrun.stops
    obtain ⟨m, a, rfl, hm, ha⟩ := split (a := '^' :: exponent) hv hseam
    obtain ⟨nothing, e, rfl, hnothing, rfl⟩ := split_char (a := []) hm rfl
    obtain rfl := eq_nil_of_text hnothing
    exact ⟨u, n, [], [], e, a, by simp, hu, rfl, ha, .inl rfl⟩

theorem runs_collectMarkerExponents {Arg : Treating} (hArg : Arg.Carrying) (rounds : Nat)
    {w : Marked} {G : Table} (hready : G.Ready w) :
    (collectMarkerExponents rounds w.text).Runs Arg [] w G := by
  induction rounds generalizing w G with
  | zero => exact runs_pure Arg [] w G
  | succ rounds ih =>
    rw [collectMarkerExponents]
    split
    · exact runs_pure Arg [] w G
    · rename_i cut hcut
      obtain ⟨htext, hat⟩ := Pattern.find?_spec recognises_markerExponent.proper hcut
      obtain ⟨u, n, o, c, e, a, rfl, hu, hvalue, ha, hgroup⟩ :=
        cut_markerExponent hready.tidy hat htext
      have hbase : Slot.verbatim.Fills Arg [.hit n] G [.hit n] G := ⟨rfl, rfl⟩
      have hscript : Slot.verbatim.Fills Arg e G e G := ⟨rfl, rfl⟩
      have hweaves : Shape.Weaves Arg ⟨([], ['{']), [(.verbatim, '^' :: o, "\x7d^\x7b".toList),
          (.verbatim, c, ['}'])]⟩ ([.hit n] ++ (plain ('^' :: o) ++ (e ++ plain c))) G
          (plain ['{'] ++ ([.hit n] ++ (plain "\x7d^\x7b".toList ++ (e ++ plain ['}'])))) G :=
        weaves_two hbase hscript
      have hrun : Run Arg
          ([] ++ (u ++ (([.hit n] ++ (plain ('^' :: o) ++ (e ++ plain c))) ++ a)), G)
          ([] ++ ((u ++ [.hit G.length]) ++ a), G ++ [_]) := .store (.barePower hgroup) hweaves
      obtain ⟨w', G', hrest, hrun'⟩ := ih (hrun.ready hArg hready)
      refine ⟨w', G', ?_, hrun.trans hrun'⟩
      rw [hvalue]
      simp only
      rw [show Latex.withExponent (Latex.braced (Marker.ofNat n)) e.text =
        text (plain ['{'] ++ ([.hit n] ++ (plain "\x7d^\x7b".toList ++ (e ++ plain ['}'])))) by
          simp [Latex.withExponent, Latex.braced]]
      refine (gives_store _ G).bind ?_
      rw [← hu, ← ha]
      simpa using hrest

end Script

theorem sound_exponents : Step.Sound Construct.exponents := by
  intro treat Arg hfollows hArg rounds w G hready
  have hready' : G.Ready ([] ++ w) := hready
  obtain ⟨w₁, G₁, hgives₁, hrun₁⟩ := Script.runs_collectExponents hfollows hArg rounds hready'
  have hready₁ := hrun₁.ready hArg hready
  obtain ⟨w₂, G₂, hgives₂, hrun₂⟩ := runs_replaceM hArg
    Script.recognises_bareExponent.proper Script.cuts_bareExponent
    (Script.stores_inBraces (.inr rfl) fun _ _ _ _ => Script.cut_bareExponent) hready₁
  refine Runs.bind (Runs.bind ?_ hgives₂ hrun₂) hgives₁ hrun₁
  exact Script.runs_collectMarkerExponents hArg rounds (hrun₂.ready hArg hready₁)

end MathNotes
