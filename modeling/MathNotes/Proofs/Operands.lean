import MathNotes.Construct.Fraction
import MathNotes.Proofs.Scripts

/-!
# Operands and fractions along the catalogue

The operands of a fraction are found by their characters alone, on both sides of the slash.  They
start and end where no marker is cut (`Operand.start?_spec`, `Operand.width?_spec`), so a fraction
is a construct of the catalogue.
-/

namespace MathNotes

open Marked Extract

namespace Operand

/-! ## The operand at the end of a text -/

/-- No name, command or escaped brace goes on from one text into the other. -/
def Edge (a b : Text) : Prop :=
  (∀ c ∈ a.getLast?, Call.barsName c = false) ∨
    (∀ c ∈ b.head?, isNameChar c = false) ∧ (b.head? = some '{' → a.getLast? ≠ some '\\')

theorem Edge.seam {a b : Text} (h : Edge a b) : Seam a b :=
  h.elim (fun h => seam_of_last fun c hc => Call.isNameChar_of_barsName (h c hc))
    fun h => seam_of_head h.1

/-- A text is cut at the start of an operand. -/
def StartsAt (text : Text) (start : Nat) : Prop :=
  ∃ a b : Text, text = a ++ b ∧ a.length = start ∧ b ≠ [] ∧ Edge a b

/-- An atom at the end of a text is not part of a longer name. -/
theorem startsAt_atom {text : Text} {start : Nat} (h : atomStart? text = some start) :
    StartsAt text start := by
  obtain ⟨⟨b, found⟩, hend, rfl⟩ := Option.map_eq_some_iff.mp h
  obtain ⟨newline, htext, -⟩ := dropFinalNewline_append text
  obtain ⟨hdrop, hatom, hlongest⟩ := longestEnd?_eq_some hend
  rw [hdrop, List.append_assoc] at htext
  cases found with
  | nil => cases hatom
  | cons c found =>
    refine ⟨b, c :: found ++ newline, htext, rfl, by simp, ?_⟩
    rw [isAtom] at hatom
    split at hatom
    · rename_i hc
      rw [beq_iff_eq] at hc
      subst hc
      exact .inr (by simp [isNameChar])
    · -- A character of a name or a backslash in front would make the atom longer.
      refine .inl fun d hd => ?_
      obtain ⟨front, rfl⟩ := List.getLast?_eq_some_iff.mp hd
      have hshort := hlongest front (d :: c :: found) (by simp [hdrop]) (by simp)
      rw [Bool.and_eq_true] at hatom
      by_cases hd' : d = '\\'
      · simp [isAtom, hd', hatom.1, hatom.2] at hshort
      · simp only [isAtom, hd', beq_iff_eq, if_false, List.all_cons, hatom.1, hatom.2,
          Bool.and_true]
          at hshort
        simp [Call.barsName, hshort, hd']

/-- A group starts at its bracket, or at the name in front of it. -/
theorem startsAt_group {before content : Text} :
    StartsAt (before ++ '(' :: content) ((identifierStart? before).getD before.length) := by
  cases h : identifierStart? before with
  | none => exact ⟨before, '(' :: content, rfl, rfl, by simp, .inr (by simp [isNameChar])⟩
  | some start =>
    obtain ⟨⟨b, found⟩, hend, rfl⟩ := Option.map_eq_some_iff.mp h
    obtain ⟨newline, htext, -⟩ := dropFinalNewline_append before
    obtain ⟨hdrop, hidentifier, -⟩ := longestEnd?_eq_some hend
    rw [hdrop, List.append_assoc] at htext
    refine ⟨b, found ++ (newline ++ '(' :: content), by rw [htext]; simp, rfl, by simp,
      .inl fun c hc => ?_⟩
    rw [isIdentifier, Bool.and_eq_true, Option.mem_def.mp hc] at hidentifier
    simpa [Call.barsName] using hidentifier.1

theorem startsAt_unscripted {text : Text} {start : Nat} (h : unscriptedStart? text = some start) :
    StartsAt text start := by
  rw [unscriptedStart?] at h
  split at h
  · rename_i hlast
    obtain ⟨⟨before, content⟩, hopening, rfl⟩ := Option.map_eq_some_iff.mp h
    obtain ⟨front, rfl⟩ := List.getLast?_eq_some_iff.mp (beq_iff_eq.mp hlast)
    rw [List.dropLast_concat] at hopening
    rw [Delimiters.round_splitOpening? hopening, List.append_assoc, List.cons_append]
    exact startsAt_group
  · exact startsAt_atom h

/-- Moving to the base of a script keeps to starts. -/
theorem startsAt_baseStart {text : Text} (budget : Nat) {start : Nat} (h : StartsAt text start) :
    StartsAt text (baseStart text budget start) := by
  induction budget generalizing start with
  | zero => exact h
  | succ budget ih =>
    rw [baseStart]
    split
    · rename_i hmark
      split
      · rename_i base hbase
        refine ih ?_
        obtain ⟨a, b, rfl, rfl, hne, -⟩ := h
        rw [List.take_left] at hmark
        obtain ⟨mark, hlast, -⟩ := (Option.any_eq_true _ _).mp hmark
        obtain ⟨front, rfl⟩ := List.getLast?_eq_some_iff.mp hlast
        rw [show (front ++ [mark]).length - 1 = front.length by simp, List.append_assoc,
          List.take_left] at hbase
        obtain ⟨x, y, rfl, hx, hy, hedge⟩ := startsAt_unscripted hbase
        refine ⟨x, y ++ (mark :: b), by simp, hx, by simp, ?_⟩
        rwa [Edge, List.head?_append_of_ne_nil _ hy]
      · exact h
    · exact h

/-- **The operand at the end of a text** starts where no name goes on. -/
theorem start?_spec {text : Text} {start : Nat} (h : start? text = some start) :
    StartsAt text start := by
  obtain ⟨first, hfirst, rfl⟩ := Option.map_eq_some_iff.mp h
  exact startsAt_baseStart _ (startsAt_unscripted hfirst)

/-! ## The operand at the front of a text -/

/-- An operand ends with its bracket or its name, or where a script in brackets starts. -/
def Stop (a b : Text) : Prop :=
  a.getLast? = some ')' ∨
    ((∃ c ∈ a.getLast?, isNameChar c = true) ∧ ∀ c ∈ b.head?, isNameChar c = false) ∨
    ∃ rest, b = '_' :: '(' :: rest

theorem Stop.append {a b : Text} (h : Stop a b) (lead : Text) : Stop (lead ++ a) b := by
  rcases h with h | ⟨⟨c, hc, hname⟩, hb⟩ | h
  · exact .inl (by simp [List.getLast?_append, h])
  · exact .inr (.inl ⟨⟨c, by simp [List.getLast?_append, Option.mem_def.mp hc], hname⟩, hb⟩)
  · exact .inr (.inr h)

/-- A text behind `before` is cut at the end of an operand. -/
def EndsAt (before text : Text) (width : Nat) : Prop :=
  ∃ a b : Text, text = a ++ b ∧ a.length = width ∧ Seam (before ++ a) b ∧ Stop a b

theorem seam_of_suffix {a b c : Text} (h : Seam (a ++ b) c) : Seam b c :=
  fun n p s hps hp hs hpb hsc => h n p s hps hp hs (hpb.trans (List.suffix_append a b)) hsc

/-- The atom at the front of a text ends where its name does. -/
theorem atomWidth_spec (text : Text) :
    ∃ a b : Text, text = a ++ b ∧ a.length = atomWidth text ∧
      (a ≠ [] → (∃ c ∈ a.getLast?, isNameChar c = true) ∧
        ∀ c ∈ b.head?, isNameChar c = false) := by
  have hrun : ∀ lead text : Text, text.takeWhile isNameChar ≠ [] →
      ∃ c ∈ (lead ++ text.takeWhile isNameChar).getLast?, isNameChar c = true := by
    intro lead text hne
    rw [List.getLast?_append_of_ne_nil _ hne, List.getLast?_eq_some_getLast hne]
    exact ⟨_, rfl, List.mem_takeWhile_imp (List.getLast_mem hne)⟩
  rw [atomWidth]
  split
  · rename_i rest hrest
    rw [Text.after?_eq_some_iff] at hrest
    subst hrest
    simp only
    split
    · exact ⟨[], _, rfl, rfl, fun h => absurd rfl h⟩
    · rename_i hne
      rw [List.isEmpty_iff] at hne
      exact ⟨'\\' :: rest.takeWhile isNameChar, rest.dropWhile isNameChar, by simp, rfl,
        fun _ => ⟨hrun ['\\'] rest hne, head?_dropWhile_stops⟩⟩
  · exact ⟨text.takeWhile isNameChar, text.dropWhile isNameChar, by simp, rfl,
      fun hne => ⟨hrun [] text hne, head?_dropWhile_stops⟩⟩

/-- Where no marker is found at the end of a text, there is none. -/
theorem ne_marker_of_atEnd? {text : Text} (h : (Marker.atEnd? text).isNone = true)
    (hlast : text.getLast? = some '_') (lead digits : Text) (hne : digits ≠ [])
    (hdigits : ∀ c ∈ digits, c.isDigit = true) : text ≠ lead ++ Marker.ofDigits digits := by
  rintro rfl
  have hnone := Option.isNone_iff_eq_none.mp h
  rw [Marker.atEnd?, dropFinalNewline_eq_self hlast (by decide)] at hnone
  have hmarker := longestEnd?_eq_none hnone rfl
  rw [Marker.isMarker_iff.mpr ⟨digits, rfl, hne, fun c hc => isDecimal_of_isDigit (hdigits c hc)⟩]
    at hmarker
  cases hmarker

theorem endsAt_unscripted {before text : Text} {width : Nat}
    (h : unscriptedWidth? before text = some width) : EndsAt before text width := by
  rw [unscriptedWidth?] at h
  split at h
  · -- A group in brackets.
    rename_i rest hrest
    rw [Text.after?_eq_some_iff] at hrest
    subst hrest
    obtain ⟨n, hoffset, rfl⟩ := Option.map_eq_some_iff.mp h
    obtain ⟨c, hc, htext⟩ := Delimiters.offset?_spec hoffset
    obtain rfl : ')' = c := by simpa [Delimiters.closes, Delimiters.round] using hc
    refine ⟨'(' :: (rest.take n ++ [')']), rest.drop (n + 1), ?_, ?_, seam_of_last ?_,
      .inl (by simp [List.getLast?_cons])⟩
    · conv => lhs; rw [htext]
      simp
    · have hlength := congrArg List.length htext
      simp only [List.length_append, List.length_cons, List.length_drop, List.length_take]
        at hlength
      simp only [List.length_cons, List.length_append, List.length_take, List.length_nil]
      omega
    · rw [← List.cons_append, ← List.append_assoc, List.getLast?_append]
      simp [isNameChar]
  · obtain ⟨a, b, rfl, ha, hstop⟩ := atomWidth_spec text
    simp only [← ha, List.take_left, List.drop_left] at h
    split at h
    · -- The underscore at the end of the atom is the mark of a script, which is not part of it.
      rename_i hjoins
      obtain ⟨-, hwidth⟩ := Option.ite_none_left_eq_some.mp h
      obtain rfl := Option.some.inj hwidth
      simp only [Bool.and_eq_true, beq_iff_eq] at hjoins
      obtain ⟨⟨hlast, hhead⟩, hnone⟩ := hjoins
      obtain ⟨front, rfl⟩ := List.getLast?_eq_some_iff.mp hlast
      obtain ⟨rest, rfl⟩ := List.head?_eq_some_iff.mp hhead
      refine ⟨front, '_' :: '(' :: rest, by simp, by simp, seam_of_underscore_bracket ?_,
        .inr (.inr ⟨rest, rfl⟩)⟩
      intro lead digits hne hdigits
      rw [List.append_assoc]
      exact ne_marker_of_atEnd? hnone (by simp [← List.append_assoc]) lead digits hne hdigits
    · obtain ⟨hpositive, hwidth⟩ := Option.ite_none_left_eq_some.mp h
      obtain rfl := Option.some.inj hwidth
      have hends := hstop fun hnil => hpositive (by simp [hnil])
      exact ⟨a, b, rfl, rfl, seam_of_head hends.2, .inr (.inl hends)⟩

/-- Widening by scripts keeps to ends. -/
theorem endsAt_scripted {before text : Text} (budget : Nat) {width : Nat}
    (h : EndsAt before text width) :
    EndsAt before text (scriptedWidth before text budget width) := by
  induction budget generalizing width with
  | zero => exact h
  | succ budget ih =>
    rw [scriptedWidth]
    split
    · rename_i mark rest hdrop
      split
      · split
        · rename_i more hmore
          refine ih ?_
          obtain ⟨a, b, rfl, rfl, -⟩ := h
          rw [List.drop_left] at hdrop
          subst hdrop
          rw [List.take_length_add_append] at hmore
          obtain ⟨x, y, rfl, rfl, hseam, hstop⟩ := endsAt_unscripted hmore
          refine ⟨a ++ mark :: x, y, by simp, by simp; omega, by simpa using hseam, ?_⟩
          simpa using hstop.append (a ++ [mark])
        · exact h
      · exact h
    · exact h

/-- **The operand at the front of a text** ends where no marker is cut. -/
theorem width?_spec {before text : Text} {width : Nat} (h : width? before text = some width) :
    EndsAt before text width := by
  obtain ⟨first, hfirst, rfl⟩ := Option.map_eq_some_iff.mp h
  exact endsAt_scripted _ (endsAt_unscripted hfirst)

/-- An operand with or without its brackets. -/
theorem exists_ungrouped (w : Marked) :
    ∃ (o c : Text) (inner : Marked), w = plain o ++ (inner ++ plain c) ∧
      inner.text = ungrouped w.text ∧ ((o, c) = ([], []) ∨ (o, c) = (['('], [')'])) := by
  rw [ungrouped]
  split
  · rename_i content hsplit
    obtain ⟨rest, hopen, hclose⟩ := Option.bind_eq_some_iff.mp hsplit
    have htext := Text.after?_eq_some_iff.mp hopen
    rw [Delimiters.round_splitClosing? hclose] at htext
    obtain ⟨nothing, v, rfl, hnothing, hv⟩ := split_char (a := []) htext rfl
    obtain ⟨inner, nothing', rfl, rfl, hnothing'⟩ := split_char hv rfl
    obtain rfl := eq_nil_of_text hnothing
    obtain rfl := eq_nil_of_text hnothing'
    exact ⟨['('], [')'], inner, by simp, rfl, .inr rfl⟩
  · exact ⟨[], [], w, by simp, rfl, .inl rfl⟩

end Operand

/-! ## Fractions -/

namespace Fraction

/-- A fraction that is found stands around one of the slashes. -/
theorem findFrom?_spec {grouped : Bool} {behind text : Text} {fraction : Fraction}
    (h : findFrom? grouped behind text = some fraction) :
    ∃ before after : Text, behind.reverse ++ text = before ++ '/' :: after ∧
      at? grouped before after = some fraction := by
  induction text generalizing behind with
  | nil => cases h
  | cons c rest ih =>
    have hpass : ∀ h : findFrom? grouped (c :: behind) rest = some fraction,
        ∃ before after : Text, behind.reverse ++ c :: rest = before ++ '/' :: after ∧
          at? grouped before after = some fraction := fun h => by simpa using ih h
    rw [findFrom?] at h
    split at h
    · rename_i hc
      rcases Option.or_eq_some_iff.mp h with hat | ⟨-, hrest⟩
      · exact ⟨behind.reverse, rest, by rw [beq_iff_eq.mp hc], hat⟩
      · exact hpass hrest
    · exact hpass h

/-- The fraction at a slash, as parts of the line. -/
theorem exists_parts {grouped : Bool} {before after : Text} {fraction : Fraction}
    (h : at? grouped before after = some fraction) {w : Marked}
    (hw : w.text = before ++ '/' :: after) :
    ∃ (u n d a : Marked) (o c o' c' blanks blanks' : Text),
      w = u ++ ((plain o ++ (n ++ (plain (c ++ blanks ++ '/' :: blanks' ++ o') ++
        (d ++ plain c')))) ++ a) ∧
      ((o, c) = ([], []) ∨ (o, c) = (['('], [')'])) ∧
      ((o', c') = ([], []) ∨ (o', c') = (['('], [')'])) ∧ blanks.Blank ∧ blanks'.Blank ∧
      fraction = ⟨u.text, n.text, d.text, a.text⟩ := by
  simp only [at?] at h
  split at h
  · rename_i start width hstart hwidth
    obtain ⟨-, hsome⟩ := Option.ite_none_right_eq_some.mp h
    obtain rfl := Option.some.inj hsome
    obtain ⟨blanks, hblanks, hb⟩ := Text.trimRight_append before
    have hblanks' : after = after.takeWhile isBlank ++ Text.trimLeft after :=
      (List.takeWhile_append_dropWhile).symm
    have hb' : ∀ c ∈ after.takeWhile isBlank, isBlank c = true := fun c hc =>
      List.mem_takeWhile_imp hc
    obtain ⟨l, n, hl, rfl, -, hedge⟩ := Operand.start?_spec hstart
    obtain ⟨d, r, hr, rfl, hseam, -⟩ := Operand.width?_spec hwidth
    simp only [hl, hr, List.take_left, List.drop_left]
    obtain ⟨left, right, rfl, hleft, hright⟩ := split_char hw rfl
    -- The left side is cut before the operand and before the blanks, the right side behind them.
    obtain ⟨left, b, rfl, hleft, hbtext⟩ := split (hleft.trans hblanks) (seam_of_blanks_right hb)
    obtain ⟨u, n, rfl, rfl, rfl⟩ := split (hleft.trans hl) hedge.seam
    obtain ⟨b', right, rfl, hbtext', hright⟩ :=
      split (hright.trans hblanks') (seam_of_blanks_left hb')
    obtain ⟨d, a, rfl, rfl, rfl⟩ := split (hright.trans hr) (Operand.seam_of_suffix hseam)
    obtain ⟨o, c, inner, hn, hinner, hgroup⟩ := Operand.exists_ungrouped n
    obtain ⟨o', c', inner', hd, hinner', hgroup'⟩ := Operand.exists_ungrouped d
    refine ⟨u, inner, inner', a, o, c, o', c', blanks, after.takeWhile isBlank, ?_, hgroup, hgroup',
      hb, hb', by rw [hinner, hinner']⟩
    rw [hn, hd, eq_plain_of_blank (w := b) (by rwa [hbtext]), hbtext,
      eq_plain_of_blank (w := b') (by rwa [hbtext']), hbtext']
    simp
  · cases h

/-- **Collecting fractions runs along the catalogue.** -/
theorem runs_collect {treat : Treatment} {Arg : Treating} (hfollows : treat.Follows Arg)
    (hArg : Arg.Carrying) (grouped : Bool) (rounds : Nat) {w : Marked} {G : Table}
    (hready : G.Ready w) : (collect grouped treat rounds w.text).Runs Arg [] w G := by
  induction rounds generalizing w G with
  | zero => exact runs_pure Arg [] w G
  | succ rounds ih =>
    rw [collect]
    split
    · exact runs_pure Arg [] w G
    · rename_i fraction hfind
      obtain ⟨before, after, htext, hat⟩ := findFrom?_spec hfind
      obtain ⟨u, n, d, a, o, c, o', c', blanks, blanks', rfl, hgroup, hgroup', hb, hb', rfl⟩ :=
        exists_parts hat htext
      obtain ⟨t, G₁, hnumerator, hn⟩ := hfollows true hready.right.left.right.left
      have hfilln : (Slot.argument true).Fills Arg n G t G₁ := hn
      obtain ⟨H, rfl, -⟩ := hfilln.carries hArg hready.right.left.right.left.covers
      obtain ⟨s, G₂, hdenominator, hd⟩ :=
        hfollows true (hready.right.left.right.right.right.left.grow H)
      have hfilld : (Slot.argument true).Fills Arg d (G ++ H) s G₂ := hd
      have hrun : Run Arg ([] ++ (u ++ ((plain o ++ (n ++ (plain
          (c ++ blanks ++ '/' :: blanks' ++ o') ++ (d ++ plain c')))) ++ a)), G)
          ([] ++ ((u ++ [.hit G₂.length]) ++ a),
            G₂ ++ [plain "\\frac\x7b".toList ++
              (t ++ (plain "\x7d\x7b".toList ++ (s ++ plain ['}'])))]) :=
        .store (.fraction hgroup hgroup' hb hb') (weaves_two hfilln hfilld)
      obtain ⟨w', G', hrest, hrun'⟩ := ih (hrun.ready hArg hready)
      refine ⟨w', G', hnumerator.bind (hdenominator.bind ?_), hrun.trans hrun'⟩
      rw [show Latex.command "frac" [t.text, s.text] = text (plain "\\frac\x7b".toList ++
        (t ++ (plain "\x7d\x7b".toList ++ (s ++ plain ['}']))))
        by simp [Latex.command, Latex.braced]]
      refine (gives_store _ G₂).bind ?_
      simpa using hrest

end Fraction

theorem sound_fractions : Step.Sound Construct.fractions := by
  intro treat Arg hfollows hArg rounds w G hready
  obtain ⟨w₁, G₁, hgives, hrun⟩ := Fraction.runs_collect hfollows hArg true rounds hready
  exact (Fraction.runs_collect hfollows hArg false rounds (hrun.ready hArg hready)).bind hgives hrun

end MathNotes
