import MathNotes.Construct.Bound
import MathNotes.Proofs.Recast
import MathNotes.Symbol.Substitution

/-!
# Replacing words

Words and scripts are replaced by LaTeX wherever a pattern finds them.  What is written in their
place must fit between its neighbours: `Echoes` adds to `Recasts` what is needed for that, so that
it holds of a whole line when it holds of its parts (`Echoes.append`).  `exists_replace` carries a
relation of that kind from the hits of a pattern to the line, provided that hits have seams at both
ends.

Set words, constants and bounds are replaced in this way.
-/

namespace MathNotes

namespace Marked

/-- `t` says the same as `u`, and may stand in its place between any neighbours. -/
structure Echoes (u t : Marked) : Prop extends Recasts u t where
  head : ∀ value : Nat → Text, (t.fill value).head? = some 'H' → (u.fill value).head? = some 'H'
  last : ∀ value : Nat → Text,
    (t.fill value).getLast? = some 'P' → (u.fill value).getLast? = some 'P'
  nil : ∀ value : Nat → Text, t.fill value = [] → u.fill value = []

theorem Echoes.refl (u : Marked) : Echoes u u :=
  ⟨.refl u, fun _ h => h, fun _ h => h, fun _ h => h⟩

theorem Echoes.trans {u v w : Marked} (h₁ : Echoes u v) (h₂ : Echoes v w) : Echoes u w :=
  ⟨h₁.toRecasts.trans h₂.toRecasts, fun value h => h₁.head value (h₂.head value h),
    fun value h => h₁.last value (h₂.last value h), fun value h => h₁.nil value (h₂.nil value h)⟩

theorem Echoes.append {u t u' t' : Marked} (h : Echoes u t) (h' : Echoes u' t') :
    Echoes (u ++ u') (t ++ t') where
  trace := by rw [trace_append, trace_append, h.trace, h'.trace]
  clear value hc := by
    rw [fill_append, Text.clear_append] at hc ⊢
    exact ⟨h.clear value hc.1, h'.clear value hc.2.1,
      fun ⟨hl, hh⟩ => hc.2.2 ⟨h.last value hl, h'.head value hh⟩⟩
  head value hh := by
    rw [fill_append, List.head?_append, Option.or_eq_some_iff, List.head?_eq_none_iff] at hh ⊢
    exact hh.imp (h.head value) fun ⟨hn, hh⟩ => ⟨h.nil value hn, h'.head value hh⟩
  last value hl := by
    rw [fill_append, List.getLast?_append, Option.or_eq_some_iff, List.getLast?_eq_none_iff] at hl ⊢
    exact hl.imp (h'.last value) fun ⟨hn, hl⟩ => ⟨h'.nil value hn, h.last value hl⟩
  nil value hn := by
    rw [fill_append, List.append_eq_nil_iff] at hn ⊢
    exact ⟨h.nil value hn.1, h'.nil value hn.2⟩

/-- An item-by-item rewriting echoes a sequence if it echoes each item. -/
theorem echoes_flatMap {f : Piece Nat → Marked} (h : ∀ x, Echoes [x] (f x)) (u : Marked) :
    Echoes u (u.flatMap f) := by
  induction u with
  | nil => exact .refl []
  | cons x u ih =>
    rw [List.flatMap_cons]
    exact (h x).append ih

/-- A text that starts with no `H` and ends with no `P` may stand for any text of its content. -/
theorem echoes_plain {s t : Text} (hcontent : t.content = s.content) (hclear : t.Clear)
    (hhead : t.head? ≠ some 'H') (hlast : t.getLast? ≠ some 'P') (hne : t ≠ []) :
    Echoes (plain s) (plain t) where
  trace := by rw [trace_plain, trace_plain, hcontent]
  clear value _ := by
    rw [fill_plain]
    exact hclear
  head value h := by
    rw [fill_plain] at h
    exact absurd h hhead
  last value h := by
    rw [fill_plain] at h
    exact absurd h hlast
  nil value h := by
    rw [fill_plain] at h
    exact absurd h hne

theorem echoes_of_inert {s t : Text} (hs : s.content = []) (ht : t.Inert) (hne : t ≠ []) :
    Echoes (plain s) (plain t) :=
  echoes_plain (by rw [hs, ht.content]) ht.clear ht.head ht.last hne

/-- An inert text may be added anywhere. -/
theorem echoes_added {t : Text} (ht : t.Inert) : Echoes [] (plain t) := by
  cases t with
  | nil => exact .refl []
  | cons c t => exact echoes_of_inert (s := []) rfl ht (List.cons_ne_nil c t)

/-! ## Plain parts -/

/-- A marker is written with four underscores. -/
theorem eq_plain_of_count {w : Marked} (h : w.text.count '_' < 4) : w = plain w.text := by
  induction w with
  | nil => rfl
  | cons x w ih =>
    cases x with
    | char c =>
      rw [text_char, List.count_cons] at h
      rw [text_char, plain_cons, ← ih (by omega)]
    | hit n =>
      rw [text_hit, Marker.ofNat_eq] at h
      simp only [List.cons_append, List.count_cons, List.append_assoc, List.count_append,
        List.count_nil, beq_self_eq_true, if_true] at h
      omega

theorem eq_nil_of_text {w : Marked} (h : w.text = []) : w = [] := by
  rw [eq_plain_of_count (w := w) (by simp [h]), h]
  rfl

/-- A text is cut at a character of no name. -/
theorem split_char {w : Marked} {a b : Text} {c : Char} (h : w.text = a ++ c :: b)
    (hc : isNameChar c = false) :
    ∃ u v : Marked, w = u ++ (plain [c] ++ v) ∧ u.text = a ∧ v.text = b := by
  obtain ⟨u, rest, rfl, hu, hrest⟩ := split h (seam_of_head (by simp [hc]))
  obtain ⟨x, v, rfl, hx, hv⟩ := split (a := [c]) hrest (seam_of_last (by simp [hc]))
  have hcount : x.text.count '_' < 4 := by
    rw [hx]
    exact List.count_le_length.trans_lt (by decide : 1 < 4)
  exact ⟨u, v, by rw [eq_plain_of_count hcount, hx], hu, hv⟩

/-! ## Patterns on sequences -/

section Replace

variable {α : Type} {pattern : Pattern α} {R : Marked → Marked → Prop} {f : α → Text}

/-- Hits of the pattern start and end where no marker is cut. -/
def Seamed (pattern : Pattern α) : Prop :=
  ∀ ⦃previous : Option Char⦄ ⦃before matched after : Text⦄ ⦃value : α⦄,
    pattern.HitsAt (before.getLast?.or previous) matched value after →
      Seam before (matched ++ after) ∧ Seam matched after

/-- A relation that holds of a whole when it holds of the parts. -/
structure Compositional (R : Marked → Marked → Prop) : Prop where
  refl : ∀ u, R u u
  append : ∀ {u t u' t'}, R u t → R u' t' → R (u ++ u') (t ++ t')

/-- **Replacing the hits of a pattern keeps a relation** that holds between each hit and what is
written for it. -/
theorem exists_replace (hR : Compositional R) (hp : pattern.Proper) (hseam : Seamed pattern)
    (hhit : ∀ {previous value after} {u : Marked},
      pattern.HitsAt previous u.text value after → ∃ t : Marked, t.text = f value ∧ R u t)
    (w : Marked) : ∃ t : Marked, t.text = pattern.replace f w.text ∧ R w t := by
  have key : ∀ {previous text pieces}, pattern.Reading previous text pieces →
      ∀ w : Marked, w.text = text →
        ∃ t : Marked, t.text = pieces.flatMap (Piece.write f) ∧ R w t := by
    intro previous text pieces h
    induction h with
    | rest _ =>
      rintro w rfl
      exact ⟨w, (Piece.flatMap_write_chars f w.text).symm, hR.refl w⟩
    | hit hat _ ih =>
      intro w hw
      obtain ⟨hstart, hstop⟩ := hseam hat
      obtain ⟨u, v, rfl, rfl, hv⟩ := split hw hstart
      obtain ⟨m, r, rfl, rfl, hr⟩ := split hv hstop
      obtain ⟨t, ht, hmt⟩ := hhit hat
      obtain ⟨s, hs, hrs⟩ := ih r hr
      refine ⟨u ++ (t ++ s), ?_, hR.append (hR.refl u) (hR.append hmt hrs)⟩
      rw [List.flatMap_append, Piece.flatMap_write_chars, List.flatMap_cons, Piece.write,
        text_append, text_append, ht, hs]
  exact key (Pattern.reading_pieces hp w.text) w rfl

theorem compositional_echoes : Compositional Echoes := ⟨.refl, .append⟩

/-- What is written has no more openers than a measure of the source allows. -/
theorem compositional_bounded {μ : Marked → Nat} (hadd : ∀ u v, μ (u ++ v) = μ u + μ v)
    (hle : ∀ u, weight u ≤ μ u) : Compositional fun u t => Echoes u t ∧ t.weight ≤ μ u where
  refl u := ⟨.refl u, hle u⟩
  append h h' := by
    refine ⟨h.1.append h'.1, ?_⟩
    rw [weight_append, hadd]
    exact Nat.add_le_add h.2 h'.2

end Replace

/-! ## Words -/

/-- What a table of words must be like for its words to be replaced between markers. -/
def Replaceable (μ : Marked → Nat) (words : List (Text × Text)) : Prop :=
  ∀ p ∈ words, p.1 ≠ [] ∧ Text.content p.1 = [] ∧ '_' ∉ p.1 ∧ p.2.Inert ∧ p.2 ≠ [] ∧
    weight (plain p.2) ≤ μ (plain p.1)

instance (μ : Marked → Nat) (words : List (Text × Text)) : Decidable (Replaceable μ words) :=
  inferInstanceAs (Decidable (∀ p ∈ words, _))

/-- **Words are replaced between the markers.** -/
theorem exists_replaceWords {μ : Marked → Nat} (hadd : ∀ u v, μ (u ++ v) = μ u + μ v)
    (hle : ∀ u, weight u ≤ μ u) {bars follows : Char → Bool} {words : List (Text × Text)}
    (hwords : Replaceable μ words) (hseam : Seamed (wordPattern bars follows words)) (w : Marked) :
    ∃ t : Marked, t.text = (wordPattern bars follows words).replace id w.text ∧ Echoes w t ∧
      t.weight ≤ μ w := by
  have hrec : (wordPattern bars follows words).Recognises _ :=
    Pattern.recognises_wordPattern fun p hp => (hwords p hp).1
  refine exists_replace (compositional_bounded hadd hle) hrec.proper hseam ?_ w
  intro previous value after u hat
  obtain ⟨-, hcontent, hunder, hinert, hne, hweight⟩ := hwords _ (hrec.spec hat).1
  have hplain : u = plain u.text := eq_plain_of_not_name fun c hc he => hunder (he ▸ hc)
  refine ⟨plain value, text_plain _, ?_, by rw [hplain]; exact hweight⟩
  rw [hplain]
  exact echoes_of_inert hcontent hinert hne

/-- A word between characters of no name has seams at both ends. -/
theorem seamed_words {bars follows : Char → Bool} {words : List (Text × Text)}
    (hwords : ∀ p ∈ words, p.1 ≠ []) (hbars : ∀ c, bars c = false → isNameChar c = false)
    (hfollows : ∀ c, follows c = false → isNameChar c = false) :
    Seamed (wordPattern bars follows words) := by
  intro previous before matched after value hat
  obtain ⟨-, hb, hf⟩ := (Pattern.recognises_wordPattern hwords).spec hat
  refine ⟨seam_of_last fun c hc => hbars c (hb c ?_), seam_of_head fun c hc => hfollows c (hf c hc)⟩
  rw [Option.mem_def.mp hc]
  rfl

end Marked

/-! ## Set words and constants -/

namespace Symbol

open Marked

/-- **Set words are replaced between the markers**, and nothing new opens a construct. -/
theorem exists_substituteSetWords (w : Marked) :
    ∃ t : Marked, t.text = substituteSetWords w.text ∧ w.Recasts t ∧ t.weight ≤ w.weight := by
  have hwords : Replaceable weight setWords := by decide
  have hseam : Seamed setWordPattern := seamed_words (fun p hp => (hwords p hp).1)
    (fun c hc => (Bool.or_eq_false_iff.mp hc).1) fun c hc => hc
  obtain ⟨t, ht, hecho, hweight⟩ :=
    exists_replaceWords weight_append (fun _ => Nat.le_refl _) hwords hseam w
  exact ⟨t, ht, hecho.toRecasts, hweight⟩

/-- **Constants are replaced** in a line, which then has no more openers than it had characters. -/
theorem substituteConstants_spec (line : Text) :
    (substituteConstants line).content = line.content ∧
      (line.Clear → (substituteConstants line).Clear) ∧
      weight (plain (substituteConstants line)) ≤ line.length := by
  have hwords : Replaceable List.length constants := by decide
  have hseam : Seamed constantPattern := seamed_words (fun p hp => (hwords p hp).1)
    (fun c hc => (Bool.or_eq_false_iff.mp hc).1) fun c hc => hc
  obtain ⟨t, ht, hecho, hweight⟩ :=
    exists_replaceWords (fun _ _ => List.length_append) (fun _ => List.countP_le_length) hwords
      hseam
      (plain line)
  have hplain : t = plain (substituteConstants line) := by
    rw [eq_plain_of_numbers (w := t) (by rw [hecho.numbers, numbers_plain]), ht, text_plain]
    rfl
  subst hplain
  have hcontent := hecho.content Marker.ofNat
  have hclear := hecho.clear Marker.ofNat
  simp only [fill_plain] at hcontent hclear
  exact ⟨hcontent, hclear, by simpa [plain] using hweight⟩

end Symbol

/-! ## Scripts -/

namespace Script

open Marked

/-- A mark with the bases that it may join a script to: no marker reaches over the start of such a
script. -/
def Joins (isBase : Char → Bool) (mark : Char) : Prop :=
  ∀ c, isBase c = true → c ≠ '_' ∧ (mark = '_' ∧ c.isAlpha = true ∨ mark = '^')

theorem Joins.seam {isBase : Char → Bool} {mark base : Char} (h : Joins isBase mark)
    (hbase : isBase base = true) (a b : Text) : Seam a (base :: mark :: b) := by
  obtain ⟨hne, ⟨rfl, halpha⟩ | rfl⟩ := h base hbase
  · exact seam_of_letter_underscore halpha
  · exact seam_of_second hne rfl

/-- Behind a bare script no marker is cut. -/
theorem Joins.seam_run {isBase : Char → Bool} {mark base : Char} (h : Joins isBase mark)
    (hbase : isBase base = true) {run b : Text} (hrun : run ≠ [])
    (hall : ∀ c ∈ run, c.isAlphanum = true) (hb : ∀ c ∈ b.head?, c.isAlphanum = false) :
    Seam (base :: mark :: run) b := by
  obtain ⟨hne, hmark⟩ := h base hbase
  have hx : mark.isAlphanum = false := by
    rcases hmark with ⟨rfl, -⟩ | rfl <;> rfl
  exact seam_of_run (a := [base]) hrun hall hx (.inr (by simpa using hne)) hb

theorem recognises_grouped (isBase : Char → Bool) (mark : Char) :
    (grouped isBase mark).Recognises fun _ matched value _ =>
      matched = value.1 :: mark :: '(' :: (value.2 ++ [')']) ∧ isBase value.1 = true ∧
        ∀ c ∈ value.2, c ≠ '(' ∧ c ≠ ')' := by
  intro previous text hit h
  cases text with
  | nil => cases h
  | cons base rest =>
    simp only [grouped, Option.bind_eq_bind, Option.bind_eq_some_iff, Option.guard_eq_some',
      Option.pure_def, Option.some.injEq, Text.after?_eq_some_iff] at h
    obtain ⟨-, hbase, rest, rfl, rest, rfl, after, hafter, rfl⟩ := h
    have hsplit := List.takeWhile_append_dropWhile (p := fun c => c != '(' && c != ')') (l := rest)
    rw [drop_takeWhile] at hafter
    rw [hafter] at hsplit
    have htext : base :: mark :: '(' :: rest =
        base :: mark :: '(' :: (rest.takeWhile (fun c => c != '(' && c != ')') ++ [')']) ++
          after := by
      simp [hsplit]
    refine ⟨_, after, htext, Hit.width_leaving htext, by simp, rfl, hbase, fun c hc => ?_⟩
    simpa using List.mem_takeWhile_imp hc

theorem recognises_bare (isBase : Char → Bool) (mark : Char) :
    (bare isBase mark).Recognises fun _ matched value after =>
      matched = value.1 :: mark :: value.2 ∧ isBase value.1 = true ∧ value.2 ≠ [] ∧
        (∀ c ∈ value.2, c.isAlphanum = true) ∧ ∀ c ∈ after.head?, c.isAlphanum = false := by
  intro previous text hit h
  cases text with
  | nil => cases h
  | cons base rest =>
    simp only [bare, Option.bind_eq_bind, Option.bind_eq_some_iff, Option.guard_eq_some',
      Option.pure_def, Option.some.injEq, Text.after?_eq_some_iff, drop_takeWhile] at h
    obtain ⟨-, hbase, rest, rfl, -, hne, rfl⟩ := h
    have hsplit := List.takeWhile_append_dropWhile (p := Char.isAlphanum) (l := rest)
    have htext : base :: mark :: rest =
        base :: mark :: rest.takeWhile Char.isAlphanum ++ rest.dropWhile Char.isAlphanum := by
      simp [hsplit]
    rw [Bool.not_eq_true', List.isEmpty_eq_false_iff] at hne
    exact ⟨_, _, htext, Hit.width_leaving htext, by simp, rfl, hbase, hne,
      fun c hc => List.mem_takeWhile_imp hc, head?_dropWhile_stops⟩

theorem exists_inBraces_grouped {isBase : Char → Bool} {mark : Char} (h : Joins isBase mark)
    (w : Marked) :
    ∃ t : Marked, t.text = (grouped isBase mark).replace (inBraces mark) w.text ∧ Echoes w t := by
  have hrec := recognises_grouped isBase mark
  have hseam : Seamed (grouped isBase mark) := by
    intro previous before matched after value hat
    obtain ⟨rfl, hbase, -⟩ := hrec.spec hat
    refine ⟨h.seam hbase _ _, seam_of_last ?_⟩
    simp [List.getLast?_cons, isNameChar]
  refine exists_replace compositional_echoes hrec.proper hseam ?_ w
  intro previous value after u hat
  obtain ⟨hu, hbase, -⟩ := hrec.spec hat
  have hopen : u.text = [value.1, mark, '('] ++ (value.2 ++ [')']) := hu
  obtain ⟨front, rest, rfl, hfront, hrest⟩ := split hopen (seam_of_last (by simp [isNameChar]))
  obtain ⟨script, close, rfl, hscript, hclose⟩ := split hrest (seam_of_head (by simp [isNameChar]))
  have hcount : front.text.count '_' < 4 := by
    rw [hfront]
    exact List.count_le_length.trans_lt (Nat.lt_succ_self 3)
  refine ⟨plain [value.1, mark] ++ (plain ['{'] ++ (script ++ plain ['}'])), ?_, ?_⟩
  · simp [inBraces, Latex.braced, hscript]
  · rw [eq_plain_of_count hcount, hfront, eq_plain_of_count (w := close) (by rw [hclose]; decide),
      hclose, show [value.1, mark, '('] = [value.1, mark] ++ ['('] from rfl, plain_append,
      List.append_assoc]
    exact (Echoes.refl _).append ((echoes_of_inert (by decide) (by decide) (by decide)).append
      ((Echoes.refl _).append (echoes_of_inert (by decide) (by decide) (by decide))))

theorem seamed_bare {isBase : Char → Bool} {mark : Char} (h : Joins isBase mark) :
    Seamed (bare isBase mark) := by
  intro previous before matched after value hat
  obtain ⟨rfl, hbase, hne, hall, hafter⟩ := (recognises_bare isBase mark).spec hat
  exact ⟨h.seam hbase _ _, h.seam_run hbase hne hall hafter⟩

/-- A bare script holds no marker: there is one underscore at most. -/
theorem eq_plain_bare {isBase : Char → Bool} {mark : Char} {previous : Option Char} {u : Marked}
    {value : Char × Text} {after : Text}
    (hat : (bare isBase mark).HitsAt previous u.text value after) :
    u = plain (value.1 :: mark :: value.2) := by
  obtain ⟨hu, -, -, hall, -⟩ := (recognises_bare isBase mark).spec hat
  rw [← hu]
  refine eq_plain_of_count ?_
  have hrun : value.2.count '_' = 0 := List.count_eq_zero.mpr fun hm => by
    cases hall '_' hm
  rw [hu, List.count_cons, List.count_cons, hrun]
  split <;> split <;> omega

theorem exists_inBraces_bare {isBase : Char → Bool} {mark : Char} (h : Joins isBase mark)
    (w : Marked) :
    ∃ t : Marked, t.text = (bare isBase mark).replace (inBraces mark) w.text ∧ Echoes w t := by
  refine exists_replace compositional_echoes (recognises_bare isBase mark).proper (seamed_bare h)
    ?_ w
  intro previous value after u hat
  refine ⟨plain [value.1, mark] ++ (plain ['{'] ++ (plain value.2 ++ plain ['}'])), ?_, ?_⟩
  · simp [inBraces, Latex.braced]
  · rw [eq_plain_bare hat,
      show value.1 :: mark :: value.2 = [value.1, mark] ++ ([] ++ (value.2 ++ [])) by simp]
    simp only [plain_append]
    exact (Echoes.refl _).append ((echoes_added (by decide)).append
      ((Echoes.refl _).append (echoes_added (by decide))))

end Script

/-! ## Bounds -/

namespace Bound

open Marked Script

theorem exists_replaceAll (needle replacement : Text)
    (hword : Replaceable List.length [(needle, replacement)])
    (hname : ∀ c ∈ needle, isNameChar c = false) (w : Marked) :
    ∃ t : Marked, t.text = replaceAll needle replacement w.text ∧ Echoes w t := by
  have hne := (hword _ List.mem_cons_self).1
  have hseam : Seamed (wordPattern (fun _ => false) (fun _ => false) [(needle, replacement)]) := by
    intro previous before matched after value hat
    have hmem := ((Pattern.recognises_wordPattern fun p hp => (hword p hp).1).spec hat).1
    obtain ⟨rfl, -⟩ := Prod.mk.inj (List.mem_singleton.mp hmem)
    refine ⟨seam_of_head fun c hc => hname c ?_, seam_of_last fun c hc =>
      hname c (List.mem_of_getLast? hc)⟩
    rw [List.head?_append_of_ne_nil _ hne] at hc
    exact List.mem_of_head? hc
  obtain ⟨t, ht, hecho, -⟩ := exists_replaceWords (fun _ _ => List.length_append)
    (fun _ => List.countP_le_length) hword hseam w
  exact ⟨t, ht, hecho⟩

theorem joins_letter : Joins Char.isAlpha '_' := by
  intro c hc
  refine ⟨?_, .inl ⟨rfl, hc⟩⟩
  rintro rfl
  cases hc

theorem joins_exponentBase : Joins isExponentBase '^' := by
  intro c hc
  refine ⟨?_, .inr rfl⟩
  rintro rfl
  cases hc

/-- **A bound is normalised between the markers.** -/
theorem exists_normalize (w : Marked) :
    ∃ t : Marked, t.text = normalize w.text ∧ w.Recasts t := by
  obtain ⟨w₁, h₁⟩ := exists_trims w
  obtain ⟨w₂, h₂, e₂⟩ := exists_inBraces_grouped joins_letter w₁
  obtain ⟨w₃, h₃, e₃⟩ := exists_inBraces_bare joins_letter w₂
  obtain ⟨w₄, h₄, e₄⟩ := exists_inBraces_grouped joins_exponentBase w₃
  obtain ⟨w₅, h₅, e₅⟩ := exists_inBraces_bare joins_exponentBase w₄
  obtain ⟨w₆, h₆, e₆⟩ := exists_replaceAll "+-" "\\pm" (by decide) (by decide) w₅
  obtain ⟨w₇, h₇, e₇⟩ := exists_replaceAll "-+" "\\mp" (by decide) (by decide) w₆
  refine ⟨w₇, ?_, h₁.recasts.trans ((e₂.trans (e₃.trans (e₄.trans
    (e₅.trans (e₆.trans e₇))))).toRecasts)⟩
  rw [normalize, ← h₁.1, ← h₂, ← h₃, ← h₄, ← h₅, ← h₆, ← h₇]

end Bound

end MathNotes
