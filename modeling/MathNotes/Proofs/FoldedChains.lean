import MathNotes.Proofs.IdleSteps
import MathNotes.Proofs.Nesting

/-!
# Chains that fold to the left

Words joined by slashes, and exponents in brackets behind each other, are chains: every round of the
extraction puts the first link of the chain aside, and its marker is the operand of the next link.
So a chain becomes a single marker, and every fragment but the first holds the marker of the one
before it (`Construct.extract_fractionChain`, `Construct.extract_exponentChain`).

What both kinds of chain have in common is said once.  The operands are words and markers, in which
nothing is put aside (`Operand.Simple`), and a loop that puts one link aside a round runs through
the whole chain (`FoldsLeft.run`).
-/

namespace MathNotes

open Extract

/-- A word: one or more letters and digits of ASCII. -/
abbrev Word := { text : Text // text ≠ [] ∧ ∀ c ∈ text, c.isAlphanum = true }

/-! ## Words and markers -/

namespace Operand

/-- A text of name characters in which nothing is put aside. -/
structure Simple (text : Text) : Prop where
  ne_nil : text ≠ []
  name : ∀ c ∈ text, isNameChar c = true
  idle : ∀ step ∈ Construct.steps, step.Idle text

variable {text : Text}

theorem Simple.not_mem (h : Simple text) {c : Char} (hc : isNameChar c = false) : c ∉ text := by
  intro hmem
  rw [h.name c hmem] at hc
  cases hc

theorem isNameChar_of_isAlphanum {c : Char} (h : c.isAlphanum = true) : isNameChar c = true := by
  rw [isNameChar, h, Bool.true_or]

theorem not_mem_word (word : Word) {c : Char} (hc : c.isAlphanum = false) : c ∉ word.val := by
  intro hmem
  rw [word.2.2 c hmem] at hc
  cases hc

theorem simple_word (word : Word) : Simple word.val := by
  have hname : ∀ c ∈ word.val, isNameChar c = true := fun c hc =>
    isNameChar_of_isAlphanum (word.2.2 c hc)
  exact ⟨word.2.1, hname, Construct.idle_of_isNameChar hname fun rounds treat =>
    Construct.needs_subscripts rounds treat word.val (not_mem_word word rfl)⟩

theorem simple_marker (n : Nat) : Simple (Marker.ofNat n) := by
  have hname : ∀ c ∈ Marker.ofNat n, isNameChar c = true := fun c hc =>
    Marker.nameChar_of_mem_ofNat hc
  -- The letters of a marker stand in front of its digits, not of an underscore.
  have hgrouped : Script.subscriptHead.Misses none (Marker.ofNat n) [] :=
    Script.onUnderscore_subscriptHead.misses_leaf (.mark n) ends_nil
  have hbare : (Script.bare Char.isAlpha '_').Misses none (Marker.ofNat n) [] :=
    Script.onUnderscore_bare.misses_leaf (.mark n) ends_nil
  refine ⟨Leaf.text_ne_nil (.mark n), hname, Construct.idle_of_isNameChar hname ?_⟩
  intro rounds treat
  rw [Construct.subscripts, Call.collect_of_find?_none (Pattern.find?_of_misses hgrouped),
    pure_bind, replaceM_of_misses hbare]

/-- An operand that is an argument is only segmented. -/
theorem Simple.treatment (h : Simple text) (rounds depth : Nat) (prose : Bool) :
    Construct.treatment rounds (depth + 1) prose text = pure (segmentLine prose text) := by
  have htrim : text.trim = text := by
    refine Text.trim_eq_self (fun c hc => ?_) fun c hc => ?_
    · exact isBlank_of_isNameChar (h.name c (List.mem_of_mem_head? hc))
    · exact isBlank_of_isNameChar (h.name c (List.mem_of_getLast? hc))
  have htreat : Construct.treatment rounds (depth + 1) prose text = (do
      return segmentLine prose (← Construct.extract rounds (depth + 1) text.trim)) := rfl
  rw [htreat, htrim, Construct.extract_succ, Construct.runSteps, Construct.foldlM_of_idle h.idle,
    pure_bind]

end Operand

/-! ## Loops over chains -/

/-- A computation, once it is known what its first part gives. -/
theorem Extract.bind_of_eq {α β : Type} {m : Extract α} {f : α → Extract β} {a : α}
    {s s' : Extraction} (h : m s = (a, s')) : (m >>= f) s = f a s' := by
  show (do let (a, s) ← m s; f a s) = _
  rw [h]
  rfl

/-- A loop that puts the first link of a chain aside in every round: the link is written behind a
marker, and its fragment is made of that marker and of the word of the link. -/
structure FoldsLeft (loop : (rounds : Nat) → Text → Extract Text) (link : Word → Text)
    (latex : (marker : Text) → Word → Text) : Prop where
  stop (rounds n : Nat) : loop rounds (Marker.ofNat n) = pure (Marker.ofNat n)
  step (rounds n : Nat) (word : Word) (more : List Word) :
    loop (rounds + 1) (Marker.ofNat n ++ (link word ++ more.flatMap link)) = (do
      let marker ← store (latex (Marker.ofNat n) word)
      loop rounds (marker ++ more.flatMap link))

/-- The fragments of links behind the fragment with number `n`: each holds the marker of the one
before it. -/
def linkFragments (latex : (marker : Text) → Word → Text) (n : Nat) (words : List Word) :
    Fragments :=
  (words.zipIdx n).map fun link => latex (Marker.ofNat link.2) link.1

namespace FoldsLeft

variable {loop : (rounds : Nat) → Text → Extract Text} {link : Word → Text}
  {latex : (marker : Text) → Word → Text}

/-- **A chain behind a marker becomes one marker**, if there are as many rounds as links. -/
theorem run (h : FoldsLeft loop link latex) (words : List Word) {rounds n : Nat}
    (hrounds : words.length ≤ rounds) {fragments : Fragments} (hn : fragments.length = n + 1)
    (kept : List Text) :
    loop rounds (Marker.ofNat n ++ words.flatMap link) ⟨fragments, kept⟩ =
      (Marker.ofNat (n + words.length), ⟨fragments ++ linkFragments latex n words, kept⟩) := by
  induction words generalizing rounds n fragments with
  | nil =>
    rw [List.flatMap_nil, List.append_nil, h.stop, linkFragments, List.zipIdx_nil, List.map_nil,
      List.append_nil]
    rfl
  | cons word words ih =>
    rw [List.length_cons] at hrounds
    obtain ⟨rounds, rfl⟩ : ∃ m, rounds = m + 1 := Nat.exists_eq_add_one.mpr (by omega)
    have hstored : (fragments ++ [latex (Marker.ofNat n) word]).length = (n + 1) + 1 := by
      rw [List.length_append, hn, List.length_singleton]
    have hrest := ih (Nat.le_of_succ_le_succ hrounds) hstored
    rw [List.flatMap_cons, h.step]
    show loop rounds (Marker.ofNat fragments.length ++ words.flatMap link) ⟨_, kept⟩ = _
    rw [hn, hrest, linkFragments, linkFragments, List.zipIdx_cons, List.map_cons,
      List.append_assoc, List.singleton_append, List.length_cons, Nat.add_assoc n 1,
      Nat.add_comm 1]

/-- A chain from its first link on. -/
theorem run_first (h : FoldsLeft loop link latex) (words : List Word) {rounds : Nat}
    (hrounds : words.length ≤ rounds) {text first : Text}
    (hfirst : loop (rounds + 1) text = (do
      let marker ← store first
      loop rounds (marker ++ words.flatMap link))) :
    loop (rounds + 1) text {} =
      (Marker.ofNat words.length, { fragments := first :: linkFragments latex 0 words }) := by
  have hlength : [first].length = 0 + 1 := rfl
  rw [hfirst]
  show loop rounds (Marker.ofNat 0 ++ words.flatMap link) ⟨[first], []⟩ = _
  rw [h.run words hrounds hlength, Nat.zero_add]
  rfl

end FoldsLeft

/-! ## Fractions -/

namespace Operand

variable {text rest : Text}

theorem Simple.last (h : Simple text) : ∃ c, text.getLast? = some c ∧ isNameChar c = true :=
  ⟨_, List.getLast?_eq_some_getLast h.ne_nil, h.name _ (List.getLast_mem h.ne_nil)⟩

theorem Simple.trimRight (h : Simple text) : Text.trimRight text = text := by
  obtain ⟨c, hlast, hc⟩ := h.last
  obtain ⟨front, rfl⟩ := List.getLast?_eq_some_iff.mp hlast
  simp [Text.trimRight, isBlank_of_isNameChar hc]

theorem Simple.trimLeft (h : Simple text) (rest : Text) :
    Text.trimLeft (text ++ rest) = text ++ rest := by
  obtain ⟨c, text, rfl⟩ := List.exists_cons_of_ne_nil h.ne_nil
  simp [Text.trimLeft, isBlank_of_isNameChar (h.name c List.mem_cons_self)]

theorem Simple.isAtom (h : Simple text) : isAtom text = true := by
  obtain ⟨c, rest, rfl⟩ := List.exists_cons_of_ne_nil h.ne_nil
  obtain ⟨hc, hrest⟩ := List.forall_mem_cons.mp h.name
  have hcommand : ¬ (c == '\\') = true := by
    rw [beq_iff_eq]
    rintro rfl
    cases hc
  rw [Operand.isAtom, if_neg hcommand, hc, Bool.true_and, List.all_eq_true]
  exact hrest

/-- A simple text is all of the operand at its end. -/
theorem Simple.start? (h : Simple text) : start? text = some 0 := by
  obtain ⟨c, hlast, hc⟩ := h.last
  have hbracket : ¬ (text.getLast? == some ')') = true := by
    rw [hlast, beq_iff_eq, Option.some.injEq]
    rintro rfl
    cases hc
  have hnewline : c ≠ '\n' := by
    rintro rfl
    cases hc
  have hatom : longestEnd? (fun _ => Operand.isAtom) none text = some ([], text) := by
    have haccepts := h.isAtom
    cases text with
    | nil => cases haccepts
    | cons d text => rw [longestEnd?, if_pos haccepts]
  have hstart : unscriptedStart? text = some 0 := by
    rw [unscriptedStart?, if_neg hbracket, atomStart?, dropFinalNewline_eq_self hlast hnewline,
      hatom]
    rfl
  rw [Operand.start?, hstart, Option.map_some]
  cases text <;> rfl

theorem Simple.after?_eq_none (h : Simple text) {c : Char} (hc : isNameChar c = false)
    (rest : Text) : Text.after? c (text ++ rest) = none := by
  obtain ⟨d, text, rfl⟩ := List.exists_cons_of_ne_nil h.ne_nil
  have hne : ¬ (d == c) = true := by
    rw [beq_iff_eq]
    rintro rfl
    exact h.not_mem hc List.mem_cons_self
  rw [List.cons_append, Text.after?, if_neg hne]

theorem Simple.ungrouped (h : Simple text) : ungrouped text = text := by
  have hopening := h.after?_eq_none (c := '(') rfl []
  rw [List.append_nil] at hopening
  rw [Operand.ungrouped, hopening]
  rfl

theorem scriptedWidth_of_slash (hrest : ∀ c ∈ rest.head?, c = '/') (before text : Text)
    (budget : Nat) : scriptedWidth before (text ++ rest) budget text.length = text.length := by
  cases budget with
  | zero => rfl
  | succ budget =>
    rw [scriptedWidth, List.drop_left]
    cases rest with
    | nil => rfl
    | cons c rest =>
      obtain rfl := hrest c rfl
      rfl

/-- A word in front of a slash, or at the end, is all of the operand there. -/
theorem width?_word (word : Word) (hrest : ∀ c ∈ rest.head?, c = '/') (before : Text) :
    width? before (word.val ++ rest) = some word.val.length := by
  have h := simple_word word
  have hatom : atomWidth (word.val ++ rest) = word.val.length := by
    have hstops : ∀ c ∈ rest.head?, isNameChar c = false := fun c hc => hrest c hc ▸ rfl
    rw [atomWidth, h.after?_eq_none rfl]
    exact congrArg List.length (takeWhile_append_stop h.name hstops)
  have hunderscore : (word.val.getLast? == some '_') = false := by
    rw [beq_eq_false_iff_ne]
    exact fun hlast => not_mem_word word rfl (List.mem_of_getLast? hlast)
  have hunscripted : unscriptedWidth? before (word.val ++ rest) = some word.val.length := by
    rw [unscriptedWidth?, h.after?_eq_none rfl]
    simp [hatom, hunderscore, h.ne_nil]
  rw [width?, hunscripted, Option.map_some, scriptedWidth_of_slash hrest]

end Operand

namespace Fraction

variable {base rest : Text}

/-- The fraction at a slash between a simple operand and a word. -/
theorem at?_simple (hbase : Operand.Simple base) (word : Word)
    (hrest : ∀ c ∈ rest.head?, c = '/') :
    at? false base (word.val ++ rest) = some ⟨[], base, word.val, rest⟩ := by
  have hword := Operand.simple_word word
  have hleft : Text.trimRight base = base := hbase.trimRight
  have hright : Text.trimLeft (word.val ++ rest) = word.val ++ rest := hword.trimLeft rest
  rw [at?]
  simp only [hleft, hright, hbase.start?, Operand.width?_word word hrest, Bool.not_false,
    Bool.true_or, if_true, List.take_zero, List.drop_zero, List.take_left, List.drop_left,
    hbase.ungrouped, hword.ungrouped]

theorem find?_simple (hbase : Operand.Simple base) (word : Word)
    (hrest : ∀ c ∈ rest.head?, c = '/') :
    find? false (base ++ '/' :: (word.val ++ rest)) = some ⟨[], base, word.val, rest⟩ := by
  rw [find?, findFrom?_pass (hbase.not_mem rfl), findFrom?, if_pos (beq_self_eq_true _),
    List.append_nil, List.reverse_reverse, at?_simple hbase word hrest, Option.some_or]

/-- Without brackets there is no operand in brackets. -/
theorem at?_grouped {before after : Text} (hbefore : ')' ∉ before) (hafter : '(' ∉ after) :
    at? true before after = none := by
  have hleft : ((Text.trimRight before).getLast? == some ')') = false := by
    rw [beq_eq_false_iff_ne]
    intro hlast
    obtain ⟨blanks, hblanks, -⟩ := Text.trimRight_append before
    rw [hblanks] at hbefore
    exact hbefore (List.mem_append_left _ (List.mem_of_getLast? hlast))
  have hright : ((Text.trimLeft after).head? == some '(') = false := by
    rw [beq_eq_false_iff_ne]
    intro hhead
    exact hafter ((List.dropWhile_sublist _).subset (List.mem_of_mem_head? hhead))
  rw [at?]
  simp only [hleft, hright, Bool.not_true, Bool.or_self, Bool.false_eq_true, if_false]
  split <;> rfl

theorem find?_grouped {text : Text} (hopening : '(' ∉ text) (hclosing : ')' ∉ text) :
    find? true text = none := by
  suffices ∀ behind, ')' ∉ behind → findFrom? true behind text = none from
    this [] List.not_mem_nil
  induction text with
  | nil => exact fun _ _ => rfl
  | cons c text ih =>
    intro behind hbehind
    rw [List.mem_cons, not_or] at hopening hclosing
    have hnext := ih hopening.2 hclosing.2 (c :: behind) (by simp [hclosing.1, hbehind])
    rw [findFrom?, at?_grouped (by simpa using hbehind) hopening.2, hnext]
    split <;> rfl

/-- A link of a chain of fractions is put aside. -/
theorem collect_link (hbase : Operand.Simple base) (word : Word)
    (hrest : ∀ c ∈ rest.head?, c = '/') (limit depth rounds : Nat) :
    collect false (Construct.treatment limit (depth + 1)) (rounds + 1)
        (base ++ '/' :: (word.val ++ rest)) = (do
      let marker ← store
        (Latex.command "frac" [segmentLine true base, segmentLine true word.val])
      collect false (Construct.treatment limit (depth + 1)) rounds (marker ++ rest)) := by
  rw [collect, find?_simple hbase word hrest]
  simp only [List.nil_append]
  rw [hbase.treatment, pure_bind, (Operand.simple_word word).treatment, pure_bind]

/-- What a link of a chain of fractions is written as. -/
def link (word : Word) : Text := '/' :: word.val

/-- The fragment of a link of a chain of fractions. -/
def linkLatex (marker : Text) (word : Word) : Text :=
  Latex.command "frac" [marker, segmentLine true word.val]

/-- A chain of words with slashes between them. -/
def chain (words : List Word) : Text := Text.join ['/'] (words.map Subtype.val)

theorem chain_cons (first : Word) (words : List Word) :
    chain (first :: words) = first.val ++ words.flatMap link := by
  rw [chain, Text.join]
  induction words generalizing first with
  | nil => simp
  | cons second words ih =>
    have hrest := ih second
    rw [List.map_cons] at hrest
    rw [List.map_cons, List.map_cons, List.intercalate_cons_cons, hrest]
    simp [link]

theorem not_mem_chain {words : List Word} {c : Char} (hc : isNameChar c = false)
    (hslash : c ≠ '/') : c ∉ chain words := by
  cases words with
  | nil => exact List.not_mem_nil
  | cons first words =>
    rw [chain_cons, List.mem_append, List.mem_flatMap]
    rintro (hmem | ⟨word, -, hmem⟩)
    · exact (Operand.simple_word first).not_mem hc hmem
    · rcases List.mem_cons.mp hmem with rfl | hmem
      · exact hslash rfl
      · exact (Operand.simple_word word).not_mem hc hmem

theorem head?_links (words : List Word) : ∀ c ∈ (words.flatMap link).head?, c = '/' := by
  cases words with
  | nil => simp
  | cons word words => simp [link]

theorem foldsLeft (limit depth : Nat) :
    FoldsLeft (collect false (Construct.treatment limit (depth + 1))) link linkLatex where
  stop rounds n := collect_of_find?_none
    (find?_of_not_mem ((Operand.simple_marker n).not_mem rfl)) rounds _
  step rounds n word more := by
    have hlink := collect_link (Operand.simple_marker n) word (head?_links more) limit depth rounds
    have hmarker : segmentLine true (Marker.ofNat n) = Marker.ofNat n :=
      Leaf.segmentLine_text (.mark n) true
    rw [hmarker] at hlink
    exact hlink

/-- The fragments of a chain of fractions: the first is made of two words, and every later one has
the marker of the one before it as numerator. -/
def chainFragments (first second : Word) (more : List Word) : Fragments :=
  Latex.command "frac" [segmentLine true first.val, segmentLine true second.val] ::
    linkFragments linkLatex 0 more

theorem collect_chain (first second : Word) (more : List Word) (limit depth : Nat) {rounds : Nat}
    (hrounds : more.length ≤ rounds) :
    collect false (Construct.treatment limit (depth + 1)) (rounds + 1)
        (chain (first :: second :: more)) {} =
      (Marker.ofNat more.length, { fragments := chainFragments first second more }) := by
  refine (foldsLeft limit depth).run_first more hrounds ?_
  rw [chain_cons]
  exact collect_link (Operand.simple_word first) second (head?_links more) limit depth rounds

end Fraction

namespace Construct

/-- Where the steps in front of the fractions find nothing, fractions come first. -/
theorem runSteps_of_fractions {rounds : Nat} {treat : Treatment} {text : Text}
    (hsigns : ∀ c ∈ signs.take 9, c ∉ text) :
    runSteps rounds treat text = (do
      let text ← fractions rounds treat text
      (steps.drop 10).foldlM (fun text (step : Step) => step rounds treat text) text) := by
  have hsteps : steps = steps.dropLast.take 9 ++ fractions :: steps.drop 10 := rfl
  have hidle := idle_of_no_sign (List.forall₂_take 9 needs_signs) hsigns
  rw [runSteps, hsteps, List.foldlM_append, foldlM_of_idle hidle, pure_bind, List.foldlM_cons]
  rfl

/-- **Fractions without brackets associate to the left**: a chain of words becomes the marker of its
last fraction, and nothing else is put aside. -/
theorem extract_fractionChain (first second : Word) (more : List Word) {rounds depth : Nat}
    (hrounds : more.length + 1 ≤ rounds) (hdepth : 2 ≤ depth) :
    (Checked.extract rounds depth (Fraction.chain (first :: second :: more))).run {} =
      (.ok (Marker.ofNat more.length),
        { fragments := Fraction.chainFragments first second more, kept := [] }) := by
  obtain ⟨depth, rfl⟩ : ∃ d, depth = d + 2 := Nat.exists_eq_add_of_le' hdepth
  obtain ⟨rounds, rfl⟩ : ∃ m, rounds = m + 1 := Nat.exists_eq_add_one.mpr (by omega)
  have hsigns : ∀ c ∈ ')' :: signs.take 9, c ∉ Fraction.chain (first :: second :: more) := by
    have key : ∀ c ∈ ')' :: signs.take 9, isNameChar c = false ∧ c ≠ '/' := by decide
    exact fun c hc => Fraction.not_mem_chain (key c hc).1 (key c hc).2
  obtain ⟨hclosing, hsigns⟩ := List.forall_mem_cons.mp hsigns
  have hgrouped : Fraction.find? true (Fraction.chain (first :: second :: more)) = none :=
    Fraction.find?_grouped (hsigns '(' (by decide)) hclosing
  have hcollect := Fraction.collect_chain first second more (rounds + 1) depth
    (Nat.le_of_succ_le_succ hrounds)
  have hidle : ∀ step ∈ steps.drop 10, step.Idle (Marker.ofNat more.length) := fun step hstep =>
    (Operand.simple_marker _).idle step (List.mem_of_mem_drop hstep)
  rw [Checked.run_extract, extract_succ, runSteps_of_fractions hsigns, fractions,
    Fraction.collect_of_find?_none hgrouped, pure_bind, bind_of_eq hcollect, foldlM_of_idle hidle]
  rfl

theorem extract_fractionChain_four :
    (3 ≤ 3 ∧ 2 ≤ 2) ∧
      (Checked.extract 3 2 "a/12/xy/c".toList).run {} =
        (.ok "__PH2__".toList,
          { fragments := ["\\frac\x7ba\x7d\x7b12\x7d".toList,
              "\\frac\x7b__PH0__\x7d\x7b\\text\x7bxy\x7d\x7d".toList,
              "\\frac\x7b__PH1__\x7d\x7bc\x7d".toList]
            kept := [] }) := by
  have hchain := extract_fractionChain ⟨"a".toList, by decide⟩ ⟨"12".toList, by decide⟩
    [⟨"xy".toList, by decide⟩, ⟨"c".toList, by decide⟩] (Nat.le_refl 3) (Nat.le_refl 2)
  exact ⟨by decide, hchain.trans (by rfl)⟩

end Construct

/-! ## Exponents in brackets -/

/-- Every opening bracket stands behind the mark of an exponent. -/
def Text.OpensExponents (text : Text) : Prop :=
  text.IsChain fun c next => next = '(' → c = '^'

namespace Text.OpensExponents

variable {a b text : Text}

theorem of_not_mem (h : '(' ∉ text) : text.OpensExponents := by
  refine List.Pairwise.isChain (List.pairwise_of_forall_mem_list ?_)
  rintro c - d hd rfl
  exact absurd hd h

theorem append (ha : a.OpensExponents) (hb : b.OpensExponents) (hhead : b.head? ≠ some '(') :
    OpensExponents (a ++ b) := by
  refine List.isChain_append.mpr ⟨ha, hb, ?_⟩
  rintro c - d hd rfl
  exact absurd hd hhead

theorem eq_mark {c : Char} (h : OpensExponents (a ++ c :: '(' :: b)) : c = '^' :=
  (List.isChain_cons_cons.mp (List.isChain_append.mp h).2.1).1 rfl

/-- Nothing is found by a pattern for names with brackets behind them. -/
theorem find?_eq_none {α : Type} {pattern : Pattern α} (h : text.OpensExponents)
    (hproper : pattern.Proper)
    (hspec : ∀ ⦃previous matched value after⦄, pattern.HitsAt previous matched value after →
      ∃ name : Text, matched = name ++ ['('] ∧ name ≠ [] ∧ '^' ∉ name) (previous : Option Char) :
    pattern.find? previous text = none := by
  cases hfind : pattern.find? previous text with
  | none => rfl
  | some cut =>
    exfalso
    obtain ⟨htext, hhit⟩ := Pattern.find?_spec hproper hfind
    obtain ⟨name, hmatched, hne, hmark⟩ := hspec hhit
    have hname : name.dropLast ++ [name.getLast hne] = name := List.dropLast_append_getLast hne
    rw [htext, hmatched, ← hname] at h
    have heq : name.getLast hne = '^' := by
      refine eq_mark (a := cut.before ++ name.dropLast) (b := cut.after) ?_
      simpa using h
    exact hmark (heq ▸ List.getLast_mem hne)

end Text.OpensExponents

namespace Construct

theorem idle_callStep {names : List Text} (hnames : ∀ name ∈ names, name ≠ [] ∧ '^' ∉ name)
    (build : Treatment → Text → Text → Extract (Option Text)) {text : Text}
    (h : text.OpensExponents) : (Call.step names build).Idle text := by
  intro rounds treat
  refine Call.collect_of_find?_none (h.find?_eq_none (Call.recognises_head names).proper ?_ none)
    rounds
  intro previous matched name after hat
  obtain ⟨⟨blanks, rfl, hblank⟩, hname, -⟩ := (Call.recognises_head names).spec hat
  obtain ⟨hne, hmark⟩ := hnames name hname
  refine ⟨name ++ blanks, rfl, by simp [hne], ?_⟩
  rw [List.mem_append, not_or]
  exact ⟨hmark, fun hmem => by cases hblank '^' hmem⟩

theorem idle_boundedOperators {text : Text} (h : text.OpensExponents) :
    Step.Idle boundedOperators text := by
  intro rounds treat
  refine Call.collect_of_find?_none (h.find?_eq_none Bound.recognises_head.proper ?_ none) rounds
  intro previous matched operator after hat
  obtain ⟨⟨blanks, mark, blanks', hblank, hblank', hmark, rfl⟩, hmem, -⟩ :=
    Bound.recognises_head.spec hat
  have key : ∀ operator ∈ Bound.operators, operator.1 ≠ [] ∧ '^' ∉ operator.1 := by decide
  obtain ⟨hne, hname⟩ := key operator hmem
  refine ⟨operator.1 ++ (blanks ++ (mark ++ blanks')), by simp, by simp [hne], ?_⟩
  simp only [List.mem_append, not_or]
  refine ⟨hname, fun hmem => ?_, ?_, fun hmem => ?_⟩
  · cases hblank '^' hmem
  · rcases hmark with rfl | rfl <;> decide
  · cases hblank' '^' hmem

/-- Only exponents are found where all brackets are theirs and the other signs are missing. -/
theorem idle_of_opensExponents {text : Text} (h : text.OpensExponents)
    (hsigns : ∀ c ∈ ['<', '{', '|', '/', '_'], c ∉ text) :
    ∀ step ∈ steps.dropLast, step.Idle text := by
  have hcalls {names : List Text} {build : Treatment → Text → Text → Extract (Option Text)}
      (hnames : ∀ name ∈ names, name ≠ [] ∧ '^' ∉ name) : (Call.step names build).Idle text :=
    idle_callStep hnames build h
  have hneeds {step : Step} {sign : Char} (hstep : step.Needs sign)
      (hsign : sign ∈ ['<', '{', '|', '/', '_']) : step.Idle text :=
    fun rounds treat => hstep rounds treat text (hsigns sign hsign)
  have hsteps : steps.dropLast = [factorials, boundedOperators, rootsAndArrows, floorsAndCeilings,
      functions, vectors, binomials, setBuilders, absoluteValues, fractions, subscripts] := rfl
  rw [hsteps]
  simp only [List.forall_mem_cons]
  exact ⟨hcalls (by decide), idle_boundedOperators h, hcalls (by decide), hcalls (by decide),
    hcalls (by decide), hneeds needs_vectors (by decide), hcalls (by decide),
    hneeds needs_setBuilders (by decide), hneeds needs_absoluteValues (by decide),
    hneeds needs_fractions (by decide), hneeds needs_subscripts (by decide), by simp⟩

end Construct

namespace Script

variable {base rest : Text}

theorem breakOn?_mark (hbase : '^' ∉ base) (rest : Text) :
    Text.breakOn? "^(" (base ++ '^' :: '(' :: rest) = some (base, rest) := by
  induction base with
  | nil => rfl
  | cons c base ih =>
    rw [List.mem_cons, not_or] at hbase
    have hmiss : List.isPrefixOf? "^(".toList (c :: (base ++ '^' :: '(' :: rest)) = none := by
      show List.isPrefixOf? ['^', '('] _ = none
      simp [List.isPrefixOf?, hbase.1]
    rw [List.cons_append, Text.breakOn?, hmiss, ih hbase.2]
    rfl

theorem atEnd?_marker (n : Nat) : Marker.atEnd? (Marker.ofNat n) = some ([], Marker.ofNat n) := by
  have hmarker : Marker.isMarker (Marker.ofNat n) = true :=
    Marker.isMarker_iff.mpr ⟨Text.ofNat n, rfl, Marker.textOfNat_ne_nil n, fun c hc =>
      isDecimal_of_isDigit (Marker.digit_of_mem_ofNat hc)⟩
  obtain ⟨c, hlast, hc⟩ := (Operand.simple_marker n).last
  have hnewline : c ≠ '\n' := by
    rintro rfl
    cases hc
  rw [Marker.atEnd?, dropFinalNewline_eq_self hlast hnewline]
  rw [Marker.ofNat_eq] at hmarker ⊢
  rw [longestEnd?, if_pos hmarker]

theorem exponentBase?_marker (n : Nat) :
    exponentBase? (Marker.ofNat n) = some (0, Latex.braced (Marker.ofNat n)) := by
  rw [exponentBase?, atEnd?_marker]
  rfl

/-- What a link of a chain of exponents in brackets is written as. -/
def link (word : Word) : Text := '^' :: '(' :: (word.val ++ [')'])

/-- The fragment of a link of a chain of exponents in brackets. -/
def linkLatex (marker : Text) (word : Word) : Text :=
  Latex.withExponent (Latex.braced marker) (segmentLine false word.val)

/-- A link of a chain of exponents in brackets is put aside with its base. -/
theorem collectExponents_link (hmark : '^' ∉ base) {latex : Text}
    (hbase : exponentBase? base = some (0, latex)) (word : Word) (rest : Text)
    (limit depth rounds : Nat) :
    collectExponents (Construct.treatment limit (depth + 1)) (rounds + 1) []
        (base ++ (link word ++ rest)) = (do
      let marker ← store (Latex.withExponent latex (segmentLine false word.val))
      collectExponents (Construct.treatment limit (depth + 1)) rounds [] (marker ++ rest)) := by
  have hword := Operand.simple_word word
  have htext : base ++ (link word ++ rest) = base ++ '^' :: '(' :: (word.val ++ ')' :: rest) := by
    simp [link]
  have hgroup : Delimiters.round.splitClosing? (word.val ++ ')' :: rest) = some (word.val, rest) :=
    (Balanced.of_forall fun c hc => ⟨hword.name c hc, trivial⟩).splitClosing? rest
  rw [htext, collectExponents, breakOn?_mark hmark]
  simp only [List.nil_append, hgroup, hbase, List.take_zero]
  rw [hword.treatment, pure_bind]

theorem foldsLeft (limit depth : Nat) :
    FoldsLeft (fun rounds => collectExponents (Construct.treatment limit (depth + 1)) rounds [])
      link linkLatex where
  stop _ n := collectExponents_of_not_mem (not_mem_leaf (.mark n))
  step rounds n word more := collectExponents_link (not_mem_leaf (.mark n)) (exponentBase?_marker n)
    word (more.flatMap link) limit depth rounds

/-- A letter with exponents in brackets, each on all that stands before it. -/
def groupedChain (base : Letter) (words : List Word) : Text := base.val :: words.flatMap link

/-- The fragments of a chain of exponents in brackets: the first is on the letter, and every later
one on the marker of the one before it. -/
def groupedFragments (base : Letter) (first : Word) (more : List Word) : Fragments :=
  Latex.withExponent [base.val] (segmentLine false first.val) :: linkFragments linkLatex 0 more

theorem head?_links (words : List Word) : (words.flatMap link).head? ≠ some '(' := by
  cases words <;> simp [link]

theorem opensExponents_links (words : List Word) : Text.OpensExponents (words.flatMap link) := by
  induction words with
  | nil => exact List.isChain_nil
  | cons word words ih =>
    have hword : '(' ∉ word.val ++ [')'] := by
      simpa using Operand.not_mem_word word (c := '(') rfl
    have hlink : Text.OpensExponents (link word) :=
      .append (a := ['^', '(']) (by simp [Text.OpensExponents]) (.of_not_mem hword) fun hhead =>
        hword (List.mem_of_mem_head? hhead)
    rw [List.flatMap_cons]
    exact hlink.append ih (head?_links words)

theorem opensExponents_groupedChain (base : Letter) (words : List Word) :
    (groupedChain base words).OpensExponents := by
  have hbase : '(' ∉ [base.val] := by simpa using (base.ne_of_not_isAlpha rfl).symm
  exact Text.OpensExponents.append (.of_not_mem hbase) (opensExponents_links words)
    (head?_links words)

theorem not_mem_groupedChain {base : Letter} {words : List Word} {c : Char}
    (hc : c.isAlphanum = false) (hsign : c ∉ ['^', '(', ')']) : c ∉ groupedChain base words := by
  simp only [List.mem_cons, List.not_mem_nil, or_false, not_or] at hsign
  obtain ⟨hmark, hopening, hclosing⟩ := hsign
  have hlink (word : Word) : c ∉ link word := by
    simp [link, hmark, hopening, hclosing, Operand.not_mem_word word hc]
  have hbase : c ≠ base.val := by
    rintro rfl
    rw [Char.isAlphanum, base.2] at hc
    cases hc
  rw [groupedChain, List.mem_cons, List.mem_flatMap]
  rintro (rfl | ⟨word, -, hmem⟩)
  · exact hbase rfl
  · exact hlink word hmem

theorem collectExponents_groupedChain (base : Letter) (first : Word) (more : List Word)
    (limit depth : Nat) {rounds : Nat} (hrounds : more.length ≤ rounds) :
    collectExponents (Construct.treatment limit (depth + 1)) (rounds + 1) []
        (groupedChain base (first :: more)) {} =
      (Marker.ofNat more.length, { fragments := groupedFragments base first more }) := by
  have hmark : '^' ∉ [base.val] := by simpa using (base.ne_of_not_isAlpha rfl).symm
  exact (foldsLeft limit depth).run_first more hrounds
    (collectExponents_link hmark (exponentBase?_letter base) first _ limit depth rounds)

end Script

namespace Construct

/-- **Exponents in brackets fold to the left**: a letter with a chain of them becomes the marker of
the last one, and nothing else is put aside. -/
theorem extract_exponentChain (base : Letter) (first : Word) (more : List Word) {rounds depth : Nat}
    (hrounds : more.length + 1 ≤ rounds) (hdepth : 2 ≤ depth) :
    (Checked.extract rounds depth (Script.groupedChain base (first :: more))).run {} =
      (.ok (Marker.ofNat more.length),
        { fragments := Script.groupedFragments base first more, kept := [] }) := by
  obtain ⟨depth, rfl⟩ : ∃ d, depth = d + 2 := Nat.exists_eq_add_of_le' hdepth
  obtain ⟨rounds, rfl⟩ : ∃ m, rounds = m + 1 := Nat.exists_eq_add_one.mpr (by omega)
  have hsigns : ∀ c ∈ ['<', '{', '|', '/', '_'], c ∉ Script.groupedChain base (first :: more) := by
    have key : ∀ c ∈ ['<', '{', '|', '/', '_'], c.isAlphanum = false ∧ c ∉ ['^', '(', ')'] := by
      decide
    exact fun c hc => Script.not_mem_groupedChain (key c hc).1 (key c hc).2
  have hidle := idle_of_opensExponents (Script.opensExponents_groupedChain base (first :: more))
    hsigns
  have hcollect := Script.collectExponents_groupedChain base first more (rounds + 1) depth
    (Nat.le_of_succ_le_succ hrounds)
  have hmark : '^' ∉ Marker.ofNat more.length := Script.not_mem_leaf (.mark _)
  rw [Checked.run_extract, extract_succ, runSteps_of_idle hidle, exponents, bind_of_eq hcollect,
    Script.bareExponents_of_not_mem hmark]
  rfl

theorem extract_exponentChain_three :
    (3 ≤ 3 ∧ 2 ≤ 2) ∧
      (Checked.extract 3 2 "b^(x)^(10)^(pi)".toList).run {} =
        (.ok "__PH2__".toList,
          { fragments := ["b^\x7bx\x7d".toList, "\x7b__PH0__\x7d^\x7b10\x7d".toList,
              "\x7b__PH1__\x7d^\x7b\\pi\x7d".toList]
            kept := [] }) := by
  have hchain := extract_exponentChain ⟨'b', rfl⟩ ⟨"x".toList, by decide⟩
    [⟨"10".toList, by decide⟩, ⟨"pi".toList, by decide⟩] (Nat.le_refl 3) (Nat.le_refl 2)
  exact ⟨by decide, hchain.trans (by rfl)⟩

end Construct

end MathNotes
