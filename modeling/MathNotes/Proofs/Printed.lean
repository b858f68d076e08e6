import MathNotes.Construct.Call
import MathNotes.Proofs.Cut
import MathNotes.Proofs.Formula
import MathNotes.Proofs.Recast

/-!
# The text of a formula

What the steps of the extraction find in the text of a formula depends on a few facts about it: the
characters that it is made of and ends with, and its brackets, which match.
-/

namespace MathNotes

/-! ## Words and signs -/

theorem isNameChar_of_isAlpha {c : Char} (h : c.isAlpha = true) : isNameChar c = true := by
  simp [isNameChar, Char.isAlphanum, h]

theorem isNameChar_of_isDigit {c : Char} (h : c.isDigit = true) : isNameChar c = true := by
  simp [isNameChar, Char.isAlphanum, h]

theorem toNat_lt_of_isAlphanum {c : Char} (h : c.isAlphanum = true) : c.toNat < 128 := by
  rw [Char.isAlphanum, Bool.or_eq_true] at h
  rcases h with h | h
  · have := alpha_range h
    omega
  · have := digit_range h
    omega

theorem isLetterOrNumber_of_isAlphanum {c : Char} (h : c.isAlphanum = true) :
    isLetterOrNumber c = true :=
  ascii_forall (P := fun c => c.isAlphanum = true → isLetterOrNumber c = true) (by decide +kernel)
    (toNat_lt_of_isAlphanum h) h

theorem Letter.ne_of_not_isAlpha (v : Letter) {c : Char} (hc : c.isAlpha = false) : v.val ≠ c := by
  rintro rfl
  rw [v.2] at hc
  cases hc

theorem Leaf.text_ne_nil (l : Leaf) : l.text ≠ [] := by
  rcases l with (v | n) | n
  · exact List.cons_ne_nil _ _
  · exact n.2.1
  · simp [text, Marker.ofNat_eq]

theorem Leaf.isNameChar_of_mem {l : Leaf} {c : Char} (h : c ∈ l.text) : isNameChar c = true := by
  rcases l with (v | n) | n
  · rw [List.mem_singleton.mp h]
    exact isNameChar_of_isAlpha v.2
  · exact isNameChar_of_isDigit (n.2.2 c h)
  · exact Marker.nameChar_of_mem_ofNat h

/-- The names that are written in front of brackets. -/
def callNames : List Text :=
  [binomialName, factorialName, "sqrt".toList, "vec".toList, "floor".toList, "ceil".toList] ++
    Symbol.functionNames

theorem isNameChar_of_callNames : ∀ name ∈ callNames, ∀ c ∈ name, isNameChar c = true := by decide

/-- A construct around one part starts with a name in front of brackets, a pipe, or a letter with a
script. -/
theorem Wrapper.word_cases (k : Wrapper) :
    (k.word ∈ callNames ∧ k.opening = ['('] ∧ k.closing = [')']) ∨ k = .absolute ∨
      (∃ v, k = .subscript v) ∨ ∃ v, k = .power v := by
  cases k with
  | factorial => exact .inl ⟨by decide, rfl, rfl⟩
  | command name hname =>
    have key : ∀ name ∈ ["sqrt".toList, "vec".toList], name ∈ callNames := by decide
    exact .inl ⟨key name hname, rfl, rfl⟩
  | rounding name hname =>
    have key : ∀ name ∈ ["floor".toList, "ceil".toList], name ∈ callNames := by decide
    exact .inl ⟨key name hname, rfl, rfl⟩
  | function name hname => exact .inl ⟨List.mem_append_right _ hname, rfl, rfl⟩
  | absolute => exact .inr (.inl rfl)
  | subscript v => exact .inr (.inr (.inl ⟨v, rfl⟩))
  | power v => exact .inr (.inr (.inr ⟨v, rfl⟩))

theorem Wrapper.isNameChar_of_mem {k : Wrapper} {c : Char} (h : c ∈ k.word) :
    isNameChar c = true := by
  rcases k.word_cases with ⟨hword, -, -⟩ | rfl | ⟨v, rfl⟩ | ⟨v, rfl⟩
  · exact isNameChar_of_callNames _ hword c h
  · simp [word] at h
  · simp only [word, List.mem_cons, List.not_mem_nil, or_false] at h
    rcases h with rfl | rfl
    · exact isNameChar_of_isAlpha v.2
    · rfl
  · rw [word, List.mem_singleton] at h
    rw [h]
    exact isNameChar_of_isAlpha v.2

theorem Joiner.isNameChar_of_mem {k : Joiner} {c : Char} (h : c ∈ k.word) :
    isNameChar c = true := by
  cases k with
  | vector => simp [word] at h
  | binomial => exact isNameChar_of_callNames _ (by decide) c h
  | fraction => simp [word] at h

namespace Formula

/-- A sign that belongs to no construct of a formula does not occur in its text. -/
theorem not_mem_source {n : Nat} {c : Char} (hc : isNameChar c = false)
    (hwrap : ∀ k : Wrapper, n < k.rank → c ∉ k.opening ++ k.closing)
    (hjoin : ∀ k : Joiner, n < k.rank → c ∉ k.opening ++ (k.middle ++ k.closing))
    {e : Formula Leaf} (h : e.Above n) : c ∉ e.source Leaf.text := by
  have hname : ∀ {text : Text}, (∀ d ∈ text, isNameChar d = true) → c ∉ text := by
    intro text htext hmem
    rw [htext c hmem] at hc
    cases hc
  induction e with
  | leaf l => exact hname fun d hd => Leaf.isNameChar_of_mem hd
  | wrap k e ih =>
    have hsigns := hwrap k h.1
    have hword := hname fun d (hd : d ∈ k.word) => Wrapper.isNameChar_of_mem hd
    have hpart := ih h.2
    simp only [source, List.mem_append, not_or] at hsigns ⊢
    exact ⟨hword, hsigns.1, hpart, hsigns.2⟩
  | join k a b iha ihb =>
    have hsigns := hjoin k h.1
    have hword := hname fun d (hd : d ∈ k.word) => Joiner.isNameChar_of_mem hd
    have hfirst := iha h.2.1
    have hsecond := ihb h.2.2
    simp only [source, List.mem_append, not_or] at hsigns ⊢
    exact ⟨hword, hsigns.1, hfirst, hsigns.2.1, hsecond, hsigns.2.2⟩

variable {e : Formula Leaf}

/-- A character that is neither part of a name nor a sign of any construct. -/
theorem not_mem_source_of_foreign {c : Char} (hc : isNameChar c = false)
    (hsign : c ∉ "()^|<>/, ".toList) (e : Formula Leaf) : c ∉ e.source Leaf.text := by
  have key : ∀ text : Text, text ∈ ["|".toList, "^(".toList, "(".toList, ")".toList, "<".toList,
      ">".toList, ")/(".toList, ", ".toList] → c ∉ text := by
    intro text htext hmem
    have hall : ∀ text ∈ ["|".toList, "^(".toList, "(".toList, ")".toList, "<".toList, ">".toList,
      ")/(".toList, ", ".toList], ∀ c ∈ text, c ∈ "()^|<>/, ".toList := by decide
    exact hsign (hall text htext c hmem)
  refine not_mem_source hc (fun k _ => ?_) (fun k _ => ?_) e.above_zero
  · rw [List.mem_append, not_or]
    cases k <;> exact ⟨key _ (by simp [Wrapper.opening]), key _ (by simp [Wrapper.closing])⟩
  · rw [List.mem_append, List.mem_append, not_or, not_or]
    cases k <;> exact ⟨key _ (by simp [Joiner.opening]), key _ (by simp [Joiner.middle]),
      key _ (by simp [Joiner.closing])⟩

theorem not_mem_angle (h : e.Above 6) : '<' ∉ e.source Leaf.text ∧ '>' ∉ e.source Leaf.text := by
  constructor <;>
  · refine not_mem_source (by rfl) (fun k _ => ?_) (fun k hk => ?_) h
    · cases k <;> simp [Wrapper.opening, Wrapper.closing]
    · cases k <;> simp [Joiner.opening, Joiner.middle, Joiner.closing, Joiner.rank] at hk ⊢

theorem not_mem_slash (h : e.Above 10) : '/' ∉ e.source Leaf.text := by
  refine not_mem_source (by rfl) (fun k _ => ?_) (fun k hk => ?_) h
  · cases k <;> simp [Wrapper.opening, Wrapper.closing]
  · cases k <;> simp [Joiner.rank] at hk

/-! ## The ends of the text -/

theorem source_ne_nil (e : Formula Leaf) : e.source Leaf.text ≠ [] := by
  cases e with
  | leaf l => exact l.text_ne_nil
  | wrap k e => cases k <;> simp [source, Wrapper.opening]
  | join k a b => cases k <;> simp [source, Joiner.opening]

/-- What a formula starts with. -/
theorem head_source {e : Formula Leaf} {c : Char} (hc : c ∈ (e.source Leaf.text).head?) :
    isNameChar c = true ∨ c = '(' ∨ c = '<' ∨ (c = '|' ∧ e.isAbsolute = true) := by
  have hword : ∀ {word rest : Text}, word ≠ [] → (∀ d ∈ word, isNameChar d = true) →
      c ∈ (word ++ rest).head? → isNameChar c = true := by
    intro word rest hne hall hmem
    rw [List.head?_append_of_ne_nil _ hne] at hmem
    exact hall c (List.mem_of_mem_head? hmem)
  cases e with
  | leaf l => exact .inl (Leaf.isNameChar_of_mem (List.mem_of_mem_head? hc))
  | wrap k e =>
    by_cases hne : k.word = []
    · rcases k.word_cases with ⟨hmem, -, -⟩ | rfl | ⟨v, rfl⟩ | ⟨v, rfl⟩
      · exact absurd hne ((by decide : ∀ name ∈ callNames, name ≠ []) _ hmem)
      · exact .inr (.inr (.inr ⟨(Option.some.inj hc).symm, rfl⟩))
      · cases hne
      · cases hne
    · exact .inl (hword hne (fun d hd => Wrapper.isNameChar_of_mem hd) hc)
  | join k a b =>
    cases k with
    | vector => exact .inr (.inr (.inl (Option.some.inj hc).symm))
    | binomial =>
      exact .inl (hword (by decide) (fun d (hd : d ∈ Joiner.binomial.word) =>
        Joiner.isNameChar_of_mem hd) hc)
    | fraction => exact .inr (.inl (Option.some.inj hc).symm)

/-- What a formula ends with. -/
theorem last_source {e : Formula Leaf} {c : Char} (hc : c ∈ (e.source Leaf.text).getLast?) :
    isNameChar c = true ∨ c = ')' ∨ c = '>' ∨ (c = '|' ∧ e.isAbsolute = true) := by
  cases e with
  | leaf l => exact .inl (Leaf.isNameChar_of_mem (List.mem_of_getLast? hc))
  | wrap k e =>
    rw [source, ← List.append_assoc, ← List.append_assoc,
      List.getLast?_append_of_ne_nil _ (by cases k <;> simp [Wrapper.closing])] at hc
    rcases k.word_cases with ⟨-, -, hclosing⟩ | rfl | ⟨v, rfl⟩ | ⟨v, rfl⟩
    · rw [hclosing] at hc
      exact .inr (.inl (Option.some.inj hc).symm)
    · exact .inr (.inr (.inr ⟨(Option.some.inj hc).symm, rfl⟩))
    · exact .inr (.inl (Option.some.inj hc).symm)
    · exact .inr (.inl (Option.some.inj hc).symm)
  | join k a b =>
    rw [source, ← List.append_assoc, ← List.append_assoc, ← List.append_assoc, ← List.append_assoc,
      List.getLast?_append_of_ne_nil _ (by cases k <;> simp [Joiner.closing])] at hc
    cases k with
    | vector => exact .inr (.inr (.inl (Option.some.inj hc).symm))
    | binomial => exact .inr (.inl (Option.some.inj hc).symm)
    | fraction => exact .inr (.inl (Option.some.inj hc).symm)

end Formula

theorem isBlank_of_isNameChar {c : Char} (h : isNameChar c = true) : isBlank c = false := by
  by_contra hblank
  rw [isNameChar_of_isBlank (by simpa using hblank)] at h
  cases h

theorem isBlank_of_isWhitespace {c : Char} (h : c.isWhitespace = true) : isBlank c = true := by
  have hcases : (c = ' ' || c = '\t' || c = '\r' || c = '\n') = true := h
  simp only [Bool.or_eq_true, decide_eq_true_eq] at hcases
  rcases hcases with ((rfl | rfl) | rfl) | rfl <;> decide

theorem Text.trim_eq_self {text : Text} (hhead : ∀ c ∈ text.head?, isBlank c = false)
    (hlast : ∀ c ∈ text.getLast?, isBlank c = false) : text.trim = text := by
  have hdrop : ∀ {t : Text}, (∀ c ∈ t.head?, isBlank c = false) → t.dropWhile isBlank = t := by
    intro t ht
    cases t with
    | nil => rfl
    | cons c t => rw [List.dropWhile_cons, ht c rfl, if_neg (by simp)]
  rw [trim, trimLeft, hdrop hhead, trimRight, hdrop (by rwa [List.head?_reverse]),
    List.reverse_reverse]

namespace Formula

/-- Nothing is trimmed of a formula. -/
theorem trim_source (e : Formula Leaf) : (e.source Leaf.text).trim = e.source Leaf.text := by
  have hsign : ∀ c, (c = '(' ∨ c = '<' ∨ c = ')' ∨ c = '>' ∨ c = '|') → isBlank c = false := by
    rintro c (rfl | rfl | rfl | rfl | rfl) <;> decide
  refine Text.trim_eq_self (fun c hc => ?_) (fun c hc => ?_)
  · rcases head_source hc with h | h | h | ⟨h, -⟩
    · exact isBlank_of_isNameChar h
    · exact hsign c (by simp [h])
    · exact hsign c (by simp [h])
    · exact hsign c (by simp [h])
  · rcases last_source hc with h | h | h | ⟨h, -⟩
    · exact isBlank_of_isNameChar h
    · exact hsign c (by simp [h])
    · exact hsign c (by simp [h])
    · exact hsign c (by simp [h])

/-- The only white space in a formula is a blank, so a factorial sees a compound part as one. -/
theorem isCompound_source (e : Formula Leaf) :
    Construct.isCompound (e.source Leaf.text) = isCompoundSource (e.source Leaf.text) := by
  have hspace : ∀ c ∈ e.source Leaf.text, isBlank c = c.isWhitespace := by
    intro c hc
    cases hname : isNameChar c with
    | true =>
      rw [isBlank_of_isNameChar hname]
      by_contra hwhite
      have hblank := isBlank_of_isWhitespace (by simpa using Ne.symm hwhite)
      rw [isBlank_of_isNameChar hname] at hblank
      cases hblank
    | false =>
      have hsign : c ∈ "()^|<>/, ".toList :=
        by_contra fun hsign => not_mem_source_of_foreign hname hsign e hc
      exact (by decide : ∀ c ∈ "()^|<>/, ".toList, isBlank c = c.isWhitespace) c hsign
  rw [Construct.isCompound, isCompoundSource, Bool.eq_iff_iff, List.any_eq_true, List.any_eq_true]
  refine exists_congr fun c => and_congr_right fun hc => ?_
  rw [hspace c hc]
  rfl

theorem trim_space_source (e : Formula Leaf) :
    Text.trim (' ' :: e.source Leaf.text) = e.source Leaf.text := by
  have hdrop : Text.trimLeft (' ' :: e.source Leaf.text) = Text.trimLeft (e.source Leaf.text) := by
    rw [Text.trimLeft, List.dropWhile_cons, if_pos (by decide), Text.trimLeft]
  rw [Text.trim, hdrop]
  exact e.trim_source

end Formula

/-! ## Brackets -/

/-- Round brackets match in the text, there are no others, and all characters outside brackets are
in the class `top`. -/
inductive Balanced : (top : Char → Prop) → Text → Prop
  | nil {top : Char → Prop} : Balanced top []
  | sign {top : Char → Prop} {c : Char} {text : Text} (opening : isOpeningBracket c = false)
      (closing : isClosingBracket c = false) (outside : top c) (rest : Balanced top text) :
      Balanced top (c :: text)
  | group {top : Char → Prop} {inside text : Text} (inner : Balanced (fun _ => True) inside)
      (rest : Balanced top text) : Balanced top ('(' :: (inside ++ ')' :: text))

namespace Balanced

variable {top : Char → Prop} {a b text : Text}

theorem append (ha : Balanced top a) (hb : Balanced top b) : Balanced top (a ++ b) := by
  induction ha with
  | nil => exact hb
  | sign opening closing outside _ ih => exact .sign opening closing outside (ih hb)
  | group inner _ _ ih =>
    rw [List.cons_append, List.append_assoc, List.cons_append]
    exact .group inner (ih hb)

theorem of_forall (h : ∀ c ∈ text, isNameChar c = true ∧ top c) : Balanced top text := by
  have hbracket : ∀ c, isNameChar c = true → isOpeningBracket c = false ∧
      isClosingBracket c = false := by
    intro c hc
    simp only [isOpeningBracket, isClosingBracket, Bool.or_eq_false_iff, beq_eq_false_iff_ne]
    refine ⟨⟨⟨?_, ?_⟩, ?_⟩, ⟨?_, ?_⟩, ?_⟩ <;>
    · rintro rfl
      cases hc
  induction text with
  | nil => exact .nil
  | cons c text ih =>
    obtain ⟨hname, htop⟩ := h c List.mem_cons_self
    obtain ⟨hopening, hclosing⟩ := hbracket c hname
    exact .sign hopening hclosing htop (ih fun d hd => h d (List.mem_cons_of_mem c hd))

theorem round_of_not_bracket {c : Char} (hopening : isOpeningBracket c = false)
    (hclosing : isClosingBracket c = false) :
    Delimiters.round.opens c = false ∧ Delimiters.round.closes c = false := by
  simp only [isOpeningBracket, isClosingBracket, Bool.or_eq_false_iff, beq_eq_false_iff_ne]
    at hopening hclosing
  constructor
  · rw [Delimiters.opens, beq_eq_false_iff_ne]
    exact fun h => hopening.1.1 (List.cons.inj h).1.symm
  · rw [Delimiters.closes, beq_eq_false_iff_ne]
    exact fun h => hclosing.1.1 (List.cons.inj h).1.symm

/-- Matching passes over a balanced text. -/
theorem offset? (h : Balanced top text) (depth : Nat) (rest : Text) :
    Delimiters.round.offset? depth (text ++ rest) =
      (Delimiters.round.offset? depth rest).map (· + text.length) := by
  induction h generalizing depth rest with
  | nil => simp
  | sign hopening hclosing _ _ ih =>
    obtain ⟨hopens, hcloses⟩ := round_of_not_bracket hopening hclosing
    rw [List.cons_append, Delimiters.offset?.eq_def]
    simp only [hopens, hcloses, Bool.false_eq_true, if_false]
    rw [ih, Option.map_map]
    rfl
  | @group _ inside text _ _ ihInner ihRest =>
    have hlength : ∀ n, n + text.length + 1 + inside.length + 1 =
        n + ('(' :: (inside ++ ')' :: text)).length := by
      intro n
      simp only [List.length_cons, List.length_append]
      omega
    rw [List.cons_append, List.append_assoc, List.cons_append, Delimiters.offset?.eq_def]
    simp only [show Delimiters.round.opens '(' = true from rfl, if_true]
    rw [ihInner, Delimiters.offset?.eq_def]
    simp only [show Delimiters.round.opens ')' = false from rfl,
      show Delimiters.round.closes ')' = true from rfl, Bool.false_eq_true, if_false, if_true]
    rw [ihRest]
    simp only [Option.map_map]
    exact congrArg (Option.map · _) (funext hlength)

/-- Matching from right to left passes over a balanced text. -/
theorem offset?_reverse (h : Balanced top text) (depth : Nat) (rest : Text) :
    Delimiters.round.swap.offset? depth (text.reverse ++ rest) =
      (Delimiters.round.swap.offset? depth rest).map (· + text.length) := by
  induction h generalizing depth rest with
  | nil => simp
  | @sign _ c text hopening hclosing _ _ ih =>
    obtain ⟨hopens, hcloses⟩ := round_of_not_bracket hopening hclosing
    rw [List.reverse_cons, List.append_assoc, ih, List.singleton_append,
      Delimiters.offset?.eq_def]
    simp only [show Delimiters.round.swap.opens c = false from hcloses,
      show Delimiters.round.swap.closes c = false from hopens, Bool.false_eq_true, if_false]
    rw [Option.map_map]
    refine congrArg (Option.map · _) (funext fun n => ?_)
    simp only [Function.comp_apply, List.length_cons]
    omega
  | @group _ inside text _ _ ihInner ihRest =>
    have hlength : ∀ n, n + 1 + inside.length + 1 + text.length =
        n + ('(' :: (inside ++ ')' :: text)).length := by
      intro n
      simp only [List.length_cons, List.length_append]
      omega
    rw [show ('(' :: (inside ++ ')' :: text)).reverse ++ rest =
      text.reverse ++ (')' :: (inside.reverse ++ ('(' :: rest))) by simp, ihRest,
      Delimiters.offset?.eq_def]
    simp only [show Delimiters.round.swap.opens ')' = true from rfl, if_true]
    rw [ihInner, Delimiters.offset?.eq_def]
    simp only [show Delimiters.round.swap.opens '(' = false from rfl,
      show Delimiters.round.swap.closes '(' = true from rfl, Bool.false_eq_true, if_false, if_true]
    simp only [Option.map_map]
    exact congrArg (Option.map · _) (funext hlength)

theorem splitClosing?_of_offset {pair : Delimiters} {c : Char}
    (h : pair.offset? 0 (a ++ c :: b) = some a.length) :
    pair.splitClosing? (a ++ c :: b) = some (a, b) := by
  rw [Delimiters.splitClosing?, h, Option.map_some, List.take_left, List.drop_length_add_append]
  rfl

/-- The group that a balanced text fills. -/
theorem splitClosing? (h : Balanced top text) (rest : Text) :
    Delimiters.round.splitClosing? (text ++ ')' :: rest) = some (text, rest) := by
  refine splitClosing?_of_offset ?_
  rw [h.offset?]
  simp [Delimiters.offset?, Delimiters.opens, Delimiters.closes, Delimiters.round]

theorem splitOpening? (h : Balanced top text) (before : Text) :
    Delimiters.round.splitOpening? (before ++ '(' :: text) = some (before, text) := by
  have hoffset : Delimiters.round.swap.offset? 0 (text.reverse ++ '(' :: before.reverse) =
      some text.reverse.length := by
    rw [h.offset?_reverse, List.length_reverse]
    simp [Delimiters.offset?, Delimiters.opens, Delimiters.closes, Delimiters.round,
      Delimiters.swap]
  rw [Delimiters.splitOpening?, show (before ++ '(' :: text).reverse =
    text.reverse ++ '(' :: before.reverse by simp, splitClosing?_of_offset hoffset]
  simp

theorem splitTopFrom_cons {depth : Nat} {c : Char}
    (h : ¬(c = ',' ∧ bracketDepth depth c = 0)) (rest : Text) :
    Text.splitTopFrom [','] depth (c :: rest) =
      (Text.splitTopFrom [','] (bracketDepth depth c) rest).modifyHead (c :: ·) := by
  have hmiss : ¬([','] == [c] && bracketDepth depth c == 0) = true := by
    rw [Bool.and_eq_true, beq_iff_eq, beq_iff_eq]
    exact fun hc => h ⟨(List.cons.inj hc.1).1.symm, hc.2⟩
  rw [Text.splitTopFrom, if_neg hmiss]
  cases hsplit : Text.splitTopFrom [','] (bracketDepth depth c) rest with
  | nil => exact absurd hsplit (Text.splitTopFrom_ne_nil _ _ _)
  | cons part parts => rfl

/-- Splitting at commas passes over a balanced text without commas outside its brackets. -/
theorem splitTopFrom (h : Balanced top text) {depth : Nat}
    (hcomma : 0 < depth ∨ ∀ c, top c → c ≠ ',') (rest : Text) :
    Text.splitTopFrom [','] depth (text ++ rest) =
      (Text.splitTopFrom [','] depth rest).modifyHead (text ++ ·) := by
  induction h generalizing depth rest with
  | nil => exact List.modifyHead_id.symm ▸ rfl
  | @sign _ c text hopening hclosing houtside _ ih =>
    have hdepth : bracketDepth depth c = depth := by simp [bracketDepth, hopening, hclosing]
    have hc : ¬(c = ',' ∧ bracketDepth depth c = 0) := by
      rintro ⟨rfl, hzero⟩
      rcases hcomma with hpos | htop
      · omega
      · exact htop _ houtside rfl
    rw [List.cons_append, splitTopFrom_cons hc, hdepth, ih hcomma, List.modifyHead_modifyHead]
    rfl
  | @group _ inside text _ _ ihInner ihRest =>
    have hopen : bracketDepth depth '(' = depth + 1 := rfl
    have hclose : bracketDepth (depth + 1) ')' = depth := rfl
    rw [List.cons_append, List.append_assoc, List.cons_append, splitTopFrom_cons (by simp), hopen,
      ihInner (.inl (Nat.succ_pos depth)), splitTopFrom_cons (by simp), hclose, ihRest hcomma]
    simp only [List.modifyHead_modifyHead]
    refine congrArg (List.modifyHead · _) (funext fun t => ?_)
    simp

end Balanced

namespace Formula

theorem balanced_word {top : Char → Prop} (htop : ∀ c, c ≠ ',' → top c) {word : Text}
    (hword : ∀ c ∈ word, isNameChar c = true) : Balanced top word := by
  refine .of_forall fun c hc => ⟨hword c hc, htop c ?_⟩
  rintro rfl
  cases hword ',' hc

/-- The brackets of a formula match; outside them there are commas in vectors only. -/
theorem balanced_source {top : Char → Prop} (htop : ∀ c, c ≠ ',' → top c) {e : Formula Leaf}
    (h : e.Above 6 ∨ top ',') : Balanced top (e.source Leaf.text) := by
  -- Inside brackets every sign may stand, so the parts are taken once more with no condition.
  induction e generalizing top with
  | leaf l => exact balanced_word htop fun c hc => Leaf.isNameChar_of_mem hc
  | wrap k e ih =>
    have hword := balanced_word htop fun c (hc : c ∈ k.word) => Wrapper.isNameChar_of_mem hc
    have hinner : Balanced (fun _ => True) (e.source Leaf.text) :=
      ih (fun _ _ => trivial) (.inr trivial)
    rw [source]
    refine hword.append ?_
    rcases k.word_cases with ⟨-, hopening, hclosing⟩ | rfl | ⟨v, rfl⟩ | ⟨v, rfl⟩
    · rw [hopening, hclosing]
      exact .group hinner .nil
    · have hpart : Balanced top (e.source Leaf.text) := ih htop (h.imp_left And.right)
      exact .sign rfl rfl (htop _ (by decide))
        (hpart.append (.sign rfl rfl (htop _ (by decide)) .nil))
    · exact .group hinner .nil
    · exact .sign rfl rfl (htop _ (by decide)) (.group hinner .nil)
  | join k a b iha ihb =>
    have hword := balanced_word htop fun c (hc : c ∈ k.word) => Joiner.isNameChar_of_mem hc
    have hfirst : Balanced (fun _ => True) (a.source Leaf.text) :=
      iha (fun _ _ => trivial) (.inr trivial)
    have hsecond : Balanced (fun _ => True) (b.source Leaf.text) :=
      ihb (fun _ _ => trivial) (.inr trivial)
    rw [source]
    refine hword.append ?_
    cases k with
    | vector =>
      have hcomma : top ',' := h.resolve_left fun habove => absurd habove.1 (by decide)
      have ha : Balanced top (a.source Leaf.text) := iha htop (.inr hcomma)
      have hb : Balanced top (b.source Leaf.text) := ihb htop (.inr hcomma)
      exact .sign rfl rfl (htop _ (by decide)) (ha.append (.sign rfl rfl hcomma
        (.sign rfl rfl (htop _ (by decide)) (hb.append (.sign rfl rfl (htop _ (by decide)) .nil)))))
    | binomial =>
      have hinside : Balanced (fun _ => True) (a.source Leaf.text ++ ([',', ' '] ++
          b.source Leaf.text)) :=
        hfirst.append (.sign rfl rfl trivial (.sign rfl rfl trivial hsecond))
      have hgroup : Balanced top ('(' :: ((a.source Leaf.text ++ ([',', ' '] ++
        b.source Leaf.text)) ++ [')'])) := .group hinside .nil
      simpa [Joiner.opening, Joiner.middle, Joiner.closing] using hgroup
    | fraction =>
      exact .group hfirst (.sign rfl rfl (htop _ (by decide)) (.group hsecond .nil))

theorem balanced (e : Formula Leaf) : Balanced (fun _ => True) (e.source Leaf.text) :=
  balanced_source (fun _ _ => trivial) (.inr trivial)

/-- The two parts of a formula that are separated by a comma. -/
theorem splitTop_source {a b : Formula Leaf} (ha : a.Above 6) (hb : b.Above 6) :
    Text.splitTop "," (a.source Leaf.text ++ ([',', ' '] ++ b.source Leaf.text)) =
      [a.source Leaf.text, ' ' :: b.source Leaf.text] := by
  have hcommaless : ∀ {e : Formula Leaf}, e.Above 6 → ∀ rest,
      Text.splitTopFrom [','] 0 (e.source Leaf.text ++ rest) =
        (Text.splitTopFrom [','] 0 rest).modifyHead (e.source Leaf.text ++ ·) := by
    intro e he rest
    have hbalanced : Balanced (· ≠ ',') (e.source Leaf.text) :=
      balanced_source (fun _ h => h) (.inl he)
    exact hbalanced.splitTopFrom (.inr fun _ h => h) rest
  have hsecond := hcommaless hb []
  rw [List.append_nil] at hsecond
  have hspace : Text.splitTopFrom [','] 0 (' ' :: b.source Leaf.text) =
      (Text.splitTopFrom [','] 0 (b.source Leaf.text)).modifyHead (' ' :: ·) :=
    Balanced.splitTopFrom_cons (by simp) _
  have hcomma : Text.splitTopFrom [','] 0 (',' :: ' ' :: b.source Leaf.text) =
      [] :: Text.splitTopFrom [','] 0 (' ' :: b.source Leaf.text) := rfl
  show Text.splitTopFrom [','] 0 (a.source Leaf.text ++ (',' :: ' ' :: b.source Leaf.text)) = _
  rw [hcommaless ha, hcomma, hspace, hsecond]
  simp [Text.splitTopFrom]

end Formula

end MathNotes
