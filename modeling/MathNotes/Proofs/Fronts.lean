import MathNotes.Proofs.Extraction
import MathNotes.Proofs.NestedContexts

/-!
# What stands in front of a line

A marker that was written by hand, with a plus sign behind it, takes no part in the constructs of
the line that follows it: no construct starts in it, and the space at its end keeps names, markers
and operands from reaching into it (`Text.Front`).  So every step of the extraction leaves such a
front where it is and does to the line what it does to the line alone (`Step.PassesOver`), and so
does the extraction as a whole (`Construct.extract_front`).
-/

namespace MathNotes

open Extract

/-! ## Fronts -/

/-- The characters of a front. -/
def isQuiet (c : Char) : Bool := c.isDigit || "_PH+ ".toList.contains c

/-- A text that takes no part in the constructs of the line behind it. -/
structure Text.Front (front : Text) : Prop where
  /-- It ends in a plus sign and a space. -/
  ends : ∃ start, front = start ++ ['+', ' ']
  /-- No construct starts in it. -/
  quiet : ∀ c ∈ front, isQuiet c = true
  /-- No letter in it has a subscript. -/
  bare : front.IsChain fun c d => c.isAlpha = true → d ≠ '_'

/-- A marker with a plus sign behind it is a front. -/
theorem Marker.front_ofNat (k : Nat) : Text.Front (ofNat k ++ " + ") := by
  have heq : ofNat k ++ " + " =
      '_' :: '_' :: 'P' :: 'H' :: (Text.ofNat k ++ ['_', '_', ' ', '+', ' ']) := by
    rw [ofNat_eq]
    simp
  have hdigits : ∀ c ∈ Text.ofNat k ++ ['_', '_', ' ', '+', ' '],
      isQuiet c = true ∧ c.isAlpha = false := by
    intro c hc
    rcases List.mem_append.mp hc with hdigit | hsign
    · have hc := digit_of_mem_ofNat hdigit
      exact ⟨by simp [isQuiet, hc], isAlpha_of_isDigit hc⟩
    · exact (by decide : ∀ c ∈ ['_', '_', ' ', '+', ' '],
        isQuiet c = true ∧ c.isAlpha = false) c hsign
  refine ⟨⟨ofNat k ++ [' '], by simp⟩, ?_, ?_⟩
  · rw [heq]
    simp only [List.forall_mem_cons]
    exact ⟨by decide, by decide, by decide, by decide, fun c hc => (hdigits c hc).1⟩
  · -- Behind the two letters stand a letter and a digit.
    have hchain : (Text.ofNat k ++ ['_', '_', ' ', '+', ' ']).IsChain
        fun c d => c.isAlpha = true → d ≠ '_' :=
      (List.pairwise_of_forall_mem_list fun c hc d _ halpha => by
        rw [(hdigits c hc).2] at halpha
        cases halpha).isChain
    have hhead : ∀ d ∈ (Text.ofNat k ++ ['_', '_', ' ', '+', ' ']).head?, d ≠ '_' := by
      rw [List.head?_append_of_ne_nil _ (textOfNat_ne_nil k)]
      rintro d hd rfl
      exact absurd (digit_of_mem_ofNat (List.mem_of_head? hd)) (by decide)
    rw [heq]
    simp only [List.isChain_cons]
    have hunderscore : '_'.isAlpha ≠ true := by decide
    exact ⟨fun _ _ h => absurd h hunderscore, fun _ _ h => absurd h hunderscore, by simp,
      fun d hd _ => hhead d hd, hchain⟩

namespace Text.Front

variable {front : Text}

theorem getLast? (h : front.Front) : front.getLast? = some ' ' := by
  obtain ⟨start, rfl⟩ := h.ends
  simp

theorem ne_nil (h : front.Front) : front ≠ [] := by
  obtain ⟨start, rfl⟩ := h.ends
  simp

theorem not_mem (h : front.Front) {c : Char} (hc : isQuiet c = false) : c ∉ front := fun hmem => by
  rw [h.quiet c hmem] at hc
  cases hc

/-- White space behind a front takes the space at its end with it. -/
theorem trimRight (h : front.Front) (text : Text) :
    (Text.trimRight text ≠ [] ∧ Text.trimRight (front ++ text) = front ++ Text.trimRight text) ∨
      (Text.trimRight text = [] ∧ ∃ start, Text.trimRight (front ++ text) = start ++ ['+']) := by
  obtain ⟨start, rfl⟩ := h.ends
  unfold Text.trimRight
  rw [List.reverse_append, List.dropWhile_append]
  by_cases hnil : (text.reverse.dropWhile isBlank).isEmpty = true
  · have hplus : (start ++ ['+', ' ']).reverse.dropWhile isBlank = (start ++ ['+']).reverse := by
      have hblank : isBlank ' ' = true := by decide
      have hsign : isBlank '+' = false := by decide
      simp [hblank, hsign]
    exact .inr ⟨by simpa using hnil, start, by rw [if_pos hnil, hplus, List.reverse_reverse]⟩
  · exact .inl ⟨by simpa using hnil, by rw [if_neg hnil, List.reverse_append, List.reverse_reverse]⟩

end Text.Front

theorem Text.take_behind (front text : Text) (n : Nat) :
    (front ++ text).take (n + front.length) = front ++ text.take n := by
  rw [Nat.add_comm, List.take_length_add_append]

theorem Text.drop_behind (front text : Text) (n : Nat) :
    (front ++ text).drop (n + front.length) = text.drop n := by
  rw [Nat.add_comm, List.drop_length_add_append]

/-- A step that leaves a front where it is. -/
def Step.PassesOver (step : Step) (front : Text) : Prop :=
  ∀ rounds treat text, step rounds treat (front ++ text) = (front ++ ·) <$> step rounds treat text

variable {front : Text}

/-! ## Calls -/

theorem isPrefixOf?_of_isQuiet {word text : Text} {c : Char}
    (hword : word.head?.any (!isQuiet ·) = true) (hc : isQuiet c = true) :
    word.isPrefixOf? (c :: text) = none := by
  cases word with
  | nil => simp at hword
  | cons d word =>
    have hne : d ≠ c := by
      rintro rfl
      simp [hc] at hword
    simp [List.isPrefixOf?, hne]

namespace Pattern

variable {α : Type} {pattern : Pattern α}

theorem find?_congr {previous previous' : Option Char}
    (h : ∀ text, pattern previous text = pattern previous' text) (text : Text) :
    pattern.find? previous text = pattern.find? previous' text := by
  cases text with
  | nil => rfl
  | cons c text => rw [find?, find?, h]

/-- A pattern that does not tell a space in front of it from the start of the text goes on behind a
text that it misses as it starts. -/
theorem pieces_behind_space (hspace : ∀ text, pattern (some ' ') text = pattern none text)
    {passed text : Text} (hlast : passed.getLast? = some ' ')
    (hmisses : pattern.Misses none passed text) :
    pattern.pieces (passed ++ text) = passed.map .char ++ pattern.pieces text := by
  rw [pieces, piecesFrom_pass hmisses, hlast, Option.some_or, pieces]
  cases text with
  | nil => rfl
  | cons c text => rw [piecesFrom, piecesFrom, hspace]

theorem replace_behind_space (hspace : ∀ text, pattern (some ' ') text = pattern none text)
    {passed text : Text} (hlast : passed.getLast? = some ' ')
    (hmisses : pattern.Misses none passed text) (replacement : α → Text) :
    pattern.replace replacement (passed ++ text) = passed ++ pattern.replace replacement text := by
  rw [replace, pieces_behind_space hspace hlast hmisses, List.flatMap_append]
  exact congrArg (· ++ _) (Piece.flatMap_write_chars replacement passed)

theorem replaceM_behind_space {m : Type → Type} [Monad m] [LawfulMonad m] {store : α → m Text}
    (hspace : ∀ text, pattern (some ' ') text = pattern none text) {passed text : Text}
    (hlast : passed.getLast? = some ' ') (hmisses : pattern.Misses none passed text) :
    pattern.replaceM store (passed ++ text) = (passed ++ ·) <$> pattern.replaceM store text := by
  rw [replaceM_eq, replaceM_eq, pieces_behind_space hspace hlast hmisses, mapM_chars]
  simp [flatten_singletons]

end Pattern

/-- Where no hit starts in a front, calls are collected behind it. -/
theorem Call.collect_front {α : Type} {pattern : Pattern α}
    {build : α → Text → Extract (Option Text)} (h : front.Front)
    (hspace : ∀ text, pattern (some ' ') text = pattern none text) {text : Text}
    (hmisses : pattern.Misses none front text) (rounds : Nat) :
    collect pattern build rounds none (front ++ text) =
      (front ++ ·) <$> collect pattern build rounds none text := by
  have hcollect : collect pattern build rounds (some ' ') text =
      collect pattern build rounds none text := by
    cases rounds with
    | zero => rfl
    | succ rounds => rw [collect, collect, Pattern.find?_congr hspace]
  rw [passes_collect hmisses rounds, h.getLast?, Option.some_or, hcollect]
  rfl

theorem Call.passesOver_step (h : front.Front) {names : List Text}
    (hnames : ∀ name ∈ names, name.head?.any (!isQuiet ·) = true)
    (build : Treatment → Text → Text → Extract (Option Text)) :
    (step names build).PassesOver front := by
  intro rounds treat text
  refine collect_front h (fun _ => rfl)
    (Pattern.misses_of_forall fun c hc previous text => ?_) rounds
  unfold head
  split
  · rfl
  · refine List.findSome?_eq_none_iff.mpr fun name hname => ?_
    rw [isPrefixOf?_of_isQuiet (hnames name hname) (h.quiet c hc)]
    rfl

theorem Bound.passesOver_boundedOperators (h : front.Front) :
    Step.PassesOver Construct.boundedOperators front := by
  intro rounds treat text
  have hnames : ∀ p ∈ operators, p.1.head?.any (!isQuiet ·) = true := by decide
  refine Call.collect_front h (fun _ => rfl)
    (Pattern.misses_of_forall fun c hc previous text => ?_) rounds
  unfold head
  split
  · rfl
  · refine List.findSome?_eq_none_iff.mpr fun operator hop => ?_
    simp only [isPrefixOf?_of_isQuiet (hnames operator hop) (h.quiet c hc)]
    rfl

/-! ## Enclosures -/

theorem Vector.passesOver_vectors (h : front.Front) :
    Step.PassesOver Construct.vectors front := by
  intro rounds treat text
  have hmisses : ∀ text, pattern.Misses none front text := fun text =>
    Pattern.misses_of_forall fun c hc previous text => by
      have hne : c ≠ '<' := fun hsame => h.not_mem (by decide) (hsame ▸ hc)
      simp [pattern, Text.after?, hne]
  induction rounds generalizing text with
  | zero => rfl
  | succ rounds ih =>
    rw [Construct.vectors, Construct.vectors, map_bind,
      Pattern.replaceM_behind_space (fun _ => rfl) h.getLast? (hmisses text), bind_map_left]
    refine bind_congr fun updated => ?_
    by_cases hsame : updated = text
    · rw [if_pos hsame, if_pos (by rw [hsame])]
      rfl
    · rw [if_neg hsame, if_neg (fun heq => hsame (List.append_cancel_left heq)), ih]

/-- A word that starts with none of the characters of a front is looked for behind it. -/
theorem Text.breakOn?_front (h : front.Front) {needle : Text}
    (hneedle : needle.head?.any (!isQuiet ·) = true) (text : Text) :
    breakOn? needle (front ++ text) =
      (breakOn? needle text).map fun (before, after) => (front ++ before, after) := by
  have hpass : ∀ passed : Text, (∀ c ∈ passed, isQuiet c = true) →
      breakOn? needle (passed ++ text) =
        (breakOn? needle text).map fun (before, after) => (passed ++ before, after) := by
    intro passed hquiet
    induction passed with
    | nil => simp
    | cons c passed ih =>
      rw [List.cons_append, breakOn?, isPrefixOf?_of_isQuiet hneedle (hquiet c List.mem_cons_self)]
      simp only
      rw [ih fun d hd => hquiet d (List.mem_cons_of_mem c hd), Option.map_map]
      rfl
  exact hpass front h.quiet

namespace SetBuilder

theorem endsInCommand_front (h : front.Front) (text : Text) :
    endsInCommand (front ++ text) = endsInCommand text := by
  unfold endsInCommand
  rcases h.trimRight text with ⟨-, htrim⟩ | ⟨hnil, start, htrim⟩
  · obtain ⟨start, hstart⟩ := h.ends
    have hreverse : front.reverse = ' ' :: '+' :: start.reverse := by simp [hstart]
    have hletters : ((Text.trimRight text).reverse ++ front.reverse).takeWhile Char.isAlpha =
        (Text.trimRight text).reverse.takeWhile Char.isAlpha := by
      rw [List.takeWhile_append, hreverse, List.takeWhile_cons_of_neg (by decide), List.append_nil]
      split
      · rename_i hlength
        exact ((List.takeWhile_prefix _).eq_of_length hlength).symm
      · rfl
    have hle := (List.takeWhile_prefix (p := Char.isAlpha)
      (l := (Text.trimRight text).reverse)).length_le
    simp only [htrim, List.reverse_append, hletters, List.drop_append_of_le_length hle,
      List.head?_append, List.head?_reverse, h.getLast?]
    cases (List.drop _ (Text.trimRight text).reverse).head? <;> rfl
  · rw [htrim, hnil]
    simp

theorem isGroupArgument_front (h : front.Front) (text : Text) :
    isGroupArgument (front ++ text) = isGroupArgument text := by
  rw [isGroupArgument, isGroupArgument, endsInCommand_front h, List.getLast?_append, h.getLast?]
  cases text.getLast? <;> rfl

theorem collect_front (h : front.Front) (treat : Treatment) (rounds : Nat) (before text : Text) :
    collect treat rounds (front ++ before) text =
      (front ++ ·) <$> collect treat rounds before text := by
  induction rounds generalizing before text with
  | zero => simp [collect]
  | succ rounds ih =>
    rw [collect, collect]
    cases Text.breakOn? ['{'] text with
    | none => simp
    | some found =>
      obtain ⟨skipped, after⟩ := found
      simp only [List.append_assoc]
      rw [isGroupArgument_front h, ih, ih]
      split
      · rfl
      · cases Delimiters.curly.splitClosing? after with
        | none => rfl
        | some parts =>
          simp only [map_bind, ih]

theorem passesOver_setBuilders (h : front.Front) :
    Step.PassesOver Construct.setBuilders front := by
  intro rounds treat text
  have hshift : collect treat rounds [] (front ++ text) = collect treat rounds front text := by
    cases rounds with
    | zero => rfl
    | succ rounds =>
      rw [collect, collect, Text.breakOn?_front h (by decide)]
      cases Text.breakOn? ['{'] text <;> rfl
  have hcollect := collect_front h treat rounds [] text
  rw [List.append_nil] at hcollect
  exact hshift.trans hcollect

end SetBuilder

namespace Pipe

/-- The state of a walk, with all positions counted from `n` characters further left. -/
def State.shift (n : Nat) (state : State) : State :=
  ⟨state.opened.map (· + n), state.first.map fun p => (p.1 + n, p.2 + n)⟩

theorem step_shift (n : Nat) (state : State) (index : Nat) (previous next : Option Char) :
    step (state.shift n) (index + n) previous next =
      (step state index previous next).map (State.shift n) := by
  obtain ⟨opened, first⟩ := state
  have hbehind : (opened.map (· + n)).head?.any (· + 1 == index + n) =
      opened.head?.any (· + 1 == index) := by
    cases opened with
    | nil => rfl
    | cons i opened =>
      have hiff : (i + n + 1 = index + n) ↔ (i + 1 = index) := by omega
      simp [hiff]
  simp only [step, State.shift, hbehind, List.isEmpty_map]
  split
  · rfl
  · cases opened with
    | nil => rfl
    | cons i opened => cases first <;> rfl

theorem walk_shift (n : Nat) (state : State) (index : Nat) (previous : Option Char) (text : Text) :
    walk (state.shift n) (index + n) previous text =
      (walk state index previous text).map (State.shift n) := by
  induction text generalizing state index previous with
  | nil => rfl
  | cons c text ih =>
    rw [walk, walk, step_shift, Nat.add_right_comm]
    by_cases hpipe : (c == '|') = true
    · rw [if_pos hpipe, if_pos hpipe]
      cases step state index previous text.head? with
      | none => rfl
      | some state => exact ih state (index + 1) (some c)
    · rw [if_neg hpipe, if_neg hpipe]
      exact ih state (index + 1) (some c)

/-- A walk begins behind a space as it begins at the start of a line. -/
theorem walk_space (state : State) (index : Nat) (text : Text) :
    walk state index (some ' ') text = walk state index none text := by
  cases text with
  | nil => rfl
  | cons c text => rfl

theorem pair?_front (h : front.Front) (text : Text) :
    pair? (front ++ text) =
      (pair? text).map fun p => (p.1 + front.length, p.2 + front.length) := by
  have hpass : Walks none front fun _ => none := walks_of_not_mem (h.not_mem (by decide))
  have hwalk : walk ⟨[], none⟩ 0 none (front ++ text) =
      (walk ⟨[], none⟩ 0 none text).map (State.shift front.length) := by
    rw [hpass, h.getLast?, Option.some_or, walk_space]
    exact walk_shift front.length ⟨[], none⟩ 0 none text
  rw [pair?, pair?, hwalk]
  cases walk ⟨[], none⟩ 0 none text with
  | none => rfl
  | some state =>
    obtain ⟨opened, first⟩ := state
    cases opened <;> rfl

theorem passesOver_absoluteValues (h : front.Front) :
    Step.PassesOver Construct.absoluteValues front := by
  intro rounds treat text
  induction rounds generalizing text with
  | zero => rfl
  | succ rounds ih =>
    rw [Construct.absoluteValues, Construct.absoluteValues, pair?_front h]
    cases pair? text with
    | none => rfl
    | some found =>
      obtain ⟨first, last⟩ := found
      simp only [Option.map_some, Nat.add_right_comm _ front.length 1, Text.take_behind,
        Text.drop_behind, map_bind, List.append_assoc]
      refine bind_congr fun inner => ?_
      refine bind_congr fun marker => ?_
      exact ih _

end Pipe

/-! ## Operands -/

section Ends

variable {accepts : Option Char → Text → Bool}

/-- An end of a text that cannot hold a character is found behind it. -/
theorem longestEnd?_behind {x : Char}
    (hx : ∀ previous found, accepts previous found = true → x ∉ found) (previous : Option Char)
    (start text : Text) :
    longestEnd? accepts previous (start ++ x :: text) =
      (longestEnd? accepts (some x) text).map fun (before, found) =>
        (start ++ x :: before, found) := by
  have hnot : ∀ {previous found}, x ∈ found → ¬ accepts previous found = true :=
    fun hmem haccepts => hx _ _ haccepts hmem
  induction start generalizing previous with
  | nil => rw [List.nil_append, longestEnd?, if_neg (hnot List.mem_cons_self)]; rfl
  | cons c start ih =>
    rw [List.cons_append, longestEnd?, if_neg (hnot (by simp)), ih, Option.map_map]
    rfl

theorem longestEnd?_front (h : front.Front)
    (hspace : ∀ previous found, accepts previous found = true → ' ' ∉ found)
    (hprevious : ∀ found, accepts (some ' ') found = accepts none found) (text : Text) :
    longestEnd? accepts none (front ++ text) =
      (longestEnd? accepts none text).map fun (before, found) => (front ++ before, found) := by
  have hsame : longestEnd? accepts (some ' ') text = longestEnd? accepts none text := by
    cases text with
    | nil => rw [longestEnd?, longestEnd?, hprevious]
    | cons c text => rw [longestEnd?, longestEnd?, hprevious]
  obtain ⟨start, rfl⟩ := h.ends
  have hend := longestEnd?_behind hspace none (start ++ ['+']) text
  rw [hsame] at hend
  simpa using hend

end Ends

theorem dropFinalNewline_front (h : front.Front) (text : Text) :
    dropFinalNewline (front ++ text) = front ++ dropFinalNewline text := by
  unfold dropFinalNewline
  rw [List.getLast?_append, h.getLast?]
  cases hlast : text.getLast? with
  | none =>
    rw [List.getLast?_eq_none_iff.mp hlast]
    rfl
  | some c =>
    have hne : text ≠ [] := by
      rintro rfl
      cases hlast
    rw [Option.some_or, List.dropLast_append_of_ne_nil hne]
    split <;> rfl

theorem Marker.space_not_mem_ofDigits {digits : Text} (h : ∀ c ∈ digits, isDecimal c = true) :
    ' ' ∉ ofDigits digits := by
  intro hspace
  simp only [ofDigits, List.mem_append] at hspace
  rcases hspace with (hspace | hspace) | hspace
  · exact absurd hspace (by decide)
  · exact absurd (h _ hspace) (by decide)
  · exact absurd hspace (by decide)

theorem Marker.atEnd?_front (h : front.Front) (text : Text) :
    atEnd? (front ++ text) =
      (atEnd? text).map fun (before, marker) => (front ++ before, marker) := by
  rw [atEnd?, atEnd?, dropFinalNewline_front h]
  refine longestEnd?_front h (fun _ found hfound => ?_) (fun _ => rfl) _
  obtain ⟨digits, rfl, -, hdigits⟩ := isMarker_iff.mp hfound
  exact space_not_mem_ofDigits hdigits

namespace Delimiters

theorem offset?_append {pair : Delimiters} {rest : Text}
    (hrest : ∀ c ∈ rest, pair.opens c = false ∧ pair.closes c = false) (depth : Nat) (text : Text) :
    pair.offset? depth (text ++ rest) = pair.offset? depth text := by
  induction text generalizing depth with
  | nil =>
    rw [List.nil_append]
    induction rest with
    | nil => rfl
    | cons c rest ih =>
      obtain ⟨hopens, hcloses⟩ := hrest c List.mem_cons_self
      rw [offset?.eq_def]
      simp only [hopens, hcloses, Bool.false_eq_true, if_false]
      rw [ih fun d hd => hrest d (List.mem_cons_of_mem c hd)]
      rfl
  | cons c text ih =>
    rw [List.cons_append, offset?.eq_def, offset?.eq_def pair depth (c :: text)]
    cases depth <;> simp only [ih]

/-- Matching brackets from right to left does not go on into a front. -/
theorem splitOpening?_front (h : front.Front) (text : Text) :
    round.splitOpening? (front ++ text) =
      (round.splitOpening? text).map fun (before, content) => (front ++ before, content) := by
  have hfront : ∀ c ∈ front.reverse, round.swap.opens c = false ∧ round.swap.closes c = false := by
    intro c hc
    have hquiet := h.quiet c (List.mem_reverse.mp hc)
    constructor
    · by_contra hopens
      obtain rfl : ')' = c := by simpa [opens, round, swap] using hopens
      exact absurd hquiet (by decide)
    · by_contra hcloses
      obtain rfl : '(' = c := by simpa [closes, round, swap] using hcloses
      exact absurd hquiet (by decide)
  rw [splitOpening?, splitOpening?, splitClosing?, splitClosing?, List.reverse_append,
    offset?_append hfront]
  cases hoffset : round.swap.offset? 0 text.reverse with
  | none => rfl
  | some n =>
    obtain ⟨c, -, htext⟩ := offset?_spec hoffset
    have hlength : n + 1 ≤ text.reverse.length := by
      have := congrArg List.length htext
      simp only [List.length_append, List.length_cons, List.length_take, List.length_drop] at this
      omega
    simp [List.take_append_of_le_length (Nat.le_of_succ_le hlength),
      List.drop_append_of_le_length hlength]

end Delimiters

namespace Operand

theorem not_mem_of_isAtom {text : Text} (h : isAtom text = true) {c : Char}
    (hbackslash : c ≠ '\\') (hname : isNameChar c = false) : c ∉ text := by
  have hall : ∀ rest : Text, rest.all isNameChar = true → c ∉ rest := fun rest hrest hmem => by
    rw [List.all_eq_true.mp hrest c hmem] at hname
    cases hname
  cases text with
  | nil => exact List.not_mem_nil
  | cons d rest =>
    rw [isAtom] at h
    rw [List.mem_cons, not_or]
    split at h
    · rename_i hsame
      rw [Bool.and_eq_true] at h
      exact ⟨fun hc => hbackslash (hc.trans (beq_iff_eq.mp hsame)), hall rest h.2⟩
    · rw [Bool.and_eq_true] at h
      refine ⟨?_, hall rest h.2⟩
      rintro rfl
      rw [h.1] at hname
      cases hname

theorem space_not_mem_of_isIdentifier {previous : Option Char} {text : Text}
    (h : isIdentifier previous text = true) : ' ' ∉ text := by
  have hplain : ∀ rest, isPlainIdentifier rest = true → ' ' ∉ rest := by
    intro rest hrest hmem
    cases rest with
    | nil => cases hmem
    | cons d rest =>
      rw [isPlainIdentifier, Bool.and_eq_true, List.all_eq_true] at hrest
      rcases List.mem_cons.mp hmem with rfl | hmem
      · exact absurd hrest.1 (by decide)
      · exact absurd (hrest.2 _ hmem) (by decide)
  rw [isIdentifier, Bool.and_eq_true] at h
  have hname := hplain _ h.2
  cases hcommand : Text.after? '\\' text with
  | none => rwa [hcommand, Option.getD_none] at hname
  | some rest =>
    rw [hcommand, Option.getD_some] at hname
    rw [Text.after?_eq_some_iff.mp hcommand, List.mem_cons, not_or]
    exact ⟨by decide, hname⟩

/-- An end of a text without a space starts behind a front where it starts in the text alone. -/
theorem endStart_front (h : front.Front) {accepts : Option Char → Text → Bool}
    (hspace : ∀ previous found, accepts previous found = true → ' ' ∉ found)
    (hprevious : ∀ found, accepts (some ' ') found = accepts none found) (text : Text) :
    (longestEnd? accepts none (dropFinalNewline (front ++ text))).map (·.1.length) =
      ((longestEnd? accepts none (dropFinalNewline text)).map (·.1.length)).map
        (· + front.length) := by
  rw [dropFinalNewline_front h, longestEnd?_front h hspace hprevious, Option.map_map,
    Option.map_map]
  refine congrArg (Option.map · _) (funext fun p => ?_)
  simp [Nat.add_comm]

theorem atomStart?_front (h : front.Front) (text : Text) :
    atomStart? (front ++ text) = (atomStart? text).map (· + front.length) :=
  endStart_front h (fun _ _ hfound => not_mem_of_isAtom hfound (by decide) (by decide))
    (fun _ => rfl) text

theorem identifierStart?_front (h : front.Front) (text : Text) :
    identifierStart? (front ++ text) = (identifierStart? text).map (· + front.length) := by
  have hspace : ∀ previous found, isIdentifier previous found = true → ' ' ∉ found :=
    fun _ _ => space_not_mem_of_isIdentifier
  exact endStart_front h hspace (fun _ => rfl) text

theorem unscriptedStart?_front (h : front.Front) (text : Text) :
    unscriptedStart? (front ++ text) = (unscriptedStart? text).map (· + front.length) := by
  rw [unscriptedStart?, unscriptedStart?, List.getLast?_append, h.getLast?]
  by_cases hlast : text.getLast? = some ')'
  · have hne : text ≠ [] := by
      rintro rfl
      cases hlast
    rw [hlast, Option.some_or, if_pos (beq_self_eq_true _), if_pos (beq_self_eq_true _),
      List.dropLast_append_of_ne_nil hne, Delimiters.splitOpening?_front h, Option.map_map,
      Option.map_map]
    refine congrArg (Option.map · _) (funext fun p => ?_)
    simp only [Function.comp_apply, identifierStart?_front h]
    cases identifierStart? p.1 with
    | none => simp [Nat.add_comm]
    | some start => rfl
  · have hother : (text.getLast?.or (some ' ') == some ')') = false := by
      cases hchar : text.getLast? with
      | none => rfl
      | some c =>
        rw [hchar] at hlast
        simpa using hlast
    rw [hother, if_neg (by simp), if_neg (by simpa using hlast), atomStart?_front h]

theorem unscriptedStart?_lt {text : Text} {start : Nat} (h : unscriptedStart? text = some start) :
    start < text.length := by
  obtain ⟨a, b, rfl, rfl, hne, -⟩ := startsAt_unscripted h
  have := List.length_pos_iff.mpr hne
  rw [List.length_append]
  omega

theorem pos_of_isScriptMark {text : Text} {start : Nat}
    (h : (text.take start).getLast?.any isScriptMark = true) : 0 < start := by
  rcases Nat.eq_zero_or_pos start with rfl | hpos
  · simp at h
  · exact hpos

/-- Every move to the base of a script goes to the left, so a budget that is out of reach makes no
difference. -/
theorem baseStart_budget (text : Text) {start budget budget' : Nat} (h : start ≤ budget)
    (h' : start ≤ budget') : baseStart text budget start = baseStart text budget' start := by
  induction start using Nat.strongRecOn generalizing budget budget' with
  | ind start ih =>
    by_cases hmark : (text.take start).getLast?.any isScriptMark = true
    · have hpos := pos_of_isScriptMark hmark
      obtain ⟨budget, rfl⟩ : ∃ b, budget = b + 1 := ⟨budget - 1, by omega⟩
      obtain ⟨budget', rfl⟩ : ∃ b, budget' = b + 1 := ⟨budget' - 1, by omega⟩
      rw [baseStart, baseStart, if_pos hmark, if_pos hmark]
      cases hbase : unscriptedStart? (text.take (start - 1)) with
      | none => rfl
      | some base =>
        have hlt := unscriptedStart?_lt hbase
        rw [List.length_take] at hlt
        exact ih base (by omega) (by omega) (by omega)
    · have hstay : ∀ budget, baseStart text budget start = start := by
        intro budget
        cases budget with
        | zero => rfl
        | succ budget => rw [baseStart, if_neg hmark]
      rw [hstay, hstay]

theorem baseStart_front (h : front.Front) (text : Text) (budget start : Nat) :
    baseStart (front ++ text) budget (start + front.length) =
      baseStart text budget start + front.length := by
  induction budget generalizing start with
  | zero => rfl
  | succ budget ih =>
    have hlast : ((front ++ text).take (start + front.length)).getLast?.any isScriptMark =
        (text.take start).getLast?.any isScriptMark := by
      rw [Text.take_behind, List.getLast?_append, h.getLast?]
      cases (text.take start).getLast? <;> rfl
    rw [baseStart, baseStart, hlast]
    by_cases hmark : (text.take start).getLast?.any isScriptMark = true
    · have hpos := pos_of_isScriptMark hmark
      rw [if_pos hmark, if_pos hmark, Nat.sub_add_comm hpos, Text.take_behind,
        unscriptedStart?_front h]
      cases unscriptedStart? (text.take (start - 1)) with
      | none => rfl
      | some base => exact ih base
    · rw [if_neg hmark, if_neg hmark]

theorem start?_front (h : front.Front) (text : Text) :
    start? (front ++ text) = (start? text).map (· + front.length) := by
  rw [start?, start?, unscriptedStart?_front h, Option.map_map, Option.map_map]
  cases hstart : unscriptedStart? text with
  | none => rfl
  | some start =>
    have hlt := unscriptedStart?_lt hstart
    simp only [Option.map_some, Function.comp_apply, Option.some.injEq]
    rw [baseStart_front h, baseStart_budget text (by rw [List.length_append]; omega) hlt.le]

/-- Nothing ends in an operand where a sign stands. -/
theorem start?_plus (text : Text) : start? (text ++ ['+']) = none := by
  have hend : longestEnd? (fun _ => isAtom) none (text ++ ['+']) = none := by
    rw [longestEnd?_behind fun _ found hfound => not_mem_of_isAtom hfound (by decide) (by decide)]
    rfl
  have hdrop : dropFinalNewline (text ++ ['+']) = text ++ ['+'] := by simp [dropFinalNewline]
  simp [start?, unscriptedStart?, atomStart?, hdrop, hend]

theorem unscriptedWidth?_front (h : front.Front) (before text : Text) :
    unscriptedWidth? (front ++ before) text = unscriptedWidth? before text := by
  unfold unscriptedWidth?
  cases Text.after? '(' text with
  | some rest => rfl
  | none => simp only [List.append_assoc, Marker.atEnd?_front h, Option.isNone_map]

theorem scriptedWidth_front (h : front.Front) (before text : Text) (budget width : Nat) :
    scriptedWidth (front ++ before) text budget width = scriptedWidth before text budget width := by
  induction budget generalizing width with
  | zero => rfl
  | succ budget ih =>
    simp only [scriptedWidth, List.append_assoc, unscriptedWidth?_front h, ih]

theorem width?_front (h : front.Front) (before text : Text) :
    width? (front ++ before) text = width? before text := by
  rw [width?, width?, unscriptedWidth?_front h]
  exact congrArg (Option.map · _) (funext fun width => scriptedWidth_front h before text _ width)

end Operand

namespace Fraction

/-- A fraction behind a front. -/
def behind (front : Text) (fraction : Fraction) : Fraction :=
  { fraction with before := front ++ fraction.before }

theorem at?_front (h : front.Front) (grouped : Bool) (before after : Text) :
    at? grouped (front ++ before) after = (at? grouped before after).map (behind front) := by
  unfold at?
  simp only [List.append_assoc, Operand.width?_front h]
  rcases h.trimRight before with ⟨hne, htrim⟩ | ⟨hnil, start, htrim⟩
  · rw [htrim, Operand.start?_front h, List.getLast?_append_of_ne_nil _ hne]
    cases Operand.start? (Text.trimRight before) with
    | none => rfl
    | some start =>
      cases Operand.width? (before ++ '/' :: after.takeWhile isBlank) (Text.trimLeft after) with
      | none => rfl
      | some width =>
        simp only [Option.map_some, Text.take_behind, Text.drop_behind]
        split <;> rfl
  · rw [htrim, hnil, Operand.start?_plus]
    rfl

theorem findFrom?_front (h : front.Front) (grouped : Bool) (passed text : Text) :
    findFrom? grouped (passed ++ front.reverse) text =
      (findFrom? grouped passed text).map (behind front) := by
  induction text generalizing passed with
  | nil => rfl
  | cons c text ih =>
    rw [findFrom?, findFrom?, List.reverse_append, List.reverse_reverse, at?_front h,
      ← List.cons_append, ih]
    split
    · cases at? grouped passed.reverse text <;> rfl
    · rfl

theorem find?_front (h : front.Front) (grouped : Bool) (text : Text) :
    find? grouped (front ++ text) = (find? grouped text).map (behind front) := by
  rw [find?, find?, findFrom?_pass (h.not_mem (by decide)), List.append_nil,
    ← findFrom?_front h grouped [] text]
  rfl

theorem collect_front (h : front.Front) (grouped : Bool) (treat : Treatment) (rounds : Nat)
    (text : Text) :
    collect grouped treat rounds (front ++ text) =
      (front ++ ·) <$> collect grouped treat rounds text := by
  induction rounds generalizing text with
  | zero => rfl
  | succ rounds ih =>
    rw [collect, collect, find?_front h]
    cases find? grouped text with
    | none => rfl
    | some fraction =>
      simp only [Option.map_some, behind, map_bind, List.append_assoc, ih]

theorem passesOver_fractions (h : front.Front) : Step.PassesOver Construct.fractions front := by
  intro rounds treat text
  simp only [Construct.fractions, collect_front h, bind_map_left, map_bind]

end Fraction

/-! ## Scripts -/

/-- A pattern of which every hit is a letter with a subscript has none in a front. -/
theorem Text.Front.misses_of_subscript (h : front.Front) {α : Type} {pattern : Pattern α}
    (hletter : ∀ previous c text, c.isAlpha = false → pattern previous (c :: text) = none)
    (hunderscore : ∀ previous c d text, d ≠ '_' → pattern previous (c :: d :: text) = none)
    (previous : Option Char) (text : Text) : pattern.Misses previous front text := by
  have key : ∀ (a : Text) (previous : Option Char),
      a.IsChain (fun c d => c.isAlpha = true → d ≠ '_') → (∀ c ∈ a.getLast?, c.isAlpha = false) →
        pattern.Misses previous a text := by
    intro a
    induction a with
    | nil => exact fun _ _ _ => Pattern.misses_nil
    | cons c a ih =>
      intro previous hchain hlast
      cases a with
      | nil => exact ⟨hletter _ _ _ (hlast c rfl), Pattern.misses_nil⟩
      | cons d a =>
        obtain ⟨hpair, hrest⟩ := List.isChain_cons_cons.mp hchain
        refine ⟨?_, ih (some c) hrest hlast⟩
        by_cases hc : c.isAlpha = true
        · exact hunderscore _ _ _ _ (hpair hc)
        · exact hletter _ _ _ (by simpa using hc)
  refine key front previous h.bare fun c hc => ?_
  rw [h.getLast?] at hc
  obtain rfl := Option.mem_some.mp hc
  rfl

/-- A pattern of which every hit has a caret, and no space in front of it, has none in a front. -/
theorem Text.Front.misses_of_caret (h : front.Front) {α : Type} {pattern : Pattern α}
    (hcaret : ∀ ⦃previous text hit⦄, pattern previous text = some hit →
      ∃ a b, text = a ++ '^' :: b ∧ ' ' ∉ a)
    (previous : Option Char) (text : Text) : pattern.Misses previous front text := by
  -- The caret of a hit would stand in front of the space, or the space in front of the caret.
  have hnone : ∀ (a : Text) (previous : Option Char), '^' ∉ a →
      pattern previous (a ++ ' ' :: text) = none := by
    intro a previous hnot
    by_contra hne
    obtain ⟨hit, hhit⟩ := Option.ne_none_iff_exists'.mp hne
    obtain ⟨x, y, hsplit, hspace⟩ := hcaret hhit
    rcases char_cases hsplit with ⟨z, rfl, hz⟩ | ⟨z, rfl, -⟩
    · cases z with
      | nil => cases hz
      | cons d z =>
        cases hz
        exact hspace (by simp)
    · exact hnot (by simp)
  have key : ∀ (a : Text) (previous : Option Char), '^' ∉ a →
      pattern.Misses previous (a ++ [' ']) text := by
    intro a
    induction a with
    | nil => exact fun previous hnot => ⟨hnone [] previous hnot, Pattern.misses_nil⟩
    | cons c a ih =>
      intro previous hnot
      refine ⟨?_, ih (some c) fun hmem => hnot (List.mem_cons_of_mem c hmem)⟩
      have hhere := hnone (c :: a) previous hnot
      simpa using hhere
  obtain ⟨start, hstart⟩ := h.ends
  have hfront : front = (start ++ ['+']) ++ [' '] := by simp [hstart]
  have hnot : '^' ∉ front := h.not_mem (by decide)
  rw [hfront] at hnot ⊢
  exact key _ previous fun hmem => hnot (List.mem_append_left _ hmem)

namespace Script

theorem passesOver_subscripts (h : front.Front) : Step.PassesOver Construct.subscripts front := by
  intro rounds treat text
  have hhead : ∀ text, subscriptHead.Misses none front text :=
    h.misses_of_subscript (fun _ c text hc => by simp [subscriptHead, hc])
      (fun _ c d text hd => by simp [subscriptHead, Text.after?, hd]) none
  have hbare : ∀ text, (bare Char.isAlpha '_').Misses none front text :=
    h.misses_of_subscript (fun _ c text hc => by simp [bare, hc])
      (fun _ c d text hd => by simp [bare, Text.after?, hd]) none
  simp only [Construct.subscripts, Call.collect_front h (fun _ => rfl) (hhead _), bind_map_left,
    map_bind, Pattern.replaceM_behind_space (fun _ => rfl) h.getLast? (hbare _)]

theorem exponentBase?_front (h : front.Front) (before : Text) :
    exponentBase? (front ++ before) =
      (exponentBase? before).map fun (start, base) => (start + front.length, base) := by
  rw [exponentBase?, exponentBase?, Marker.atEnd?_front h]
  cases Marker.atEnd? before with
  | some found => simp [Nat.add_comm]
  | none =>
    simp only [Option.map_none]
    rw [List.getLast?_append, h.getLast?]
    cases hlast : before.getLast? with
    | none => rfl
    | some last =>
      have hne : before ≠ [] := by
        rintro rfl
        cases hlast
      have hlength := List.length_pos_iff.mpr hne
      simp only [Option.some_or, List.dropLast_append_of_ne_nil hne,
        Delimiters.splitOpening?_front h]
      split
      · cases Delimiters.round.splitOpening? before.dropLast with
        | none => rfl
        | some parts => simp [Nat.add_comm front.length, Text.drop_behind]
      · split
        · simp only [Option.map_some, List.length_append, Option.some.injEq, Prod.mk.injEq,
            and_true]
          omega
        · rfl

theorem collectExponents_front (h : front.Front) (treat : Treatment) (rounds : Nat)
    (before text : Text) :
    collectExponents treat rounds (front ++ before) text =
      (front ++ ·) <$> collectExponents treat rounds before text := by
  induction rounds generalizing before text with
  | zero => simp [collectExponents]
  | succ rounds ih =>
    rw [collectExponents, collectExponents]
    cases Text.breakOn? "^(" text with
    | none => simp
    | some found =>
      obtain ⟨skipped, after⟩ := found
      simp only [List.append_assoc, exponentBase?_front h]
      cases Delimiters.round.splitClosing? after with
      | none => simp only [ih]
      | some parts =>
        cases exponentBase? (before ++ skipped) with
        | none => simp only [Option.map_none, ih]
        | some base =>
          simp only [Option.map_some, Text.take_behind, map_bind, ih]

theorem misses_bareExponent (h : front.Front) (previous : Option Char) (text : Text) :
    bareExponent.Misses previous front text := by
  refine h.misses_of_caret (fun previous text hit hhit => ?_) previous text
  obtain ⟨matched, after, rfl, -, -, rfl, hbase, -⟩ := recognises_bareExponent hhit
  refine ⟨[hit.value.1], hit.value.2 ++ after, by simp, fun hspace => ?_⟩
  rw [← List.mem_singleton.mp hspace] at hbase
  exact absurd hbase (by decide)

theorem misses_markerExponent (h : front.Front) (previous : Option Char) (text : Text) :
    markerExponent.Misses previous front text := by
  refine h.misses_of_caret (fun previous text hit hhit => ?_) previous text
  obtain ⟨matched, after, rfl, -, -, digits, hmarker, hdigits, hmatched⟩ :=
    recognises_markerExponent hhit
  have hspace : ' ' ∉ hit.value.1 := by
    rw [hmarker]
    exact Marker.space_not_mem_ofDigits hdigits.2
  rcases hmatched with rfl | ⟨rfl, -⟩
  · exact ⟨hit.value.1, '{' :: (hit.value.2 ++ ['}']) ++ after, by simp, hspace⟩
  · exact ⟨hit.value.1, hit.value.2 ++ after, by simp, hspace⟩

theorem collectMarkerExponents_front (h : front.Front) (rounds : Nat) (text : Text) :
    collectMarkerExponents rounds (front ++ text) =
      (front ++ ·) <$> collectMarkerExponents rounds text := by
  induction rounds generalizing text with
  | zero => rfl
  | succ rounds ih =>
    have hspace : markerExponent.find? (some ' ') text = markerExponent.find? none text :=
      @Pattern.find?_congr _ markerExponent (some ' ') none (fun _ => rfl) text
    rw [collectMarkerExponents, collectMarkerExponents,
      Pattern.find?_pass (misses_markerExponent h none text), h.getLast?, Option.some_or, hspace]
    cases markerExponent.find? none text with
    | none => rfl
    | some cut =>
      simp only [Option.map_some, List.append_assoc, ih, map_bind]

theorem passesOver_exponents (h : front.Front) : Step.PassesOver Construct.exponents front := by
  intro rounds treat text
  have hshift : collectExponents treat rounds [] (front ++ text) =
      collectExponents treat rounds front text := by
    cases rounds with
    | zero => rfl
    | succ rounds =>
      rw [collectExponents, collectExponents, Text.breakOn?_front h (by decide)]
      cases Text.breakOn? "^(" text <;> rfl
  have hgrouped := collectExponents_front h treat rounds [] text
  rw [List.append_nil, ← hshift] at hgrouped
  simp only [Construct.exponents, hgrouped, bind_map_left, map_bind, collectMarkerExponents_front h,
    Pattern.replaceM_behind_space (fun _ => rfl) h.getLast? (misses_bareExponent h none _)]

end Script

/-! ## Extraction -/

namespace Construct

theorem passesOver_of_mem_steps (h : front.Front) : ∀ step ∈ steps, Step.PassesOver step front := by
  simp only [steps, List.forall_mem_cons]
  exact ⟨Call.passesOver_step h (by decide) _, Bound.passesOver_boundedOperators h,
    Call.passesOver_step h (by decide) _, Call.passesOver_step h (by decide) _,
    Call.passesOver_step h (by decide) _, Vector.passesOver_vectors h,
    Call.passesOver_step h (by decide) _, SetBuilder.passesOver_setBuilders h,
    Pipe.passesOver_absoluteValues h, Fraction.passesOver_fractions h,
    Script.passesOver_subscripts h, Script.passesOver_exponents h, List.forall_mem_nil _⟩

theorem foldlM_front {list : List Step} (hlist : ∀ step ∈ list, Step.PassesOver step front)
    (rounds : Nat) (treat : Treatment) (text : Text) :
    list.foldlM (fun text (step : Step) => step rounds treat text) (front ++ text) =
      (front ++ ·) <$> list.foldlM (fun text (step : Step) => step rounds treat text) text := by
  induction list generalizing text with
  | nil => rfl
  | cons step list ih =>
    obtain ⟨hstep, hlist⟩ := List.forall_mem_cons.mp hlist
    rw [List.foldlM_cons, List.foldlM_cons, hstep, bind_map_left, map_bind]
    exact bind_congr fun text => ih hlist text

/-- **Extraction leaves a front where it is**, and does to the line behind it what it does to the
line alone. -/
theorem extract_front (h : front.Front) (rounds depth : Nat) (text : Text) :
    extract rounds (depth + 1) (front ++ text) =
      (front ++ ·) <$> extract rounds (depth + 1) text := by
  rw [extract_succ, extract_succ]
  exact foldlM_front (passesOver_of_mem_steps h) rounds _ text

end Construct

end MathNotes
