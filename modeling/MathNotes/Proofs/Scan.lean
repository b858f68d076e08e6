import MathNotes.Text.Pattern
import Mathlib.Data.List.Basic
import Mathlib.Data.List.SplitBy
import Mathlib.Data.List.TakeWhile
import Mathlib.Data.Option.Basic

/-!
# Reading a text cut by cut

`Pattern.pieces` reads a text character by character.  Proofs about what happens at the hits read
it hit by hit instead: the text up to the first hit, the hit, and the reading of what stands behind
it.  `Reading` is that view, and `reading_pieces` says that the pieces of a text are such a reading.

A first hit is where `find?` cuts: `find?_spec` gives the parts of the cut, and the hit that the
pattern makes there.
-/

namespace MathNotes

/-! ## Deciding about the characters of a text, and about its first or last one

These come before the search through all characters that there are. -/

instance (priority := 2000) Text.decidableForallMem {p : Char → Prop} [DecidablePred p]
    (text : List Char) : Decidable (∀ c ∈ text, p c) := List.decidableBAll p text

instance (priority := 2000) Text.decidableExistsMem {p : Char → Prop} [DecidablePred p]
    (text : List Char) : Decidable (∃ c ∈ text, p c) := List.decidableBEx p text

instance (priority := 2000) Text.decidableForallMemOption {p : Char → Prop} [DecidablePred p]
    (c? : Option Char) : Decidable (∀ c ∈ c?, p c) := Option.decidableForallMem c?

instance (priority := 2000) Text.decidableExistsMemOption {p : Char → Prop} [DecidablePred p]
    (c? : Option Char) : Decidable (∃ c ∈ c?, p c) := Option.decidableExistsMem c?

/-! ## Cuts -/

/-- The text behind a given prefix: `isPrefixOf?` as an equation. -/
theorem isPrefixOf?_eq_some_iff {lead text rest : Text} :
    lead.isPrefixOf? text = some rest ↔ text = lead ++ rest :=
  List.isPrefixOf?_eq_some_iff_append_eq.trans eq_comm

theorem isPrefixOf?_append (lead rest : Text) : lead.isPrefixOf? (lead ++ rest) = some rest :=
  isPrefixOf?_eq_some_iff.mpr rfl

theorem Text.after?_eq_some_iff {c : Char} {text rest : Text} :
    Text.after? c text = some rest ↔ text = c :: rest := by
  cases text with
  | nil => simp [Text.after?]
  | cons d text =>
    simp only [Text.after?, beq_iff_eq, Option.ite_none_right_eq_some, Option.some.injEq,
      List.cons.injEq]

@[simp] theorem Text.after?_cons_self (c : Char) (rest : Text) :
    Text.after? c (c :: rest) = some rest :=
  Text.after?_eq_some_iff.mpr rfl

/-- A list is cut at a position. -/
theorem eq_take_cons_drop {α : Type} {list : List α} {i : Nat} {x : α} (h : list[i]? = some x) :
    list = list.take i ++ x :: list.drop (i + 1) := by
  obtain ⟨hi, hx⟩ := List.getElem?_eq_some_iff.mp h
  rw [← hx, List.getElem_cons_drop, List.take_append_drop]

/-! ## Runs -/

theorem drop_takeWhile (p : Char → Bool) (text : Text) :
    text.drop (text.takeWhile p).length = text.dropWhile p := by
  have h := List.takeWhile_append_dropWhile (p := p) (l := text)
  conv => lhs; arg 2; rw [← h]
  rw [List.drop_left]

theorem head?_dropWhile_stops {p : Char → Bool} {text : Text} :
    ∀ c ∈ (text.dropWhile p).head?, p c = false := by
  intro c hc
  have h := List.head?_dropWhile_not p text
  rw [Option.mem_def.mp hc] at h
  exact h

theorem takeWhile_append_stop {p : Char → Bool} {run rest : Text} (hrun : ∀ c ∈ run, p c = true)
    (hrest : ∀ c ∈ rest.head?, p c = false) : (run ++ rest).takeWhile p = run := by
  rw [List.takeWhile_append_of_pos hrun]
  cases rest with
  | nil => simp
  | cons c rest => rw [List.takeWhile_cons_of_neg (by simp [hrest c rfl]), List.append_nil]

theorem dropWhile_append_stop {p : Char → Bool} {run rest : Text} (hrun : ∀ c ∈ run, p c = true)
    (hrest : ∀ c ∈ rest.head?, p c = false) : (run ++ rest).dropWhile p = rest := by
  rw [← drop_takeWhile, takeWhile_append_stop hrun hrest, List.drop_left]

/-- A longest run of one class is split off. -/
theorem splitBy_append_run {p : Char → Bool} {holds : Bool} {run rest : Text} (hne : run ≠ [])
    (hall : ∀ c ∈ run, p c = holds) (hstops : ∀ c ∈ rest.head?, p c = !holds) :
    (run ++ rest).splitBy (fun c d => p c == p d) = run :: rest.splitBy fun c d => p c == p d := by
  have hends : ∀ c ∈ run.getLast?, ∀ d ∈ rest.head?, (p c == p d) = false := by
    intro c hc d hd
    rw [hall c (List.mem_of_getLast? hc), hstops d hd]
    cases holds <;> rfl
  have hchain : run.IsChain fun c d => (p c == p d) = true := by
    refine List.Pairwise.isChain (List.pairwise_of_forall_mem_list fun c hc d hd => ?_)
    rw [hall c hc, hall d hd, beq_self_eq_true]
  rw [List.splitBy_append hends, List.splitBy_of_isChain hne hchain, List.singleton_append]

/-- The character in front of what follows a text, when `previous` stands in front of the text. -/
theorem getLast?_cons_or (c : Char) (text : Text) (previous : Option Char) :
    (c :: text).getLast?.or previous = text.getLast?.or (some c) := by
  rw [List.getLast?_cons]
  cases text.getLast? <;> rfl

/-- A character of two texts, one behind the other, stands in the second or in the first. -/
theorem char_cases {a b x y : Text} {c : Char} (h : a ++ b = x ++ c :: y) :
    (∃ t, x = a ++ t ∧ b = t ++ c :: y) ∨ ∃ t, a = x ++ c :: t ∧ y = t ++ b := by
  rcases List.append_eq_append_iff.mp h with ⟨t, hx, hb⟩ | ⟨t, ha, hc⟩
  · exact .inl ⟨t, hx, hb⟩
  · cases t with
    | nil => exact .inl ⟨[], by simpa using ha.symm, by simpa using hc.symm⟩
    | cons d t =>
      rw [List.cons_append] at hc
      obtain ⟨rfl, hy⟩ := List.cons.inj hc
      exact .inr ⟨t, ha, hy⟩

/-- The run of one class at the end of a text is found in one way only. -/
theorem last_run_unique {p : Char → Bool} {l₁ l₂ r₁ r₂ : Text} {x y : Char}
    (h : l₁ ++ x :: r₁ = l₂ ++ y :: r₂) (hx : p x = false) (hy : p y = false)
    (h₁ : ∀ c ∈ r₁, p c = true) (h₂ : ∀ c ∈ r₂, p c = true) : l₁ = l₂ ∧ x = y ∧ r₁ = r₂ := by
  rcases char_cases h with ⟨t, rfl, ht⟩ | ⟨t, rfl, rfl⟩
  · cases t with
    | nil => simpa using ht
    | cons d t =>
      obtain ⟨-, rfl⟩ := List.cons.inj ht
      simp [h₁ y (by simp)] at hy
  · simp [h₂ x (by simp)] at hx

/-! ## The longest end of a text -/

section LongestEnd

variable {accepts : Option Char → Text → Bool} {previous : Option Char} {text before found : Text}

theorem longestEnd?_eq_some (h : longestEnd? accepts previous text = some (before, found)) :
    text = before ++ found ∧ accepts (before.getLast?.or previous) found = true ∧
      ∀ b f, text = b ++ f → b.length < before.length →
        accepts (b.getLast?.or previous) f = false := by
  induction text generalizing previous before found with
  | nil =>
    rw [longestEnd?] at h
    split at h
    · cases h
      exact ⟨rfl, by simpa, fun b f _ hb => absurd hb (by simp)⟩
    · cases h
  | cons c rest ih =>
    rw [longestEnd?] at h
    split at h
    · cases h
      exact ⟨rfl, by simpa, fun b f _ hb => absurd hb (by simp)⟩
    · rename_i hno
      obtain ⟨⟨b', f'⟩, hrest, heq⟩ := Option.map_eq_some_iff.mp h
      cases heq
      obtain ⟨rfl, hacc, hmax⟩ := ih hrest
      refine ⟨rfl, by rw [getLast?_cons_or]; exact hacc, ?_⟩
      intro b f hbf hlt
      cases b with
      | nil =>
        rw [List.nil_append] at hbf
        rw [List.getLast?_nil, Option.none_or, ← hbf]
        simpa using hno
      | cons d b =>
        rw [List.cons_append, List.cons.injEq] at hbf
        obtain ⟨rfl, hbf⟩ := hbf
        rw [getLast?_cons_or]
        exact hmax b f hbf (by simpa using hlt)

theorem longestEnd?_eq_none (h : longestEnd? accepts previous text = none) {b f : Text}
    (hbf : text = b ++ f) : accepts (b.getLast?.or previous) f = false := by
  induction text generalizing previous b with
  | nil =>
    obtain ⟨rfl, rfl⟩ := List.append_eq_nil_iff.mp hbf.symm
    rw [longestEnd?] at h
    split at h
    · cases h
    · simp_all
  | cons c rest ih =>
    rw [longestEnd?] at h
    split at h
    · cases h
    · rename_i hno
      cases b with
      | nil =>
        rw [List.nil_append] at hbf
        rw [List.getLast?_nil, Option.none_or, ← hbf]
        simpa using hno
      | cons d b =>
        rw [List.cons_append, List.cons.injEq] at hbf
        obtain ⟨rfl, hbf⟩ := hbf
        rw [getLast?_cons_or]
        exact ih (Option.map_eq_none_iff.mp h) hbf

end LongestEnd

/-- What `dropFinalNewline` drops. -/
theorem dropFinalNewline_append (text : Text) :
    ∃ tail, text = dropFinalNewline text ++ tail ∧ (tail = [] ∨ tail = ['\n']) := by
  rw [dropFinalNewline]
  split
  · rename_i h
    rw [beq_iff_eq] at h
    obtain ⟨front, rfl⟩ := List.getLast?_eq_some_iff.mp h
    exact ⟨['\n'], by rw [List.dropLast_concat], .inr rfl⟩
  · exact ⟨[], by simp, .inl rfl⟩

theorem dropFinalNewline_eq_self {text : Text} {c : Char} (h : text.getLast? = some c)
    (hc : c ≠ '\n') : dropFinalNewline text = text := by
  simp [dropFinalNewline, h, hc]

/-- What is written for a piece when hits are replaced. -/
def Piece.write {α : Type} (replacement : α → Text) : Piece α → Text
  | .char c => [c]
  | .hit value => replacement value

theorem Piece.flatMap_write_chars {α : Type} (replacement : α → Text) (text : Text) :
    (text.map .char).flatMap (write replacement) = text := by
  rw [List.flatMap_map]
  exact List.flatMap_singleton' text

/-- What replacing does with a piece of the text. -/
def replacePiece {α : Type} {m : Type → Type} [Monad m] (store : α → m Text) : Piece α → m Text
  | .char c => pure [c]
  | .hit value => store value

theorem replaceM_eq {α : Type} {pattern : Pattern α} {m : Type → Type} [Monad m]
    {store : α → m Text} (text : Text) :
    pattern.replaceM store text = (do
      let parts ← (pattern.pieces text).mapM (replacePiece store)
      return parts.flatten) := rfl

namespace Pattern

variable {α : Type} {pattern : Pattern α}

/-- Every hit takes at least one character, and only characters that are there. -/
def Proper (pattern : Pattern α) : Prop :=
  ∀ ⦃previous text hit⦄, pattern previous text = some hit →
    0 < hit.width ∧ hit.width ≤ text.length

/-- A hit in front of which `matched` stands and behind which `after` stands. -/
def HitsAt (pattern : Pattern α) (previous : Option Char) (matched : Text) (value : α)
    (after : Text) : Prop :=
  pattern previous (matched ++ after) = some ⟨value, matched.length⟩ ∧ matched ≠ []

theorem Proper.hitsAt (hp : pattern.Proper) {previous : Option Char} {text : Text} {hit : Hit α}
    (h : pattern previous text = some hit) :
    pattern.HitsAt previous (text.take hit.width) hit.value (text.drop hit.width) := by
  obtain ⟨hpos, hle⟩ := hp h
  have hlen : (text.take hit.width).length = hit.width := by simp [hle]
  refine ⟨by rw [List.take_append_drop, h, hlen], ?_⟩
  intro hnil
  rw [hnil] at hlen
  simp at hlen
  omega

/-- All hits of the pattern are as `Spec` says of the character before a hit, its characters, its
value and what stands behind it. -/
def Recognises (pattern : Pattern α) (Spec : Option Char → Text → α → Text → Prop) : Prop :=
  ∀ ⦃previous text hit⦄, pattern previous text = some hit →
    ∃ matched after, text = matched ++ after ∧ hit.width = matched.length ∧ matched ≠ [] ∧
      Spec previous matched hit.value after

theorem Recognises.proper {Spec : Option Char → Text → α → Text → Prop}
    (h : pattern.Recognises Spec) : pattern.Proper := by
  intro previous text hit hhit
  obtain ⟨matched, after, rfl, hwidth, hne, -⟩ := h hhit
  have hpos := List.length_pos_iff.mpr hne
  rw [hwidth, List.length_append]
  omega

theorem Recognises.spec {Spec : Option Char → Text → α → Text → Prop}
    (h : pattern.Recognises Spec) {previous : Option Char} {matched after : Text} {value : α}
    (hat : pattern.HitsAt previous matched value after) : Spec previous matched value after := by
  obtain ⟨m, a, htext, hwidth, -, hspec⟩ := h hat.1
  obtain ⟨rfl, rfl⟩ := List.append_inj htext hwidth
  exact hspec

/-- **The first hit**: the text is what the cut says, and the pattern hits behind `cut.before`. -/
theorem find?_spec (hp : pattern.Proper) {previous : Option Char} {text : Text} {cut : Cut α}
    (h : pattern.find? previous text = some cut) :
    text = cut.before ++ (cut.matched ++ cut.after) ∧
      pattern.HitsAt (cut.before.getLast?.or previous) cut.matched cut.value cut.after := by
  induction text generalizing previous cut with
  | nil => simp [find?] at h
  | cons c rest ih =>
    rw [find?] at h
    split at h
    · rename_i hit hhit
      cases h
      exact ⟨by simp only [List.nil_append, List.take_append_drop], by
        simpa using hp.hitsAt hhit⟩
    · obtain ⟨inner, hinner, rfl⟩ := Option.map_eq_some_iff.mp h
      obtain ⟨htext, hhit⟩ := ih hinner
      refine ⟨by rw [List.cons_append, ← htext], ?_⟩
      rw [getLast?_cons_or]
      exact hhit

theorem piecesFrom_skip (previous : Option Char) (passed rest : Text) :
    piecesFrom pattern previous passed.length (passed ++ rest) =
      piecesFrom pattern (passed.getLast?.or previous) 0 rest := by
  induction passed generalizing previous with
  | nil => rfl
  | cons c passed ih =>
    rw [List.length_cons, List.cons_append, piecesFrom, ih, getLast?_cons_or]

theorem piecesFrom_of_hitsAt {previous : Option Char} {matched after : Text} {value : α}
    (h : pattern.HitsAt previous matched value after) :
    piecesFrom pattern previous 0 (matched ++ after) =
      .hit value :: piecesFrom pattern matched.getLast? 0 after := by
  obtain ⟨hhit, hne⟩ := h
  cases matched with
  | nil => exact absurd rfl hne
  | cons c matched =>
    rw [List.cons_append] at hhit ⊢
    rw [piecesFrom, hhit]
    simp only [List.length_cons, Nat.add_sub_cancel]
    rw [piecesFrom_skip, ← getLast?_cons_or c matched none, Option.or_none]

theorem piecesFrom_of_find?_none {previous : Option Char} {text : Text}
    (h : pattern.find? previous text = none) :
    piecesFrom pattern previous 0 text = text.map .char := by
  induction text generalizing previous with
  | nil => rfl
  | cons c rest ih =>
    rw [find?] at h
    split at h
    · cases h
    · rename_i hnone
      rw [piecesFrom, hnone]
      simp [ih (Option.map_eq_none_iff.mp h)]

theorem piecesFrom_of_find?_some (hp : pattern.Proper) {previous : Option Char} {text : Text}
    {cut : Cut α} (h : pattern.find? previous text = some cut) :
    piecesFrom pattern previous 0 text =
      cut.before.map .char ++ .hit cut.value ::
        piecesFrom pattern cut.matched.getLast? 0 cut.after := by
  induction text generalizing previous cut with
  | nil => simp [find?] at h
  | cons c rest ih =>
    have hspec := find?_spec hp h
    rw [find?] at h
    split at h
    · cases h
      have hhit := hspec.2
      simp only [List.getLast?_nil, Option.none_or] at hhit
      conv => lhs; rw [hspec.1]
      exact piecesFrom_of_hitsAt hhit
    · rename_i hnone
      obtain ⟨inner, hinner, rfl⟩ := Option.map_eq_some_iff.mp h
      rw [piecesFrom, hnone]
      simp [ih hinner]

/-- A text read hit by hit: up to the first hit, the hit, and what stands behind it. -/
inductive Reading (pattern : Pattern α) : Option Char → Text → List (Piece α) → Prop
  | rest {previous : Option Char} {text : Text} (h : pattern.find? previous text = none) :
      Reading pattern previous text (text.map .char)
  | hit {previous : Option Char} {before matched after : Text} {value : α}
      {pieces : List (Piece α)}
      (h : pattern.HitsAt (before.getLast?.or previous) matched value after)
      (more : Reading pattern matched.getLast? after pieces) :
      Reading pattern previous (before ++ (matched ++ after))
        (before.map .char ++ .hit value :: pieces)

/-- **The pieces of a text are its reading.** -/
theorem reading_piecesFrom (hp : pattern.Proper) (previous : Option Char) (text : Text) :
    Reading pattern previous text (piecesFrom pattern previous 0 text) := by
  induction hn : text.length using Nat.strongRecOn generalizing previous text with
  | ind n ih =>
    cases h : pattern.find? previous text with
    | none =>
      rw [piecesFrom_of_find?_none h]
      exact .rest h
    | some cut =>
      obtain ⟨htext, hhit⟩ := find?_spec hp h
      rw [piecesFrom_of_find?_some hp h]
      conv => arg 3; rw [htext]
      refine .hit hhit (ih cut.after.length ?_ _ _ rfl)
      have hpos := List.length_pos_iff.mpr hhit.2
      rw [← hn, htext]
      simp
      omega

theorem reading_pieces (hp : pattern.Proper) (text : Text) :
    Reading pattern none text (pattern.pieces text) :=
  reading_piecesFrom hp none text

/-- Whole words: the word is listed with its value, and neither neighbour bars it. -/
theorem recognises_wordPattern {bars follows : Char → Bool} {words : List (Text × α)}
    (hne : ∀ p ∈ words, p.1 ≠ []) :
    (wordPattern bars follows words).Recognises fun previous matched value after =>
      (matched, value) ∈ words ∧ (∀ c ∈ previous, bars c = false) ∧
        ∀ c ∈ after.head?, follows c = false := by
  intro previous text hit h
  rw [wordPattern] at h
  split at h
  · cases h
  · rename_i hbars
    obtain ⟨⟨word, value⟩, hmem, hword⟩ := List.exists_of_findSome?_eq_some h
    simp only [Option.bind_eq_bind, Option.bind_eq_some_iff, Option.guard_eq_some',
      Option.pure_def, Option.some.injEq] at hword
    obtain ⟨rest, hrest, -, hfollows, rfl⟩ := hword
    refine ⟨word, rest, isPrefixOf?_eq_some_iff.mp hrest, rfl, hne _ hmem, hmem, ?_, ?_⟩
    · intro c hc
      simpa [Option.mem_def.mp hc] using hbars
    · intro c hc
      simpa [Option.mem_def.mp hc] using hfollows

end Pattern

theorem Hit.width_leaving {α : Type} {value : α} {text matched after : Text}
    (h : text = matched ++ after) : (Hit.leaving text value after).width = matched.length := by
  simp [Hit.leaving, h]

end MathNotes
