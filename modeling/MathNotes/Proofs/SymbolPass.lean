import MathNotes.Proofs.Scan
import MathNotes.Symbol.Substitution

/-!
# What the pass over finished LaTeX keeps

Names and operators are replaced in finished LaTeX, and prose is left alone.  A relation between
texts that holds of a whole when it holds of its parts (`Text.Compositional`) holds between a line
and what the pass makes of it when it holds between each name or operator and its command
(`Symbol.symbolPass_related`).  What the pass keeps is therefore read off the two tables.
-/

namespace MathNotes

/-- A relation between texts that holds of a whole when it holds of the parts. -/
structure Text.Compositional (R : Text → Text → Prop) : Prop where
  refl : ∀ text, R text text
  trans : ∀ {a b c}, R a b → R b c → R a c
  append : ∀ {a b a' b'}, R a b → R a' b' → R (a ++ a') (b ++ b')

theorem Text.compositional_eq : Text.Compositional (· = ·) where
  refl _ := rfl
  trans := Eq.trans
  append h h' := by rw [h, h']

variable {R : Text → Text → Prop}

/-- Replacing hits keeps a relation that holds between each hit and what is written for it. -/
theorem Pattern.Reading.related (hR : Text.Compositional R) {α : Type} {pattern : Pattern α}
    {replacement : α → Text}
    (h : ∀ ⦃previous matched value after⦄, pattern.HitsAt previous matched value after →
      R matched (replacement value)) {previous : Option Char} {text : Text}
    {pieces : List (Piece α)} (hreading : pattern.Reading previous text pieces) :
    R text (pieces.flatMap (Piece.write replacement)) := by
  induction hreading with
  | rest _ =>
    rw [Piece.flatMap_write_chars]
    exact hR.refl _
  | hit hat _ ih =>
    rw [List.flatMap_append, Piece.flatMap_write_chars, List.flatMap_cons]
    exact hR.append (hR.refl _) (hR.append (h hat) ih)

theorem Pattern.replace_related (hR : Text.Compositional R) {α : Type} {pattern : Pattern α}
    (hp : pattern.Proper) {replacement : α → Text}
    (h : ∀ ⦃previous matched value after⦄, pattern.HitsAt previous matched value after →
      R matched (replacement value)) (text : Text) : R text (pattern.replace replacement text) :=
  (Pattern.reading_pieces hp text).related hR h

/-- What stands between hits, put together again. -/
theorem Piece.gaps_flatten {α : Type} (f : α → Text) (pieces : List (Piece α)) :
    (gaps pieces).1 ++ (gaps pieces).2.flatMap (fun p => f p.1 ++ p.2) =
      pieces.flatMap (write f) := by
  induction pieces with
  | nil => rfl
  | cons piece pieces ih =>
    cases piece with
    | char c => rw [List.flatMap_cons, ← ih]; rfl
    | hit value => rw [List.flatMap_cons, ← ih]; simp [gaps, write]

theorem Piece.gaps_chars {α : Type} (text : Text) (pieces : List (Piece α)) :
    gaps (text.map .char ++ pieces) = (text ++ (gaps pieces).1, (gaps pieces).2) := by
  induction text with
  | nil => rfl
  | cons c text ih => rw [List.map_cons, List.cons_append, gaps, ih]; rfl

namespace Symbol

/-! ## Prose -/

/-- The rest of a span of prose ends in a brace. -/
theorem proseBodyWidth?_spec {body : Text} {width : Nat} (h : proseBodyWidth? body = some width) :
    ∃ content rest, body = content ++ '}' :: rest ∧ width = content.length + 1 := by
  fun_induction proseBodyWidth? body generalizing width with
  | case1 => cases h
  | case2 c rest hc =>
    cases h
    exact ⟨[], rest, by simp [beq_iff_eq.mp hc], rfl⟩
  | case3 => cases h
  | case4 => cases h
  | case5 => cases h
  | case6 c _ _ _ escaped rest _ ih =>
    obtain ⟨n, hn, rfl⟩ := Option.map_eq_some_iff.mp h
    obtain ⟨content, rest, rfl, rfl⟩ := ih hn
    exact ⟨c :: escaped :: content, rest, rfl, rfl⟩
  | case7 c rest _ _ _ ih =>
    obtain ⟨n, hn, rfl⟩ := Option.map_eq_some_iff.mp h
    obtain ⟨content, rest, rfl, rfl⟩ := ih hn
    exact ⟨c :: content, rest, rfl, rfl⟩

/-- A span of prose is its own value. -/
theorem recognises_prosePattern : prosePattern.Recognises fun _ matched value _ =>
    value = matched ∧ ∃ content, matched = proseLead ++ (content ++ ['}']) := by
  intro previous text hit h
  simp only [prosePattern, Option.bind_eq_bind, Option.bind_eq_some_iff, Option.pure_def,
    Option.some.injEq, isPrefixOf?_eq_some_iff] at h
  obtain ⟨body, rfl, width, hwidth, rfl⟩ := h
  obtain ⟨content, rest, rfl, rfl⟩ := proseBodyWidth?_spec hwidth
  have hspan : proseLead ++ (content ++ '}' :: rest) =
      (proseLead ++ (content ++ ['}'])) ++ rest := by simp
  have hlength : proseLead.length + (content.length + 1) =
      (proseLead ++ (content ++ ['}'])).length := by simp
  refine ⟨proseLead ++ (content ++ ['}']), rest, hspan, hlength, by simp, ?_, content, rfl⟩
  simp only
  rw [hspan, hlength, List.take_left]

/-- A text is its gaps and its spans of prose, in turn. -/
theorem gaps_prose (text : Text) :
    (Piece.gaps (prosePattern.pieces text)).1 ++
      (Piece.gaps (prosePattern.pieces text)).2.flatMap (fun p => id p.1 ++ p.2) = text := by
  rw [Piece.gaps_flatten]
  exact (Pattern.replace_related Text.compositional_eq recognises_prosePattern.proper
    (fun _ _ _ _ hat => (recognises_prosePattern.spec hat).1.symm) text).symm

/-! ## Names and operators -/

theorem names_ne_nil : ∀ p ∈ names, p.1 ≠ [] := by decide

theorem operators_ne_nil : ∀ p ∈ operators, p.1 ≠ [] := by decide

/-- An operator is replaced by its command, which is set off by a space from a letter. -/
theorem recognises_operatorPattern :
    operatorPattern.Recognises fun _ matched value after =>
      ∃ command, (matched, command) ∈ operators ∧
        (value = command ∧ (∀ c ∈ after.head?, isLetter c = false) ∨ value = command ++ [' ']) := by
  intro previous text hit h
  obtain ⟨⟨operator, command⟩, hmem, hoperator⟩ := List.exists_of_findSome?_eq_some h
  simp only [Option.bind_eq_bind, Option.bind_eq_some_iff, Option.pure_def,
    Option.some.injEq, isPrefixOf?_eq_some_iff] at hoperator
  obtain ⟨rest, rfl, rfl⟩ := hoperator
  refine ⟨operator, rest, rfl, rfl, operators_ne_nil _ hmem, command, hmem, ?_⟩
  by_cases hletter : rest.head?.any isLetter = true
  · exact .inr (if_pos hletter)
  · refine .inl ⟨if_neg hletter, fun c hc => ?_⟩
    simpa [Option.mem_def.mp hc] using hletter

/-- A constant is a whole name, also behind a dot. -/
theorem recognises_constantPattern : constantPattern.Recognises fun previous matched value after =>
    (matched, value) ∈ constants ∧ (∀ c ∈ previous, (isNameChar c || c == '.') = false) ∧
      ∀ c ∈ after.head?, isNameChar c = false := by
  have hne : ∀ p ∈ constants, p.1 ≠ [] := by decide
  exact Pattern.recognises_wordPattern hne

section Related

variable (hR : Text.Compositional R) (hnames : ∀ p ∈ names, R p.1 p.2)
  (hoperators : ∀ p ∈ operators, R p.1 p.2 ∧ R p.1 (p.2 ++ [' ']))
include hR hnames hoperators

theorem substituteNames_related (text : Text) : R text (substituteNames text) := by
  have hwords : namePattern.Recognises _ := Pattern.recognises_wordPattern names_ne_nil
  refine hR.trans (Pattern.replace_related hR hwords.proper (fun _ _ _ _ hat => ?_) text)
    (Pattern.replace_related hR recognises_operatorPattern.proper (fun _ _ _ _ hat => ?_) _)
  · exact hnames _ (hwords.spec hat).1
  · obtain ⟨command, hmem, ⟨hvalue, -⟩ | hvalue⟩ := recognises_operatorPattern.spec hat
    · rw [id, hvalue]
      exact (hoperators _ hmem).1
    · rw [id, hvalue]
      exact (hoperators _ hmem).2

/-- **The pass over finished LaTeX keeps a relation** that holds between each name or operator and
its command. -/
theorem symbolPass_related (latex : Text) : R latex (symbolPass latex) := by
  have hgap := substituteNames_related hR hnames hoperators
  have hspans : ∀ spans : List (Text × Text), R (spans.flatMap fun p => id p.1 ++ p.2)
      (spans.flatMap fun p => p.1 ++ substituteNames p.2) := by
    intro spans
    induction spans with
    | nil => exact hR.refl []
    | cons span spans ih =>
      rw [List.flatMap_cons, List.flatMap_cons]
      exact hR.append (hR.append (hR.refl _) (hgap _)) ih
  have hparts := hR.append (hgap (Piece.gaps (prosePattern.pieces latex)).1)
    (hspans (Piece.gaps (prosePattern.pieces latex)).2)
  rw [gaps_prose] at hparts
  exact hparts

end Related

end Symbol

end MathNotes
