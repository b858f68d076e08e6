import MathNotes.Proofs.Follow

/-!
# Passing over texts

A scanner goes through a text from left to right and acts where its pattern applies.  Where the
pattern misses, nothing happens: the characters are passed over, and scanning goes on behind them
(`Scanner.Passes`).  Collecting calls and replacing hits are such scanners.
-/

namespace MathNotes

open Extract

namespace Pattern

variable {α : Type} {pattern : Pattern α} {previous : Option Char} {a b rest : Text}

/-- The pattern applies nowhere in a text that is followed by `rest`. -/
def Misses (pattern : Pattern α) : (previous : Option Char) → Text → (rest : Text) → Prop
  | _, [], _ => True
  | previous, c :: text, rest =>
    pattern previous (c :: (text ++ rest)) = none ∧ pattern.Misses (some c) text rest

theorem misses_nil : pattern.Misses previous [] rest := trivial

theorem misses_append (ha : pattern.Misses previous a (b ++ rest))
    (hb : pattern.Misses (a.getLast?.or previous) b rest) :
    pattern.Misses previous (a ++ b) rest := by
  induction a generalizing previous with
  | nil => exact hb
  | cons c a ih =>
    rw [getLast?_cons_or] at hb
    refine ⟨?_, ih ha.2 hb⟩
    show pattern previous (c :: ((a ++ b) ++ rest)) = none
    rw [List.append_assoc]
    exact ha.1

/-- If no character of a text can be the first of a hit, there is none. -/
theorem misses_of_forall (h : ∀ c ∈ a, ∀ previous text, pattern previous (c :: text) = none) :
    pattern.Misses previous a rest := by
  induction a generalizing previous with
  | nil => exact misses_nil
  | cons c a ih =>
    exact ⟨h c List.mem_cons_self _ _, ih fun d hd => h d (List.mem_cons_of_mem c hd)⟩

/-- There is no hit in a text without the characters that every hit has one of. -/
theorem misses_of_not_mem {signs : List Char}
    (hneeds : ∀ ⦃previous text hit⦄, pattern previous text = some hit → ∃ c ∈ signs, c ∈ text)
    (h : ∀ c ∈ signs, c ∉ a) : pattern.Misses previous a [] := by
  induction a generalizing previous with
  | nil => exact misses_nil
  | cons d a ih =>
    refine ⟨?_, ih fun c hc hmem => h c hc (List.mem_cons_of_mem d hmem)⟩
    rw [List.append_nil]
    by_contra hne
    obtain ⟨hit, hhit⟩ := Option.ne_none_iff_exists'.mp hne
    obtain ⟨c, hc, hmem⟩ := hneeds hhit
    exact h c hc hmem

/-- Cutting at the first hit, where a text is passed over. -/
theorem find?_pass (h : pattern.Misses previous a b) :
    pattern.find? previous (a ++ b) = (pattern.find? (a.getLast?.or previous) b).map fun cut =>
      { cut with before := a ++ cut.before } := by
  induction a generalizing previous with
  | nil => simp
  | cons c a ih =>
    rw [List.cons_append, find?, h.1]
    simp only
    rw [ih h.2, Option.map_map, getLast?_cons_or]
    rfl

/-- Cutting at a hit at the front. -/
theorem find?_of_hitsAt {matched after : Text} {value : α}
    (h : pattern.HitsAt previous matched value after) :
    pattern.find? previous (matched ++ after) = some ⟨[], matched, value, after⟩ := by
  obtain ⟨hhit, hne⟩ := h
  obtain ⟨c, matched, rfl⟩ := List.exists_cons_of_ne_nil hne
  rw [List.cons_append] at hhit ⊢
  rw [find?, hhit]
  simp

theorem find?_of_misses (h : pattern.Misses previous a []) : pattern.find? previous a = none := by
  have hpass := find?_pass h
  rw [List.append_nil] at hpass
  rw [hpass]
  rfl

/-- The pieces of a text, where a text is passed over. -/
theorem piecesFrom_pass (h : pattern.Misses previous a b) :
    pattern.piecesFrom previous 0 (a ++ b) =
      a.map .char ++ pattern.piecesFrom (a.getLast?.or previous) 0 b := by
  induction a generalizing previous with
  | nil => simp
  | cons c a ih =>
    rw [List.cons_append, piecesFrom, h.1]
    simp only
    rw [ih h.2, getLast?_cons_or]
    rfl

/-- Nothing is replaced where the pattern misses. -/
theorem replace_of_misses (h : pattern.Misses none a []) (replacement : α → Text) :
    pattern.replace replacement a = a := by
  have hpass := piecesFrom_pass h
  rw [List.append_nil] at hpass
  rw [replace, pieces, hpass, piecesFrom, List.append_nil]
  exact Piece.flatMap_write_chars replacement a

end Pattern

/-! ## Scanners -/

/-- A function that goes through a text from left to right, in at most so many rounds, given the
character before it. -/
abbrev Scanner := (rounds : Nat) → (previous : Option Char) → Text → Extract Text

namespace Scanner

/-- The text `a` in front of `b` is passed over. -/
def Passes (scan : Scanner) (previous : Option Char) (a b : Text) : Prop :=
  ∀ rounds, scan rounds previous (a ++ b) = (do
    let rest ← scan rounds (a.getLast?.or previous) b
    return a ++ rest)

theorem Passes.gives {scan : Scanner} {previous : Option Char} {a b r : Text} {G G' : Table}
    {rounds : Nat} (h : scan.Passes previous a b)
    (hrest : (scan rounds (a.getLast?.or previous) b).Gives G r G') :
    (scan rounds previous (a ++ b)).Gives G (a ++ r) G' := by
  rw [h rounds]
  exact hrest.bind (gives_pure _ _)

/-- Replacing the hits of a pattern, as a scanner that needs no rounds. -/
def replacing {α : Type} (pattern : Pattern α) (store : α → Extract Text) : Scanner :=
  fun _ previous text => do
    let parts ← (pattern.piecesFrom previous 0 text).mapM (replacePiece store)
    return parts.flatten

end Scanner

section Passing

variable {α : Type} {pattern : Pattern α} {previous : Option Char} {a b : Text}

theorem Call.passes_collect {build : α → Text → Extract (Option Text)}
    (h : pattern.Misses previous a b) :
    Scanner.Passes (Call.collect pattern build) previous a b := by
  intro rounds
  cases rounds with
  | zero => rfl
  | succ rounds =>
    rw [Call.collect, Call.collect, Pattern.find?_pass h]
    cases pattern.find? (a.getLast?.or previous) b with
    | none => rfl
    | some cut =>
      simp only [Option.map_some, bind_assoc]
      refine bind_congr fun found => ?_
      cases found <;> simp [List.append_assoc]

theorem mapM_chars {m : Type → Type} [Monad m] [LawfulMonad m] {store : α → m Text} (text : Text)
    (pieces : List (Piece α)) :
    (text.map Piece.char ++ pieces).mapM (replacePiece store) = (do
      let parts ← pieces.mapM (replacePiece store)
      return text.map ([·]) ++ parts) := by
  induction text with
  | nil => simp
  | cons c text ih =>
    rw [List.map_cons, List.cons_append, List.mapM_cons, ih]
    simp [replacePiece]

theorem Scanner.passes_replacing {store : α → Extract Text} (h : pattern.Misses previous a b) :
    (Scanner.replacing pattern store).Passes previous a b := by
  intro rounds
  rw [replacing, replacing, Pattern.piecesFrom_pass h, mapM_chars]
  simp [flatten_singletons]

theorem Scanner.replacing_of_hitsAt (store : α → Extract Text) {matched after : Text} {value : α}
    (h : pattern.HitsAt previous matched value after) (rounds rounds' : Nat) :
    replacing pattern store rounds previous (matched ++ after) = (do
      let text ← store value
      let rest ← replacing pattern store rounds' matched.getLast? after
      return text ++ rest) := by
  rw [replacing, replacing, Pattern.piecesFrom_of_hitsAt h]
  simp [replacePiece]

theorem replaceM_of_misses {store : α → Extract Text} (h : pattern.Misses none a []) :
    pattern.replaceM store a = pure a := by
  have hpass := Pattern.piecesFrom_pass h
  rw [List.append_nil] at hpass
  rw [replaceM_eq, Pattern.pieces, hpass, Pattern.piecesFrom, mapM_chars]
  simp [flatten_singletons]

theorem replaceM_of_find?_none {m : Type → Type} [Monad m] [LawfulMonad m] {store : α → m Text}
    {text : Text} (h : pattern.find? none text = none) :
    pattern.replaceM store text = pure text := by
  rw [replaceM_eq, Pattern.pieces, Pattern.piecesFrom_of_find?_none h,
    ← List.append_nil (text.map Piece.char), mapM_chars]
  simp [flatten_singletons]

end Passing

end MathNotes
