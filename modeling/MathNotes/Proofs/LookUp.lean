import MathNotes.Fault
import MathNotes.Proofs.Scan

/-!
# Looking up what was found

A table is searched for its keys, and what is found is looked up again.  The first key that applies
is the first under which there is an entry, so nothing that is found is missing
(`wholeWords_cases`), and the text is written as if the entries themselves were searched for
(`replaceM_lookUp`).
-/

namespace MathNotes

namespace Pattern

variable {α β : Type} {m : Type → Type} [Monad m]

/-- Two patterns that apply in the same places to the same characters, where what the first finds is
written without fail as what the second finds. -/
def WritesAs (p : Pattern α) (write : α → m Text) (q : Pattern β) (value : β → Text) : Prop :=
  ∀ previous text, p previous text = none ∧ q previous text = none ∨
    ∃ found hit, p previous text = some ⟨found, hit.width⟩ ∧ q previous text = some hit ∧
      write found = pure (value hit.value)

section Replace

variable [LawfulMonad m] {p : Pattern α} {write : α → m Text} {q : Pattern β} {value : β → Text}

theorem WritesAs.mapM_piecesFrom (h : WritesAs p write q value) (previous : Option Char)
    (skip : Nat) (text : Text) :
    (p.piecesFrom previous skip text).mapM (replacePiece write) =
      pure ((q.piecesFrom previous skip text).map (Piece.write value)) := by
  induction text generalizing previous skip with
  | nil => simp [piecesFrom]
  | cons c text ih =>
    cases skip with
    | succ skip => exact ih (some c) skip
    | zero =>
      rcases h previous (c :: text) with ⟨hp, hq⟩ | ⟨found, hit, hp, hq, hwrite⟩
      · simp only [piecesFrom, hp, hq, List.mapM_cons, replacePiece, ih, pure_bind, List.map_cons]
        rfl
      · simp only [piecesFrom, hp, hq, List.mapM_cons, replacePiece, hwrite, ih, pure_bind,
          List.map_cons]
        rfl

/-- **Replacing what the first pattern finds never fails**, and writes what the second finds. -/
theorem WritesAs.replaceM (h : WritesAs p write q value) (text : Text) :
    p.replaceM write text = pure (q.replace value text) := by
  rw [replaceM_eq, pieces, h.mapM_piecesFrom, pure_bind, replace, pieces, List.flatMap]
  rfl

end Replace

end Pattern

section Table

variable {α : Type} {bars follows : Char → Bool}

/-- Whether a word is in front of a text and does not go on there. -/
def appliesTo (follows : Char → Bool) (text word : Text) : Bool :=
  (word.isPrefixOf? text).any fun rest => !rest.head?.any follows

/-- Of several entries that apply the first is found. -/
theorem wordPattern_eq (table : List (Text × α)) (previous : Option Char) (text : Text) :
    wordPattern bars follows table previous text =
      if previous.any bars then none
      else (table.find? fun entry => appliesTo follows text entry.1).map fun entry =>
        ⟨entry.2, entry.1.length⟩ := by
  have hword : ∀ (word : Text) (value : α),
      (do
        let rest ← word.isPrefixOf? text
        guard (!rest.head?.any follows)
        return (⟨value, word.length⟩ : Hit α)) =
        if appliesTo follows text word then some ⟨value, word.length⟩ else none := by
    intro word value
    cases hrest : word.isPrefixOf? text with
    | none => simp [appliesTo, hrest]
    | some rest => cases hfollows : rest.head?.any follows <;> simp [appliesTo, hrest, hfollows]
  simp only [wordPattern, hword]
  congr 1
  induction table with
  | nil => rfl
  | cons entry table ih =>
    obtain ⟨word, value⟩ := entry
    cases happlies : appliesTo follows text word
    · simpa [happlies] using ih
    · simp [happlies]

/-- No earlier entry has the key of the first entry that a test accepts for its key. -/
theorem lookup_of_find? {table : List (Text × α)} (test : Text → Bool) {key : Text} {value : α}
    (h : table.find? (fun entry => test entry.1) = some (key, value)) :
    table.lookup key = some value := by
  have hkey : test key = true := by simpa using List.find?_some h
  induction table with
  | nil => cases h
  | cons entry table ih =>
    obtain ⟨known, old⟩ := entry
    by_cases hsame : key = known
    · subst hsame
      rw [List.find?_cons, hkey] at h
      cases h
      exact List.lookup_cons_self
    · have hknown : test known = false := by
        by_contra hne
        rw [Bool.not_eq_false] at hne
        rw [List.find?_cons, hne] at h
        cases h
        exact hsame rfl
      rw [List.find?_cons, hknown] at h
      rw [List.lookup_cons, beq_eq_false_iff_ne.mpr hsame]
      exact ih h

/-- **A key that is found has an entry**, and it is the one that is found when entries are searched
for. -/
theorem wholeWords_cases (bars follows : Char → Bool) (table : List (Text × α))
    (previous : Option Char) (text : Text) :
    wholeWords bars follows (table.map (·.1)) previous text = none ∧
        wordPattern bars follows table previous text = none ∨
      ∃ key hit, wholeWords bars follows (table.map (·.1)) previous text = some ⟨key, hit.width⟩ ∧
        wordPattern bars follows table previous text = some hit ∧
        table.lookup key = some hit.value := by
  rw [wholeWords, wordPattern_eq, wordPattern_eq, List.map_map, List.find?_map]
  by_cases hbars : previous.any bars = true
  · exact .inl ⟨if_pos hbars, if_pos hbars⟩
  rw [if_neg hbars, if_neg hbars]
  cases hfind : table.find? fun entry => appliesTo follows text entry.1 with
  | none => exact .inl ⟨by simp [Function.comp_def, hfind], rfl⟩
  | some entry =>
    refine .inr ⟨entry.1, ⟨entry.2, entry.1.length⟩, ?_, rfl, lookup_of_find? _ hfind⟩
    simp [Function.comp_def, hfind]

theorem lookUp_eq_ok {table : List (Text × α)} {key : Text} {value : α}
    (h : table.lookup key = some value) : lookUp table key = .ok value := by
  rw [lookUp, h]

/-- **Searching for keys and looking them up never fails**, and replaces words by their entries. -/
theorem replaceM_lookUp (table : List (Text × Text)) (text : Text) :
    (wholeWords bars follows (table.map (·.1))).replaceM (lookUp table) text =
      .ok ((wordPattern bars follows table).replace id text) := by
  refine Pattern.WritesAs.replaceM (fun previous text => ?_) text
  rcases wholeWords_cases bars follows table previous text with
    hnone | ⟨key, hit, hkey, hhit, hlookup⟩
  · exact .inl hnone
  · exact .inr ⟨key, hit, hkey, hhit, lookUp_eq_ok hlookup⟩

end Table

end MathNotes
