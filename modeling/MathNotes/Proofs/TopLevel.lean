import MathNotes.Proofs.Cut

/-!
# Cutting at the top level

`splitTop` cuts a text at its separators outside brackets, and `findTop?` looks for the first of
them.  Each keeps its own count of the brackets that are open.  Where the separator is no bracket,
one character has the same effect on both counts (`findTopFrom?_cons`, `splitTopFrom_cons`), whether
or not the brackets match.  So the text is cut where the search stops, and cutting starts afresh
behind it (`splitTopFrom_eq_elim`).
-/

namespace MathNotes

namespace Text

/-- A character stands at a position at the top level: where `depth` brackets are open in front of
the text, none is open in front of the position. -/
def AtTop (c : Char) (depth : Nat) (text : Text) (i : Nat) : Prop :=
  text[i]? = some c ∧ (text.take i).foldl bracketDepth depth = 0

theorem atTop_zero_iff {c d : Char} {depth : Nat} {text : Text} :
    AtTop c depth (d :: text) 0 ↔ d = c ∧ depth = 0 := by
  simp [AtTop]

theorem atTop_succ_iff {c d : Char} {depth i : Nat} {text : Text} :
    AtTop c depth (d :: text) (i + 1) ↔ AtTop c (bracketDepth depth d) text i := by
  simp [AtTop]

/-! ## One character -/

section

variable {c : Char} (hopening : isOpeningBracket c = false) (hclosing : isClosingBracket c = false)

include hopening hclosing

/-- One character of the search: it is what is looked for, or its bracket is counted. -/
theorem findTopFrom?_cons (depth : Nat) (d : Char) (text : Text) :
    findTopFrom? [c] depth (d :: text) =
      if d = c ∧ depth = 0 then some 0
      else (findTopFrom? [c] (bracketDepth depth d) text).map (· + 1) := by
  rw [findTopFrom?, bracketDepth]
  by_cases hd : d = c
  · subst hd
    simp [hopening, hclosing]
  · have htarget : ([c] == [d]) = false := by simpa using Ne.symm hd
    rw [if_neg (show ¬(d = c ∧ depth = 0) from fun h => hd h.1), htarget]
    cases isOpeningBracket d with
    | true => rfl
    | false =>
      cases isClosingBracket d with
      | false => rfl
      | true =>
        -- A closing bracket with nothing open is passed over like any other character.
        cases depth <;> rfl

/-- One character of the cutting: it ends a part, or it stands at the front of the next one and its
bracket is counted. -/
theorem splitTopFrom_cons (depth : Nat) (d : Char) (text : Text) :
    splitTopFrom [c] depth (d :: text) =
      if d = c ∧ depth = 0 then [] :: splitTop [c] text
      else (splitTopFrom [c] (bracketDepth depth d) text).modifyHead (d :: ·) := by
  rw [splitTopFrom]
  obtain ⟨part, parts, hparts⟩ := List.exists_cons_of_ne_nil
    (splitTopFrom_ne_nil [c] (bracketDepth depth d) text)
  by_cases hd : d = c
  · subst hd
    have hsame : bracketDepth depth d = depth := by simp [bracketDepth, hopening, hclosing]
    rw [hsame] at hparts ⊢
    by_cases hdepth : depth = 0
    · subst hdepth
      simp [splitTop]
    · simp [hdepth, hparts]
  · have htarget : ([c] == [d]) = false := by simpa using Ne.symm hd
    simp [htarget, hd, hparts]

/-! ## A whole text -/

/-- **Cutting goes by searching**: the first part ends where the search stops. -/
theorem splitTopFrom_eq_elim (depth : Nat) (text : Text) :
    splitTopFrom [c] depth text =
      (findTopFrom? [c] depth text).elim [text] fun i =>
        text.take i :: splitTop [c] (text.drop (i + 1)) := by
  induction text generalizing depth with
  | nil => rfl
  | cons d text ih =>
    rw [findTopFrom?_cons hopening hclosing, splitTopFrom_cons hopening hclosing, ih]
    by_cases hcut : d = c ∧ depth = 0
    · rw [if_pos hcut, if_pos hcut]
      rfl
    · rw [if_neg hcut, if_neg hcut]
      cases findTopFrom? [c] (bracketDepth depth d) text <;> rfl

/-- **The search stops at the first place that is at the top level.** -/
theorem findTopFrom?_eq_some_iff {depth i : Nat} {text : Text} :
    findTopFrom? [c] depth text = some i ↔
      AtTop c depth text i ∧ ∀ j < i, ¬AtTop c depth text j := by
  induction text generalizing depth i with
  | nil => simp [findTopFrom?, AtTop]
  | cons d text ih =>
    rw [findTopFrom?_cons hopening hclosing]
    by_cases hcut : d = c ∧ depth = 0
    · have hzero : AtTop c depth (d :: text) 0 := atTop_zero_iff.mpr hcut
      rw [if_pos hcut, Option.some.injEq]
      constructor
      · rintro rfl
        exact ⟨hzero, by simp⟩
      · rintro ⟨-, hfirst⟩
        by_contra hne
        exact hfirst 0 (by omega) hzero
    · have hzero : ¬AtTop c depth (d :: text) 0 := mt atTop_zero_iff.mp hcut
      rw [if_neg hcut]
      cases i with
      | zero => simp [hzero]
      | succ i =>
        rw [Option.map_eq_some_iff, atTop_succ_iff, Nat.forall_lt_succ_left]
        simp only [Nat.add_right_cancel_iff, exists_eq_right, hzero, not_false_eq_true, true_and,
          atTop_succ_iff]
        exact ih

end

/-- **The parts of a text are what the search finds, and nothing is lost.**  The parts with the
separators between them are the text, whatever the separator.  Where it is a character and no
bracket, the search finds the first one outside brackets; the first part ends there and the others
are the parts of the rest. -/
theorem splitTop_agrees (text : Text) :
    (∀ separator, join separator (splitTop separator text) = text) ∧
      ∀ separator, separator ∉ ['(', ')', '[', ']', '{', '}'] →
        (findTop? [separator] text = none → splitTop [separator] text = [text]) ∧
          (∀ i, findTop? [separator] text = some i →
            splitTop [separator] text = text.take i :: splitTop [separator] (text.drop (i + 1))) ∧
          ∀ i, findTop? [separator] text = some i ↔
            AtTop separator 0 text i ∧ ∀ j < i, ¬AtTop separator 0 text j := by
  refine ⟨fun separator => join_splitTop separator text, fun separator hbracket => ?_⟩
  have hopening : isOpeningBracket separator = false := by
    simp_all [isOpeningBracket]
  have hclosing : isClosingBracket separator = false := by
    simp_all [isClosingBracket]
  have hsplit := splitTopFrom_eq_elim hopening hclosing 0 text
  refine ⟨fun hnone => ?_, fun i hsome => ?_, fun i => findTopFrom?_eq_some_iff hopening hclosing⟩
  · rw [splitTop, hsplit, show findTopFrom? [separator] 0 text = none from hnone]
    rfl
  · rw [splitTop, hsplit, show findTopFrom? [separator] 0 text = some i from hsome]
    rfl

theorem splitTop_agrees_mismatched :
    ',' ∉ ['(', ')', '[', ']', '{', '}'] ∧ findTop? [','] "a),(b],c[,d" = some 2 ∧
      splitTop [','] "a),(b],c[,d" = "a)".toList :: splitTop [','] "(b],c[,d" ∧
      join [','] (splitTop [','] "a),(b],c[,d") = "a),(b],c[,d" := by
  obtain ⟨hjoin, hcut⟩ := splitTop_agrees "a),(b],c[,d"
  have hfound : findTop? [','] "a),(b],c[,d" = some 2 := by decide
  exact ⟨by decide, hfound, (hcut ',' (by decide)).2.1 2 hfound, hjoin [',']⟩

end Text

end MathNotes
