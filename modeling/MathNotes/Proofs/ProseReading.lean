import MathNotes.Latex
import MathNotes.Proofs.Scan

/-!
# Reading prose back

Escapes bring backslashes, braces, letters and spaces into a text, and these may also have been
there before.  Still nothing is ambiguous: a backslash is only written at the start of an escape,
and the character behind it tells the escapes apart.  So what stands for a character is told from
what follows it (`readChar?_escapeChar`), and a text is read character by character (`readText?`).
The reader accepts what is written and nothing else (`eq_of_readText?`).
-/

namespace MathNotes.Latex

/-! ## One character -/

/-- The characters of prose that are written behind a backslash. -/
def specials : List Char := "\x7b\x7d#$%&_".toList

/-- What is written for a backslash, behind the one that starts the escape. -/
def backslashName : Text := "textbackslash "

theorem escapeChar_backslash : escapeChar '\\' = '\\' :: backslashName := rfl

theorem escapeChar_of_mem {c : Char} (h : c ∈ specials) : escapeChar c = ['\\', c] := by
  have hslash : c ≠ '\\' := by
    rintro rfl
    exact absurd h (by decide)
  rw [escapeChar, if_neg (by simpa using hslash)]
  exact if_pos (List.contains_iff_mem.mpr h)

theorem escapeChar_of_not_mem {c : Char} (hslash : c ≠ '\\') (h : c ∉ specials) :
    escapeChar c = [c] := by
  rw [escapeChar, if_neg (by simpa using hslash)]
  exact if_neg (mt List.contains_iff_mem.mp h)

/-- What an escape stands for, read behind its backslash, and what follows it. -/
def readEscape? : Text → Option (Char × Text)
  | [] => none
  | c :: rest =>
    if c ∈ specials then some (c, rest)
    else (backslashName.isPrefixOf? (c :: rest)).map fun after => ('\\', after)

/-- The character that stands at the front of written prose, and what follows it. -/
def readChar? : Text → Option (Char × Text)
  | [] => none
  | c :: rest =>
    if c = '\\' then readEscape? rest
    else if c ∈ specials then none
    else some (c, rest)

/-- A character is read as it was written, whatever follows it: no escape is the start of another
one. -/
theorem readChar?_escapeChar (c : Char) (rest : Text) :
    readChar? (escapeChar c ++ rest) = some (c, rest) := by
  by_cases hslash : c = '\\'
  · subst hslash
    rfl
  by_cases hspecial : c ∈ specials
  · rw [escapeChar_of_mem hspecial]
    exact if_pos hspecial
  · rw [escapeChar_of_not_mem hslash hspecial]
    exact (if_neg hslash).trans (if_neg hspecial)

theorem eq_of_readEscape? {written rest : Text} {c : Char}
    (h : readEscape? written = some (c, rest)) : '\\' :: written = escapeChar c ++ rest := by
  cases written with
  | nil => cases h
  | cons d written =>
    rw [readEscape?] at h
    split_ifs at h with hspecial
    · cases h
      rw [escapeChar_of_mem hspecial]
      rfl
    · obtain ⟨after, hafter, heq⟩ := Option.map_eq_some_iff.mp h
      cases heq
      rw [isPrefixOf?_eq_some_iff.mp hafter, escapeChar_backslash, List.cons_append]

theorem eq_of_readChar? {written rest : Text} {c : Char}
    (h : readChar? written = some (c, rest)) : written = escapeChar c ++ rest := by
  cases written with
  | nil => cases h
  | cons d written =>
    rw [readChar?] at h
    split_ifs at h with hslash hspecial
    · rw [hslash]
      exact eq_of_readEscape? h
    · cases h
      rw [escapeChar_of_not_mem hslash hspecial]
      rfl

theorem length_lt_of_readChar? {written rest : Text} {c : Char}
    (h : readChar? written = some (c, rest)) : rest.length < written.length := by
  have hpos : 0 < (escapeChar c).length := by
    rw [escapeChar]
    split_ifs <;> simp
  rw [eq_of_readChar? h, List.length_append]
  omega

/-! ## A whole text -/

/-- The text that written prose stands for. -/
def readText? (written : Text) : Option Text :=
  if written = [] then some []
  else
    match h : readChar? written with
    | none => none
    | some (c, rest) =>
      have := length_lt_of_readChar? h
      (readText? rest).map (c :: ·)
termination_by written.length

theorem escapeText_cons (c : Char) (text : Text) :
    escapeText (c :: text) = escapeChar c ++ escapeText text := List.flatMap_cons

theorem readText?_escapeText (text : Text) : readText? (escapeText text) = some text := by
  induction text with
  | nil =>
    rw [readText?]
    rfl
  | cons c text ih =>
    have hread := readChar?_escapeChar c (escapeText text)
    rw [← escapeText_cons] at hread
    have hne : escapeText (c :: text) ≠ [] := by
      intro hnil
      rw [hnil] at hread
      cases hread
    rw [readText?, if_neg hne]
    split
    · rename_i hnone
      rw [hread] at hnone
      cases hnone
    · rename_i d rest hsome
      rw [hread] at hsome
      cases hsome
      rw [ih]
      rfl

theorem eq_of_readText? {written text : Text} (h : readText? written = some text) :
    written = escapeText text := by
  fun_induction readText? written generalizing text with
  | case1 =>
    cases h
    rfl
  | case2 => cases h
  | case3 written _ c rest hread _ ih =>
    obtain ⟨text, htext, rfl⟩ := Option.map_eq_some_iff.mp h
    rw [escapeText_cons, ← ih htext]
    exact eq_of_readChar? hread

theorem escapeText_injective : Function.Injective escapeText := by
  intro a b h
  have hread := readText?_escapeText a
  rw [h, readText?_escapeText b] at hread
  exact (Option.some.inj hread).symm

/-- **Escaped prose is read back exactly.**  The reader gives a text exactly for what is written for
it, so no two texts become the same prose; and texts one behind the other are escaped one by one. -/
theorem escapeText_exact :
    (∀ written text, readText? written = some text ↔ written = escapeText text) ∧
      Function.Injective prose ∧
      ∀ a b, escapeText (a ++ b) = escapeText a ++ escapeText b := by
  refine ⟨fun written text => ⟨eq_of_readText?, fun h => h ▸ readText?_escapeText text⟩, ?_,
    fun a b => List.flatMap_append⟩
  intro a b hprose
  have hbody : escapeText a = escapeText b := by
    simpa [prose, command, braced] using hprose
  exact escapeText_injective hbody

end MathNotes.Latex
