import MathNotes.Proofs.Segmentation

/-!
# Runs of prose

Words that only white space separates are one run of prose.  Merging can be said step by step, with
no order of the steps: a word is put in front of the run behind a gap of white space, and everything
else is kept (`Merges`).  A list is merged when no such gap is left between two runs (`Merged`).

`mergeText` merges until the list is merged (`merges_mergeText`, `merged_mergeText`), and there is
only one way to end (`eq_mergeText`): a merged list is not changed, formulas are neither lost nor
moved, and every run holds words that stood next to each other.
-/

namespace MathNotes.Segment

/-- What a segment holds, if it is prose. -/
def prose? : Segment → Option Text
  | text content => some content
  | _ => none

variable {a b segments : List Segment}

/-! ## Merged lists -/

/-- No two runs of prose have only white space between them. -/
def Merged (segments : List Segment) : Prop :=
  ∀ before gap after first second, gap ≠ [] → (∀ segment ∈ gap, segment.isSpace = true) →
    segments ≠ before ++ text first :: (gap ++ text second :: after)

theorem merged_nil : Merged [] := by
  intro before gap after first second _ _ h
  simp at h

theorem Merged.of_cons {segment : Segment} (h : Merged (segment :: segments)) :
    Merged segments := by
  intro before gap after first second hne hgap heq
  exact h (segment :: before) gap after first second hne hgap (congrArg (segment :: ·) heq)

theorem Merged.of_append (h : Merged (a ++ b)) : Merged b := by
  induction a with
  | nil => exact h
  | cons segment a ih => exact ih h.of_cons

theorem Merged.cons {segment : Segment} (h : Merged segments)
    (hfront : segment.prose?.isSome = true → textBehindSpace? segments = none) :
    Merged (segment :: segments) := by
  intro before gap after first second hne hgap heq
  cases before with
  | nil =>
    obtain ⟨rfl, hrest⟩ := List.cons.inj heq
    have hfound := textBehindSpace?_eq_some_iff.mpr ⟨gap, hne, hgap, hrest⟩
    rw [hfront rfl] at hfound
    cases hfound
  | cons _ before =>
    obtain ⟨rfl, hrest⟩ := List.cons.inj heq
    exact h before gap after first second hne hgap hrest

theorem Merged.textBehindSpace? {word : Text} (h : Merged (text word :: segments)) :
    Segment.textBehindSpace? segments = none := by
  cases hfound : Segment.textBehindSpace? segments with
  | none => rfl
  | some found =>
    obtain ⟨gap, hne, hgap, heq⟩ := textBehindSpace?_eq_some_iff.mp hfound
    exact absurd (congrArg (text word :: ·) heq) (h [] gap found.2 word found.1 hne hgap)

/-- A run may hold anything. -/
theorem Merged.replace {word : Text} (h : Merged (text word :: segments)) (other : Text) :
    Merged (text other :: segments) :=
  h.of_cons.cons fun _ => h.textBehindSpace?

theorem merged_consText (word : Text) (h : Merged segments) : Merged (consText word segments) := by
  rw [consText]
  split
  · rename_i content rest hfound
    obtain ⟨gap, -, -, rfl⟩ := textBehindSpace?_eq_some_iff.mp hfound
    exact h.of_append.replace _
  · rename_i hnone
    exact h.cons fun _ => hnone

/-- **Merging leaves nothing to merge.** -/
theorem merged_mergeText (segments : List Segment) : Merged (mergeText segments) := by
  induction segments with
  | nil => exact merged_nil
  | cons segment segments ih =>
    cases segment with
    | text word => exact merged_consText word ih
    | math content => exact ih.cons (by simp [prose?])
    | space blanks => exact ih.cons (by simp [prose?])

/-! ## Merging step by step -/

/-- A list becomes another by merging: segments are kept, or a word joins the run that only white
space separates from it. -/
inductive Merges : List Segment → List Segment → Prop
  | nil : Merges [] []
  | keep (segment : Segment) {a b : List Segment} (more : Merges a b) :
      Merges (segment :: a) (segment :: b)
  | join (word : Text) {gap a b : List Segment} {content : Text} (gap_ne : gap ≠ [])
      (blank : ∀ segment ∈ gap, segment.isSpace = true) (more : Merges a (text content :: b)) :
      Merges (text word :: (gap ++ a)) (text (word ++ ' ' :: content) :: b)

theorem Merges.refl (segments : List Segment) : Merges segments segments := by
  induction segments with
  | nil => exact .nil
  | cons segment segments ih => exact .keep segment ih

/-- White space in front of the result was there before. -/
theorem Merges.behind {gap : List Segment} (hgap : ∀ segment ∈ gap, segment.isSpace = true)
    (h : Merges a (gap ++ b)) : ∃ rest, a = gap ++ rest ∧ Merges rest b := by
  induction gap generalizing a with
  | nil => exact ⟨a, rfl, h⟩
  | cons segment gap ih =>
    obtain ⟨hsegment, hmore⟩ := List.forall_mem_cons.mp hgap
    obtain ⟨blanks, rfl⟩ := exists_of_isSpace hsegment
    cases h with
    | keep _ h =>
      obtain ⟨rest, rfl, hrest⟩ := ih hmore h
      exact ⟨rest, rfl, hrest⟩

theorem merges_consText (word : Text) (h : Merges a b) :
    Merges (text word :: a) (consText word b) := by
  rw [consText]
  split
  · rename_i content rest hfound
    obtain ⟨gap, hne, hgap, rfl⟩ := textBehindSpace?_eq_some_iff.mp hfound
    obtain ⟨behind, rfl, hbehind⟩ := h.behind hgap
    exact .join word hne hgap hbehind
  · exact .keep _ h

/-- **`mergeText` only merges.** -/
theorem merges_mergeText (segments : List Segment) : Merges segments (mergeText segments) := by
  induction segments with
  | nil => exact .nil
  | cons segment segments ih =>
    cases segment with
    | text word => exact merges_consText word ih
    | math content => exact .keep _ ih
    | space blanks => exact .keep _ ih

/-- **There is one way to merge until nothing is left to merge.** -/
theorem eq_mergeText (h : Merges a b) (hmerged : Merged b) : b = mergeText a := by
  induction h with
  | nil => rfl
  | keep segment _ ih =>
    have hmore := ih hmerged.of_cons
    cases segment with
    | text word => rw [mergeText, ← hmore, consText, hmerged.textBehindSpace?]
    | math content =>
      rw [mergeText, ← hmore]
      simp
    | space blanks =>
      rw [mergeText, ← hmore]
      simp
  | @join word gap a b content hne hgap _ ih =>
    have hmore := ih (hmerged.replace content)
    have hfound : textBehindSpace? (gap ++ text content :: b) = some (content, b) :=
      textBehindSpace?_eq_some_iff.mpr ⟨gap, hne, hgap, rfl⟩
    rw [mergeText, mergeText_append_of_isSpace hgap, ← hmore, consText, hfound]

/-! ## What is kept -/

theorem filter_text (content : Text) (segments : List Segment) :
    (text content :: segments).filter isMath = segments.filter isMath := rfl

theorem filterMap_text (content : Text) (segments : List Segment) :
    (text content :: segments).filterMap prose? = content :: segments.filterMap prose? := rfl

theorem filter_of_isSpace {gap : List Segment}
    (hgap : ∀ segment ∈ gap, segment.isSpace = true) : gap.filter isMath = [] := by
  rw [List.filter_eq_nil_iff]
  intro segment hsegment
  obtain ⟨blanks, rfl⟩ := exists_of_isSpace (hgap segment hsegment)
  simp [isMath]

theorem filterMap_of_isSpace {gap : List Segment}
    (hgap : ∀ segment ∈ gap, segment.isSpace = true) : gap.filterMap prose? = [] := by
  rw [List.filterMap_eq_nil_iff]
  intro segment hsegment
  obtain ⟨blanks, rfl⟩ := exists_of_isSpace (hgap segment hsegment)
  rfl

/-- Formulas are neither lost nor moved. -/
theorem Merges.filter_isMath (h : Merges a b) : b.filter isMath = a.filter isMath := by
  induction h with
  | nil => rfl
  | keep segment _ ih => rw [List.filter_cons, List.filter_cons, ih]
  | join word _ hgap _ ih =>
    rw [filter_text] at ih
    rw [filter_text, filter_text, List.filter_append, filter_of_isSpace hgap, List.nil_append, ih]

/-- Every run holds one or more words of the list, in their order. -/
theorem Merges.exists_groups (h : Merges a b) :
    ∃ groups : List (List Text), [] ∉ groups ∧ groups.flatten = a.filterMap prose? ∧
      b.filterMap prose? = groups.map (Text.join [' ']) := by
  induction h with
  | nil => exact ⟨[], by simp, rfl, rfl⟩
  | keep segment _ ih =>
    obtain ⟨groups, hne, hflat, hmap⟩ := ih
    cases segment with
    | text word =>
      refine ⟨[word] :: groups, by simp [hne], ?_, ?_⟩
      · rw [filterMap_text, ← hflat]
        rfl
      · have hword : Text.join [' '] [word] = word := by simp [Text.join, List.intercalate]
        rw [filterMap_text, List.map_cons, hword, hmap]
    | math content => exact ⟨groups, hne, hflat, hmap⟩
    | space blanks => exact ⟨groups, hne, hflat, hmap⟩
  | @join word _ _ _ content _ hgap _ ih =>
    obtain ⟨groups, hne, hflat, hmap⟩ := ih
    -- The run behind the gap is the first group, and the word joins it.
    cases groups with
    | nil => cases hmap
    | cons group groups =>
      obtain ⟨hcontent, hrest⟩ := List.cons.inj hmap
      rw [List.mem_cons, not_or] at hne
      refine ⟨(word :: group) :: groups, by simp [hne.2], ?_, ?_⟩
      · rw [filterMap_text, List.filterMap_append, filterMap_of_isSpace hgap, List.nil_append,
          ← hflat]
        rfl
      · obtain ⟨first, more, rfl⟩ := List.exists_cons_of_ne_nil (Ne.symm hne.1)
        have hjoin : Text.join [' '] (word :: first :: more) = word ++ ' ' :: content := by
          rw [hcontent, Text.join, List.intercalate_cons_cons, List.append_assoc]
          rfl
        rw [filterMap_text, List.map_cons, hjoin, hrest]

/-- **Merged prose is a normal form.**  Merging a second time changes nothing, and no two runs have
only white space between them; formulas stay as they are, and the runs are the words of the list, in
their order, in groups that are joined by single spaces.  There is no other way to merge until
nothing is left to merge. -/
theorem mergeText_normalForm (segments : List Segment) :
    mergeText (mergeText segments) = mergeText segments ∧
      Merged (mergeText segments) ∧
      (mergeText segments).filter isMath = segments.filter isMath ∧
      (∃ groups : List (List Text), [] ∉ groups ∧
        groups.flatten = segments.filterMap prose? ∧
        (mergeText segments).filterMap prose? = groups.map (Text.join [' '])) ∧
      ∀ result, result = mergeText segments ↔ Merges segments result ∧ Merged result := by
  have hmerges := merges_mergeText segments
  have hmerged := merged_mergeText segments
  refine ⟨(eq_mergeText (.refl _) hmerged).symm, hmerged, hmerges.filter_isMath,
    hmerges.exists_groups, fun result => ⟨?_, fun h => eq_mergeText h.1 h.2⟩⟩
  rintro rfl
  exact ⟨hmerges, hmerged⟩

end MathNotes.Segment
