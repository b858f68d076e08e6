import MathNotes.Proofs.CheckedExtraction
import MathNotes.Proofs.Enclosures
import MathNotes.Proofs.Operands
import MathNotes.Proofs.Resolution
import MathNotes.Proofs.Segmentation

/-!
# Extraction along the catalogue

Every step of the extraction is sound, so all of them one after the other are, at every depth of
nesting (`Construct.follows_treatment`).  What extraction leaves of a line is therefore carried
along from the line (`Construct.exists_extract`): no construct is lost or doubled, and the fragments
point backward (`Construct.extract_conserves_markers`).
-/

namespace MathNotes

open Marked Extract

namespace Construct

/-- **Every step of the extraction runs along the catalogue.** -/
theorem sound_of_mem_steps : ∀ step ∈ steps, Step.Sound step := by
  simp only [steps, List.forall_mem_cons]
  exact ⟨Call.sound_factorials, Bound.sound_boundedOperators, Call.sound_rootsAndArrows,
    Call.sound_floorsAndCeilings, Call.sound_functions, sound_vectors, Call.sound_binomials,
    sound_setBuilders, sound_absoluteValues, sound_fractions, sound_subscripts, sound_exponents,
    List.forall_mem_nil _⟩

/-- Sound steps, one after the other. -/
theorem runs_foldlM {treat : Treatment} {Arg : Treating} (hfollows : treat.Follows Arg)
    (hArg : Arg.Carrying) (rounds : Nat) {list : List Step} (hlist : ∀ step ∈ list, step.Sound)
    {w : Marked} {G : Table} (hready : G.Ready w) :
    (list.foldlM (fun text (step : Step) => step rounds treat text) w.text).Runs Arg [] w G := by
  induction list generalizing w G with
  | nil => exact runs_pure Arg [] w G
  | cons step list ih =>
    obtain ⟨hstep, hlist⟩ := List.forall_mem_cons.mp hlist
    obtain ⟨w₁, G₁, hgives, hrun⟩ := hstep hfollows hArg rounds hready
    have hrest := ih hlist (hrun.ready hArg hready)
    rw [List.foldlM_cons]
    exact Runs.bind (f := fun text => list.foldlM (fun text (step : Step) => step rounds treat text)
      text) hrest hgives hrun

/-- The treatment of arguments where constructs may nest `depth` levels deep in them. -/
def treatment (rounds depth : Nat) : Treatment := fun prose argument =>
  if depth = 0 then Extract.keep (Text.trim argument)
  else do return segmentLine prose (← extract rounds depth (Text.trim argument))

theorem extract_succ (rounds depth : Nat) (text : Text) :
    extract rounds (depth + 1) text = runSteps rounds (treatment rounds depth) text := by
  rw [extract]
  rfl

/-- **The treatment of arguments follows the catalogue at every depth.** -/
theorem follows_treatment (rounds depth : Nat) :
    (treatment rounds depth).Follows (Treated depth) := by
  induction depth with
  | zero =>
    intro prose a G hready
    obtain ⟨t, htrims⟩ := exists_trims a
    refine ⟨t, G, ?_, htrims, rfl⟩
    rw [htrims.1]
    exact gives_keep _ _
  | succ depth ih =>
    intro prose a G hready
    obtain ⟨b, htrims⟩ := exists_trims a
    have hready' : G.Ready b := hready.recasts htrims.recasts
    obtain ⟨w, G', hgives, hrun⟩ :=
      runs_foldlM ih (treated_carries depth) rounds sound_of_mem_steps hready'
    obtain ⟨t, ht, hcasts⟩ := exists_segmentLine prose w
    refine ⟨t, G', ?_, b, w, htrims, hrun, ht, hcasts⟩
    have htreat : treatment rounds (depth + 1) prose a.text = (do
        return segmentLine prose (← extract rounds (depth + 1) b.text)) := by
        rw [htrims.1]
        rfl
    rw [htreat, extract_succ, ht]
    exact hgives.bind (gives_pure _ _)

/-! ## What extraction leaves of a line -/

/-- What extraction leaves of a text: a line and fragments that carry the text along, and no more
fragments than the text has openers. -/
structure Leaves (text : Text) (w : Marked) (G : Table) : Prop where
  carries : Carries [] (plain text) G w
  length_le : G.length ≤ (plain text).weight

/-- What extraction leaves of a text is reached by a run along the catalogue. -/
theorem exists_run (rounds depth : Nat) {text : Text} (h : text.Clear) :
    ∃ (w : Marked) (G : Table) (kept : List Text),
      extract rounds depth text {} = (w.text, ⟨G.texts, kept⟩) ∧
        Run (Treated (depth - 1)) (plain text, []) (w, G) := by
  cases depth with
  | zero =>
    refine ⟨plain text, [], [text], ?_, .refl⟩
    rw [text_plain]
    rfl
  | succ depth =>
    have hready : Table.Ready [] (plain text) := ⟨by simp [Table.Covers], by simpa using h⟩
    obtain ⟨w, G, hgives, hrun⟩ := runs_foldlM (follows_treatment rounds depth)
      (treated_carries depth) rounds sound_of_mem_steps hready
    obtain ⟨kept, hextract⟩ := hgives []
    refine ⟨w, G, kept, ?_, hrun⟩
    rw [extract_succ, ← text_plain text]
    exact hextract

theorem exists_extract (rounds depth : Nat) {text : Text} (h : text.Clear) :
    ∃ (w : Marked) (G : Table) (kept : List Text),
      extract rounds depth text {} = (w.text, ⟨G.texts, kept⟩) ∧ Leaves text w G := by
  obtain ⟨w, G, kept, hextract, hrun⟩ := exists_run rounds depth h
  have hcovers : Table.Covers [] (plain text) := by simp [Table.Covers]
  obtain ⟨H, hH, hcarries⟩ := hrun.carries (treated_carries _) hcovers
  obtain rfl : G = H := hH
  have hlength := hrun.length_le (treated_thrifty _)
  simp only [List.length_nil] at hlength
  exact ⟨w, G, kept, hextract, hcarries, by omega⟩

namespace Leaves

variable {text : Text} {w : Marked} {G : Table}

theorem numbers (h : Leaves text w G) :
    (w.numbers ++ G.flatMap Marked.numbers).Perm (List.range G.length) := by
  simpa [List.range_eq_range'] using h.carries.numbers

theorem backward (h : Leaves text w G) : G.Backward := fun k n hn => by
  simpa using h.carries.backward k n hn

theorem ready (h : Leaves text w G) (hclear : text.Clear) : G.Ready w :=
  ⟨h.carries.covers (by simp [Table.Covers]), h.carries.clear (by simpa using hclear)⟩

/-- **All fragments are written out within the line**, so they are as clear as the line is. -/
theorem clear_value (h : Leaves text w G) (hclear : text.Clear) {n : Nat} (hn : n < G.length) :
    (G.value n).Clear := by
  -- A marker stands in the line, or in a later fragment.
  induction hk : G.length - n using Nat.strongRecOn generalizing n with
  | ind k ih =>
    rcases List.mem_append.mp (h.numbers.mem_iff.mpr (List.mem_range.mpr hn)) with hline | hfragment
    · exact (h.ready hclear).clear.within (Table.value_within hline)
    · obtain ⟨fragment, hmem, hnumber⟩ := List.mem_flatMap.mp hfragment
      obtain ⟨j, hj, rfl⟩ := List.mem_iff_getElem.mp hmem
      have hget : G.getD j [] = G[j] := by simp [hj]
      rw [← hget] at hnumber
      have hlater : n < j := h.backward j n hnumber
      have hvalue := ih (G.length - j) (by omega) hj rfl
      rw [h.backward.value_eq] at hvalue
      exact hvalue.within (Table.value_within hnumber)

/-- Every fragment may be worked on. -/
theorem ready_fragment (h : Leaves text w G) (hclear : text.Clear) (k : Nat) :
    G.Ready (G.getD k []) := by
  by_cases hk : k < G.length
  · exact ⟨fun n hn => (h.backward k n hn).trans hk,
      h.backward.value_eq k ▸ h.clear_value hclear hk⟩
  · rw [show G.getD k [] = [] by simp [Nat.le_of_not_lt hk]]
    exact ⟨by simp [Table.Covers], Text.clear_nil⟩

theorem ready_of_mem (h : Leaves text w G) (hclear : text.Clear) {fragment : Marked}
    (hmem : fragment ∈ G) : G.Ready fragment := by
  obtain ⟨k, hk, rfl⟩ := List.mem_iff_getElem.mp hmem
  have hget : G.getD k [] = G[k] := by simp [hk]
  exact hget ▸ h.ready_fragment hclear k

/-- The markers of the fragments, as they are found in their texts. -/
theorem hits_fragments (h : Leaves text w G) (hclear : text.Clear) :
    G.texts.flatMap Marker.pattern.hits = (G.flatMap Marked.numbers).map Text.ofNat := by
  rw [Table.texts, List.flatMap_map, List.map_flatMap]
  exact List.flatMap_congr fun fragment hmem => hits_text (h.ready_of_mem hclear hmem).tidy

end Leaves

/-- **No construct is lost or doubled, and the fragments point backward**, whatever the limits are.
In the line that is left together with all fragments, each fragment has its marker in exactly one
place, there are no other markers, and a fragment holds only markers of earlier ones. -/
theorem extract_conserves_markers (text : Text) (h : ¬ "PH".toList <:+: text) (rounds depth : Int) :
    ∃ (working : Text) (fragments : Fragments) (kept : List Text),
      (Checked.extract rounds.toNat depth.toNat text).run {} = (.ok working, ⟨fragments, kept⟩) ∧
      (Marker.pattern.hits working ++ fragments.flatMap Marker.pattern.hits).Perm
        ((List.range fragments.length).map Text.ofNat) ∧
      ∀ k, ∀ digits ∈ Marker.pattern.hits (fragments.getD k []), decimalNumber digits < k := by
  have hclear := Text.clear_iff_not_infix.mpr h
  obtain ⟨w, G, kept, hextract, hleaves⟩ := exists_extract rounds.toNat depth.toNat hclear
  refine ⟨w.text, G.texts, kept, by rw [Checked.run_extract, hextract], ?_, ?_⟩
  · rw [Table.texts_length, hits_text (hleaves.ready hclear).tidy, hleaves.hits_fragments hclear,
      ← List.map_append]
    exact hleaves.numbers.map _
  · intro k digits hdigits
    rw [Table.texts_getD, hits_text (hleaves.ready_fragment hclear k).tidy] at hdigits
    obtain ⟨n, hn, rfl⟩ := List.mem_map.mp hdigits
    rw [decimalNumber_ofNat]
    exact hleaves.backward k n hn

theorem extract_conserves_markers_nested :
    ¬ "PH".toList <:+: "sqrt((x)/(2))^(n) + |a_(i)|".toList ∧
    ∃ (working : Text) (fragments : Fragments) (kept : List Text),
      (Checked.extract (64 : Int).toNat (32 : Int).toNat
        "sqrt((x)/(2))^(n) + |a_(i)|".toList).run {} = (.ok working, ⟨fragments, kept⟩) ∧
      (Marker.pattern.hits working ++ fragments.flatMap Marker.pattern.hits).Perm
        ((List.range fragments.length).map Text.ofNat) ∧
      ∀ k, ∀ digits ∈ Marker.pattern.hits (fragments.getD k []), decimalNumber digits < k :=
  ⟨by decide, extract_conserves_markers "sqrt((x)/(2))^(n) + |a_(i)|".toList (by decide) 64 32⟩

end Construct

end MathNotes
