import MathNotes.Proofs.CheckedExtraction
import MathNotes.Proofs.Extraction

/-!
# Lines and their fragments

A line is compiled through a table of fragments.  What stands in the line and in the table is
carried along from the line as it was written (`Expression.exists_segmented`), so putting the
fragments back is exactly understood: it takes as many passes as fragments are nested
(`Expression.resolve_segmented`).
-/

namespace MathNotes

open Marked

namespace Expression

/-- **A line before its fragments are put back** is what extraction leaves of it, recast. -/
theorem exists_segmented (settings : Settings) {line : Text} (h : line.Clear) :
    ∃ (w : Marked) (G : Table) (kept : List Text),
      segmented settings line = (w.text, ⟨G.texts, kept⟩) ∧
        Construct.Leaves (Symbol.substituteConstants line) w G := by
  obtain ⟨w, G, kept, hextract, hleaves⟩ := Construct.exists_extract settings.rounds.toNat
    settings.depth.toNat ((Symbol.substituteConstants_spec line).2.1 h)
  obtain ⟨t, ht, hcasts⟩ := exists_segmentLine true w
  refine ⟨t, G, kept, ?_, ?_, hleaves.length_le⟩
  · rw [segmented, hextract, ht]
  · have hcarries := hleaves.carries.trans (.of_recasts ([] ++ G) hcasts)
    simpa using hcarries

variable {line : Text} {w : Marked} {G : Table}

/-- There are no more fragments than characters in the line. -/
theorem length_le_of_leaves (h : Construct.Leaves (Symbol.substituteConstants line) w G) :
    G.length ≤ line.length :=
  h.length_le.trans (Symbol.substituteConstants_spec line).2.2

/-- A clear text has no markers. -/
theorem occursIn_of_clear {text : Text} (h : text.Clear) : Marker.occursIn text = false := by
  have hfill : ((plain text).fill Marker.ofNat).Clear := by simpa using h
  rw [Marker.occursIn, Pattern.occursIn, ← text_plain text, hits_text (tidy_of_clear hfill),
    numbers_plain]
  rfl

/-- **Bounded resolution.** Whatever the limit, the passes that run are as many as the nesting
height of the line asks for and the limit allows, and markers are left exactly when the limit is
below the height; otherwise the line is its full recursive expansion.  Of the line and of every
fragment, height and expansion are given by those of the fragments that their markers stand for.

That there are fewer than `10 ^ Fault.digitLimit` characters makes sure that the number of every
marker is short enough to be read. -/
theorem resolve_segmented (settings : Settings) (line : Text) (h : ¬ "PH".toList <:+: line)
    (hsize : line.length ≤ 10 ^ Fault.digitLimit) (limit : Int) :
    ∃ (s : Text) (T : Fragments) (kept : List Text),
    (segment settings line).run {} = (.ok s, ⟨T, kept⟩) ∧
    (∃ latex, T.resolve limit s =
        .ok ⟨latex, min limit.toNat (T.height s), decide (limit.toNat < T.height s)⟩ ∧
      (T.height s ≤ limit.toNat → latex = T.expand s ∧ Marker.occursIn latex = false)) ∧
    ∀ text ∈ s :: T,
      (∀ digits ∈ Marker.pattern.hits text, decimalNumber digits < T.length) ∧
      T.height text = Fragments.greatest ((Marker.pattern.hits text).map fun digits =>
        T.height (T.getD (decimalNumber digits) []) + 1) ∧
      T.expand text = Marker.pattern.replace (fun digits =>
        T.expand (T.getD (decimalNumber digits) [])) text := by
  have hclear := Text.clear_iff_not_infix.mpr h
  have hconstants := (Symbol.substituteConstants_spec line).2.1 hclear
  obtain ⟨w, G, kept, hsegmented, hleaves⟩ := exists_segmented settings hclear
  have hready := hleaves.ready hconstants
  have hlimit := (length_le_of_leaves hleaves).trans hsize
  refine ⟨w.text, G.texts, kept, by rw [run_segment, hsegmented], ?_, ?_⟩
  · obtain ⟨r, hr⟩ := Table.exists_resolveFrom hleaves.backward hready hlimit 0 limit.toNat
    obtain ⟨hpasses, hunresolved, hlatex⟩ := Table.resolveFrom_spec hleaves.backward hready hr
    refine ⟨r.latex, ?_, fun hheight => ?_⟩
    · rw [Fragments.resolve, hr, ← hunresolved, ← Nat.zero_add (min _ _), ← hpasses]
    · rw [hlatex hheight, Table.expand_text hleaves.backward hready]
      exact ⟨rfl, occursIn_of_clear hready.clear⟩
  · intro text htext
    obtain ⟨u, rfl, hu⟩ : ∃ u : Marked, u.text = text ∧ G.Ready u := by
      rcases List.mem_cons.mp htext with rfl | hmem
      · exact ⟨w, rfl, hready⟩
      · obtain ⟨fragment, hfragment, rfl⟩ := List.mem_map.mp hmem
        exact ⟨fragment, rfl, hleaves.ready_of_mem hconstants hfragment⟩
    refine ⟨fun digits hdigits => ?_, Table.height_eq hleaves.backward hu,
      Table.expand_eq hleaves.backward hu⟩
    rw [hits_text hu.tidy] at hdigits
    obtain ⟨n, hn, rfl⟩ := List.mem_map.mp hdigits
    rw [decimalNumber_ofNat, Table.texts_length]
    exact hu.covers n hn

theorem resolve_segmented_nested :
    (¬ "PH".toList <:+: "sqrt((x)/(2))^(n) + |a_(i)|".toList ∧
      "sqrt((x)/(2))^(n) + |a_(i)|".toList.length ≤ 10 ^ Fault.digitLimit) ∧
    ∃ (s : Text) (T : Fragments) (kept : List Text),
    (segment {} "sqrt((x)/(2))^(n) + |a_(i)|".toList).run {} = (.ok s, ⟨T, kept⟩) ∧
    (∃ latex, T.resolve 1 s =
        .ok ⟨latex, min (1 : Int).toNat (T.height s), decide ((1 : Int).toNat < T.height s)⟩ ∧
      (T.height s ≤ (1 : Int).toNat → latex = T.expand s ∧ Marker.occursIn latex = false)) ∧
    ∀ text ∈ s :: T,
      (∀ digits ∈ Marker.pattern.hits text, decimalNumber digits < T.length) ∧
      T.height text = Fragments.greatest ((Marker.pattern.hits text).map fun digits =>
        T.height (T.getD (decimalNumber digits) []) + 1) ∧
      T.expand text = Marker.pattern.replace (fun digits =>
        T.expand (T.getD (decimalNumber digits) [])) text := by
  have hsize : "sqrt((x)/(2))^(n) + |a_(i)|".toList.length ≤ 10 ^ Fault.digitLimit :=
    Fault.le_pow_digitLimit (by decide)
  exact ⟨⟨by decide, hsize⟩,
    resolve_segmented {} "sqrt((x)/(2))^(n) + |a_(i)|".toList (by decide) hsize 1⟩

end Expression

end MathNotes
