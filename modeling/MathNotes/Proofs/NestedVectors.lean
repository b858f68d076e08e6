import MathNotes.Proofs.Becoming
import MathNotes.Proofs.Enclosures

/-!
# Vectors and sets in formulas

A pass over the text of a formula puts aside its innermost vectors: behind the bracket of any other
vector, the next angle bracket opens one again.  As long as there are vectors, there are innermost
ones, so the passes end with a formula without vectors.  Sets there are none.
-/

namespace MathNotes

open Extract Formula

namespace Vector

variable {previous : Option Char} {p s rest : Text} {e e' : Formula Leaf} {n : Nat}

theorem misses_sign {c : Char} (hc : c ≠ '<') (text : Text) :
    pattern previous (c :: text) = none := by
  simp [pattern, Text.after?, hc]

/-- A text without angle brackets. -/
def Angleless (text : Text) : Prop := ∀ c ∈ text, (c != '<' && c != '>') = true

theorem angleless_append {a b : Text} : Angleless (a ++ b) ↔ Angleless a ∧ Angleless b :=
  List.forall_mem_append

theorem angleless_of_name (h : ∀ c ∈ p, isNameChar c = true) : Angleless p := by
  intro c hc
  have hname := h c hc
  simp only [Bool.and_eq_true, bne_iff_ne]
  constructor <;>
  · rintro rfl
    cases hname

theorem angleless_source (h : e.Above 6) : Angleless (e.source Leaf.text) := by
  intro c hc
  obtain ⟨hopening, hclosing⟩ := not_mem_angle h
  simp only [Bool.and_eq_true, bne_iff_ne]
  exact ⟨fun heq => hopening (heq ▸ hc), fun heq => hclosing (heq ▸ hc)⟩

/-- The bracket opens no vector if another one opens before one closes. -/
theorem misses_outer (hp : Angleless p) : pattern previous ('<' :: (p ++ '<' :: s)) = none := by
  have htake : (p ++ '<' :: s).takeWhile (fun c => c != '<' && c != '>') = p :=
    takeWhile_append_stop hp (by simp)
  simp only [pattern, Text.after?, beq_self_eq_true, if_true, Option.bind_eq_bind, Option.bind_some,
    htake, List.drop_left]
  rfl

theorem hitsAt_components (hp : Angleless p) (hcomma : ',' ∈ p)
    (hhead : ∀ c ∈ p.head?, barsEdge c = false)
    (hlast : ∀ c ∈ p.getLast?, (barsEdge c || c == '-') = false) (after : Text) :
    pattern.HitsAt previous ('<' :: (p ++ ['>'])) p after := by
  refine ⟨?_, by simp⟩
  rw [List.cons_append, List.append_assoc, List.singleton_append]
  have htake : (p ++ '>' :: after).takeWhile (fun c => c != '<' && c != '>') = p :=
    takeWhile_append_stop hp (by simp)
  have hhead' : p.head?.any barsEdge = false := by
    rw [Option.any_eq_false]
    exact hhead
  have hlast' : (p.getLast?.any fun c => barsEdge c || c == '-') = false := by
    rw [Option.any_eq_false]
    exact hlast
  simp only [pattern, Text.after?, beq_self_eq_true, if_true, Option.bind_eq_bind, Option.bind_some,
    htake, List.drop_left, List.contains_eq_mem, hcomma, hhead', hlast']
  simp [Hit.leaving]
  omega

/-! ## Innermost vectors -/

/-- A vector without vectors in its components. -/
def Innermost (e : Formula Leaf) : Prop := ∃ a b, e = join .vector a b ∧ a.Above 6 ∧ b.Above 6

/-- The first angle bracket in a formula with vectors is one that opens. -/
theorem exists_opening (h : e.Above 5) :
    e.Above 6 ∨ ∃ p s, e.source Leaf.text = p ++ '<' :: s ∧ Angleless p := by
  induction e with
  | leaf l => exact .inl trivial
  | wrap k e ih =>
    rcases ih h.2 with habove | ⟨p, s, hsource, hp⟩
    · refine .inl ⟨?_, habove⟩
      have := h.1
      cases k <;> simp [Wrapper.rank] at this ⊢
    · refine .inr ⟨k.word ++ k.opening ++ p, s ++ k.closing, by simp [source, hsource], ?_⟩
      refine angleless_append.mpr ⟨angleless_append.mpr
        ⟨angleless_of_name fun c hc => Wrapper.isNameChar_of_mem hc, ?_⟩, hp⟩
      cases k <;> simp [Angleless, Wrapper.opening]
  | join j a b iha ihb =>
    by_cases hj : j = .vector
    · subst hj
      exact .inr ⟨[], _, rfl, fun c hc => absurd hc List.not_mem_nil⟩
    · have hword : Angleless (j.word ++ j.opening) := by
        refine angleless_append.mpr
          ⟨angleless_of_name fun c hc => Joiner.isNameChar_of_mem hc, ?_⟩
        cases j <;> simp [Angleless, Joiner.opening] at hj ⊢
      have hmiddle : Angleless j.middle := by cases j <;> simp [Angleless, Joiner.middle]
      rcases iha h.2.1 with ha | ⟨p, s, hsource, hp⟩
      · rcases ihb h.2.2 with hb | ⟨p, s, hsource, hp⟩
        · refine .inl ⟨?_, ha, hb⟩
          cases j <;> simp [Joiner.rank] at hj ⊢
        · exact .inr ⟨j.word ++ j.opening ++ (a.source Leaf.text ++ (j.middle ++ p)),
            s ++ j.closing,
            by simp [source, hsource], angleless_append.mpr ⟨hword, angleless_append.mpr
              ⟨angleless_source ha, angleless_append.mpr ⟨hmiddle, hp⟩⟩⟩⟩
      · exact .inr ⟨j.word ++ j.opening ++ p, s ++ (j.middle ++ (b.source Leaf.text ++ j.closing)),
          by simp [source, hsource], angleless_append.mpr ⟨hword, hp⟩⟩

/-- What is put aside by a pass that puts nothing aside: there are no vectors. -/
theorem above_of_trimmed (h : Trimmed Innermost e e' n) (hn : n = 0) (he : e.Above 5) :
    e.Above 6 := by
  induction h with
  | leaf => trivial
  | mark _ => cases hn
  | @wrap k _ _ _ _ _ ih =>
    refine ⟨?_, ih hn he.2⟩
    have := he.1
    cases k <;> simp [Wrapper.rank] at this ⊢
  | @join j a b _ _ _ _ hown _ _ iha ihb =>
    have ha := iha (by omega) he.2.1
    have hb := ihb (by omega) he.2.2
    refine ⟨?_, ha, hb⟩
    cases j with
    | vector => exact absurd ⟨a, b, rfl, ha, hb⟩ hown
    | binomial => decide
    | fraction => decide

/-- Every vector that is put aside takes its brackets with it. -/
theorem count_trimmed (h : Trimmed Innermost e e' n) :
    (e'.source Leaf.text).count '<' + n ≤ (e.source Leaf.text).count '<' := by
  induction h with
  | leaf => exact Nat.le_refl _
  | @mark e n hown =>
    obtain ⟨a, b, rfl, -, -⟩ := hown
    have hmarker : (Marker.ofNat n).count '<' = 0 := List.count_eq_zero.mpr fun hmem => by
      cases Marker.nameChar_of_mem_ofNat hmem
    simp only [source, Leaf.text, hmarker, Joiner.word, Joiner.opening, List.count_append,
      List.count_cons_self, List.count_nil]
    omega
  | wrap _ _ ih =>
    simp only [source, List.count_append]
    omega
  | join _ _ _ iha ihb =>
    simp only [source, List.count_append]
    omega

/-! ## A pass -/

/-- What is done with the components of a vector. -/
def storeLatex (treat : Treatment) (components : Text) : Extract Text := do
  store (← latex treat components)

theorem barsEdge_head (e : Formula Leaf) (rest : Text) :
    ∀ c ∈ (e.source Leaf.text ++ rest).head?, barsEdge c = false := by
  intro c hc
  rw [List.head?_append_of_ne_nil _ e.source_ne_nil] at hc
  rcases head_source hc with hname | rfl | rfl | ⟨rfl, -⟩
  · rw [barsEdge, isBlank_of_isNameChar hname, Bool.false_or, beq_eq_false_iff_ne]
    rintro rfl
    cases hname
  · decide
  · decide
  · decide

theorem barsEdge_last (e : Formula Leaf) (text : Text) :
    ∀ c ∈ (text ++ e.source Leaf.text).getLast?, (barsEdge c || c == '-') = false := by
  intro c hc
  rw [List.getLast?_append_of_ne_nil _ e.source_ne_nil] at hc
  rcases last_source hc with hname | rfl | rfl | ⟨rfl, -⟩
  · rw [barsEdge, isBlank_of_isNameChar hname, Bool.false_or, Bool.or_eq_false_iff,
      beq_eq_false_iff_ne, beq_eq_false_iff_ne]
    constructor <;>
    · rintro rfl
      cases hname
  · decide
  · decide
  · decide

theorem hitsAt_vector {a b : Formula Leaf} (ha : a.Above 6) (hb : b.Above 6) (after : Text) :
    pattern.HitsAt previous
      ('<' :: ((a.source Leaf.text ++ ([',', ' '] ++ b.source Leaf.text)) ++ ['>']))
      (a.source Leaf.text ++ ([',', ' '] ++ b.source Leaf.text)) after := by
  refine hitsAt_components ?_ ?_ (barsEdge_head a _) ?_ after
  · exact angleless_append.mpr ⟨angleless_source ha, angleless_append.mpr
      ⟨by simp [Angleless], angleless_source hb⟩⟩
  · exact List.mem_append_right _ List.mem_cons_self
  · rw [← List.append_assoc]
    exact barsEdge_last b _

variable {treat : Treatment} {bound : Nat}

theorem gives_storeLatex (hsolves : treat.Solves bound) {a b : Formula Leaf} {G : Table}
    (he : (join .vector a b).Fits 5 (bound + 1)) (ha : a.Above 6) (hb : b.Above 6)
    (hG : (join .vector a b).Covered G) :
    ∃ (n : Nat) (G' : Table), Becomes G (.join .vector a b) G' (.leaf (.mark n)) ∧
      (storeLatex treat (a.source Leaf.text ++ ([',', ' '] ++ b.source Leaf.text))).Gives G
        (Marker.ofNat n) G' := by
  obtain ⟨l, G₁, hgives, hbecomes⟩ := hsolves true (Formula.trim_source a)
    (Nat.lt_succ_iff.mp he.first.2) he.first.1.proper hG.1
  obtain ⟨l', G₂, hgives', hbecomes'⟩ := hsolves true (Formula.trim_space_source b)
    (Nat.lt_succ_iff.mp he.second.2) he.second.1.proper (hbecomes.keeps hG.2).1
  refine ⟨G₂.length, _, hbecomes.store_join hbecomes' hG.2, Gives.bind ?_ (gives_store _ _)⟩
  rw [latex, splitTop_source ha hb]
  simp only [List.mapM_cons, List.mapM_nil, bind_assoc, pure_bind]
  refine hgives.bind (hgives'.bind (gives_pure_eq ?_ _))
  rw [Becomes.text_joined, Joiner.frame_vector]
  simp [Text.join, List.intercalate]

/-- A vector that is not innermost has a component with a vector: the next angle bracket behind the
one that opens it opens another. -/
theorem exists_next_opening {a b : Formula Leaf} (ha : a.Above 5) (hb : b.Above 5)
    (h : ¬Innermost (.join .vector a b)) (rest : Text) :
    ∃ p s, a.source Leaf.text ++ ([',', ' '] ++ (b.source Leaf.text ++ rest)) = p ++ '<' :: s ∧
      Angleless p := by
  rcases exists_opening ha with ha | ⟨p, s, hsource, hp⟩
  · rcases exists_opening hb with hb | ⟨p, s, hsource, hp⟩
    · exact absurd ⟨a, b, rfl, ha, hb⟩ h
    · exact ⟨a.source Leaf.text ++ ([',', ' '] ++ p), s ++ rest, by simp [hsource],
        angleless_append.mpr ⟨angleless_source ha, angleless_append.mpr
          ⟨by simp [Angleless], hp⟩⟩⟩
  · exact ⟨p, s ++ ([',', ' '] ++ (b.source Leaf.text ++ rest)), by simp [hsource], hp⟩

/-- **A pass puts the innermost vectors aside.** -/
theorem putsAside_innermost (hsolves : treat.Solves bound) :
    Scanner.PutsAside (.replacing pattern (storeLatex treat)) Innermost 5 (bound + 1) where
  leaf _ _ := Scanner.passes_replacing (Pattern.misses_of_forall fun c hc _ text =>
    misses_sign (fun heq => by cases heq ▸ Leaf.isNameChar_of_mem hc) text)
  wrap {k _ _ _} _ _ _ := Scanner.passes_replacing (Pattern.misses_of_forall fun c hc _ text =>
    misses_sign (fun heq => by
      rcases List.mem_append.mp hc with hc | hc
      · cases heq ▸ Wrapper.isNameChar_of_mem hc
      · subst heq
        cases k <;> simp [Wrapper.opening] at hc) text)
  join {j a b previous rest} he hown _ := by
    refine Scanner.passes_replacing ?_
    by_cases hj : j = .vector
    · subst hj
      obtain ⟨p, s, hnext, hp⟩ :=
        exists_next_opening he.above.2.1 he.above.2.2 hown ('>' :: rest)
      refine ⟨?_, Pattern.misses_nil⟩
      exact (congrArg (fun text => pattern previous ('<' :: text)) hnext).trans (misses_outer hp)
    · refine Pattern.misses_of_forall fun c hc _ text => misses_sign (fun heq => ?_) text
      rcases List.mem_append.mp hc with hc | hc
      · cases heq ▸ Joiner.isNameChar_of_mem hc
      · subst heq
        cases j <;> simp [Joiner.opening] at hc hj
  sign hsigns := Scanner.passes_replacing (Pattern.misses_of_forall fun c hc _ text =>
    misses_sign (fun heq => by
      subst heq
      exact absurd (hsigns _ hc) (by decide)) text)
  hit {e G} he hown hG := by
    obtain ⟨a, b, rfl, ha, hb⟩ := hown
    obtain ⟨n, G', hbecomes, hgives⟩ := gives_storeLatex hsolves he ha hb hG
    refine ⟨n, G', hbecomes, ?_⟩
    intro rounds previous rest r G'' _ _ hrest
    have htext : source Leaf.text (.join .vector a b) ++ rest =
        '<' :: ((a.source Leaf.text ++ ([',', ' '] ++ b.source Leaf.text)) ++ ['>']) ++ rest := by
      simp [source, Joiner.word, Joiner.opening, Joiner.middle, Joiner.closing]
    rw [htext, Scanner.replacing_of_hitsAt (storeLatex treat) (hitsAt_vector ha hb rest) _ rounds]
    exact hgives.bind ((hrest _).bind (gives_pure _ _))

end Vector

/-! ## The steps -/

theorem clears_vectors : Step.Clears Construct.vectors 5 6 := by
  intro treat bound rounds hsolves hrounds e G he hG
  -- Every pass but the last one puts a construct aside.
  have hpasses := he.constructs_lt hrounds
  clear hrounds
  induction rounds generalizing e G with
  | zero => cases hpasses
  | succ rounds ih =>
    obtain ⟨e₁, n, G₁, htrimmed, hbecomes, hgives⟩ :=
      (Vector.putsAside_innermost hsolves).gives_all (fun e habove => absurd habove.1 (by decide))
        (by rintro e ⟨a, b, rfl, -, -⟩; exact Nat.succ_pos _)
        (fun _ _ G => gives_pure [] G) (Nat.le_refl _) he hG
    rw [Construct.vectors]
    by_cases hn : n = 0
    · have habove := Vector.above_of_trimmed htrimmed hn he.above
      rw [htrimmed.eq_self hn] at hgives hbecomes
      refine ⟨e, G₁, Gives.bind hgives ?_, hbecomes, habove, he.proper, he.small⟩
      rw [if_pos rfl]
      exact gives_pure _ _
    · have hcount := Vector.count_trimmed htrimmed
      have hne : e₁.source Leaf.text ≠ e.source Leaf.text := by
        intro heq
        rw [heq] at hcount
        omega
      have hconstructs := htrimmed.constructs_le (by
        rintro e ⟨a, b, rfl, -, -⟩
        exact Nat.succ_pos _)
      obtain ⟨e₂, G₂, hgives', hbecomes', hfits⟩ :=
        ih (htrimmed.fits he) hbecomes.covered (by omega)
      refine ⟨e₂, G₂, Gives.bind hgives ?_, hbecomes.trans hbecomes', hfits⟩
      rw [if_neg hne]
      exact hgives'

/-- There is no brace in a formula. -/
theorem clears_setBuilders : Step.Clears Construct.setBuilders 7 7 := by
  intro treat bound rounds _ _ e G he hG
  refine ⟨e, G, ?_, .refl hG, he⟩
  have hbrace : '{' ∉ e.source Leaf.text := not_mem_source_of_foreign rfl (by decide) e
  rw [Construct.setBuilders]
  cases rounds with
  | zero => exact gives_pure _ _
  | succ rounds =>
    rw [SetBuilder.collect]
    cases hbreak : Text.breakOn? ['{'] (e.source Leaf.text) with
    | none => exact gives_pure _ _
    | some parts =>
      rw [Text.breakOn?_spec hbreak] at hbrace
      exact absurd (by simp) hbrace

end MathNotes
