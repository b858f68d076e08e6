import MathNotes.Proofs.NestedCalls
import MathNotes.Proofs.Scripts

/-!
# Scripts in formulas

When only scripts are left in a formula, it is a leaf with scripts around it.  Subscripts are
collected like calls; an exponent is on a single letter, and what it stands around is a leaf then.
-/

namespace MathNotes

open Extract Formula

namespace Script

variable {α : Type} {pattern : Pattern α} {previous : Option Char} {rest : Text}

/-- The pattern applies only to a letter with an underscore behind it. -/
def OnUnderscore (pattern : Pattern α) : Prop :=
  ∀ ⦃previous : Option Char⦄ ⦃c : Char⦄ ⦃text : Text⦄ ⦃hit : Hit α⦄,
    pattern previous (c :: text) = some hit → c.isAlpha = true ∧ text.head? = some '_'

theorem onUnderscore_subscriptHead : OnUnderscore subscriptHead := by
  intro previous c text hit h
  obtain ⟨matched, after, htext, -, -, rfl, halpha⟩ := recognises_subscriptHead h
  obtain ⟨rfl, rfl⟩ := List.cons.inj htext
  exact ⟨halpha, rfl⟩

theorem onUnderscore_bare : OnUnderscore (bare Char.isAlpha '_') := by
  intro previous c text hit h
  obtain ⟨matched, after, htext, -, -, rfl, halpha, -⟩ := recognises_bare Char.isAlpha '_' h
  obtain ⟨rfl, rfl⟩ := List.cons.inj htext
  exact ⟨halpha, rfl⟩

theorem OnUnderscore.misses (h : OnUnderscore pattern) {c : Char} {text : Text}
    (hc : c.isAlpha = false ∨ text.head? ≠ some '_') : pattern previous (c :: text) = none := by
  by_contra hne
  obtain ⟨hit, hhit⟩ := Option.ne_none_iff_exists'.mp hne
  obtain ⟨halpha, hhead⟩ := h hhit
  rcases hc with hc | hc
  · rw [hc] at halpha
    cases halpha
  · exact hc hhead

/-- No letter of a leaf has an underscore behind it: in a marker, letters stand before digits. -/
theorem OnUnderscore.misses_leaf (h : OnUnderscore pattern) (l : Leaf) (hends : Ends rest) :
    pattern.Misses previous l.text rest := by
  rcases l with (v | n) | n
  · refine ⟨h.misses (.inr fun hhead => ?_), Pattern.misses_nil⟩
    exact absurd (hends '_' hhead) (by decide)
  · exact Pattern.misses_of_forall fun c hc _ _ => h.misses (.inl (isAlpha_of_isDigit (n.2.2 c hc)))
  · obtain ⟨d, digits, hdigits⟩ := List.exists_cons_of_ne_nil (Marker.textOfNat_ne_nil n)
    have hdigit : ∀ c ∈ Text.ofNat n, c.isAlpha = false := fun c hc =>
      isAlpha_of_isDigit (Marker.digit_of_mem_ofNat hc)
    have hfirst : d ≠ '_' := by
      rintro rfl
      have := Marker.digit_of_mem_ofNat (n := n) (c := '_')
        (by rw [hdigits]; exact List.mem_cons_self)
      cases this
    rw [Leaf.text, Marker.ofNat_eq]
    refine ⟨h.misses (.inl rfl), h.misses (.inl rfl), h.misses (.inr (by simp)),
      h.misses (.inr (by simpa [hdigits] using hfirst)), ?_⟩
    refine Pattern.misses_of_forall fun c hc _ _ => h.misses (.inl ?_)
    rcases List.mem_append.mp hc with hc | hc
    · exact hdigit c hc
    · simp only [List.mem_cons, List.not_mem_nil, or_false, or_self] at hc
      rw [hc]
      rfl

/-- Where only exponents are left, nothing has an underscore behind a letter. -/
theorem OnUnderscore.misses_source (h : OnUnderscore pattern) {e : Formula Leaf} (he : e.Above 11)
    (hends : Ends rest) : pattern.Misses previous (e.source Leaf.text) rest := by
  induction e generalizing previous rest with
  | leaf l => exact h.misses_leaf l hends
  | wrap k e ih =>
    cases k with
    | power v =>
      have hclosing : pattern.Misses ((e.source Leaf.text).getLast?.or (some '(')) [')'] rest :=
        ⟨h.misses (.inl rfl), Pattern.misses_nil⟩
      have hpart := Pattern.misses_append (ih he.2 (Wrapper.ends_closing (.power v) rest)) hclosing
      exact ⟨h.misses (.inr (by simp [Wrapper.opening])), h.misses (.inl rfl), h.misses (.inl rfl),
        hpart⟩
    | _ => exact absurd he.1 (by simp [Wrapper.rank])
  | join j a b => exact absurd he.1 (by cases j <;> simp [Joiner.rank])

/-- The subscripts of a formula are found, and nothing else. -/
theorem finds_subscripts {treat : Treatment} {bound : Nat} (hsolves : treat.Solves bound) :
    Call.Finds subscriptHead (fun letter argument => do
      return some (Latex.withSubscript [letter] (← treat false argument)))
      (fun e => e.rank = 11) 10 (bound + 1) where
  leaf _ hends := onUnderscore_subscriptHead.misses_leaf _ hends
  wrap {k _ _} rest hrank hown _ := by
    have h := onUnderscore_subscriptHead
    cases k with
    | power v => exact ⟨h.misses (.inr (by simp [Wrapper.opening])), h.misses (.inl rfl),
        h.misses (.inl rfl), Pattern.misses_nil⟩
    | subscript v => exact absurd rfl hown
    | _ => exact absurd hrank (by simp [Wrapper.rank])
  join {j _ _ _} rest hrank _ _ := absurd hrank (by cases j <;> simp [Joiner.rank])
  sign previous text hc := by
    have key : ∀ c ∈ [')', '/', '(', ',', ' ', '|', '>'], c.isAlpha = false := by decide
    exact onUnderscore_subscriptHead.misses (.inl (key _ hc))
  hit {e G} he hown hG := by
    cases e with
    | leaf l => cases hown
    | join j a b => cases j <;> cases hown
    | wrap k a =>
      cases k with
      | subscript v =>
        obtain ⟨l, G₁, hgives, hbecomes⟩ := hsolves false (Formula.trim_source a)
          (Nat.lt_succ_iff.mp he.part.2) he.part.1.proper hG
        refine ⟨[v.val, '_', '('], a.source Leaf.text, v.val, _, G₁, rfl,
          fun previous after _ => ?_,
          a.balanced, hgives.bind (gives_pure_eq (congrArg some ?_) _), hbecomes.store_wrap⟩
        · refine ⟨?_, by simp⟩
          simp [subscriptHead, v.2, Text.after?, Hit.leaving, Nat.add_assoc]
        · rw [Becomes.text_wrapped]
          rfl
      | _ => cases hown

end Script

theorem clears_subscripts : Step.Clears Construct.subscripts 10 11 := by
  intro treat bound rounds hsolves hrounds e G he hG
  obtain ⟨e', n, G', htrimmed, hbecomes, hgives⟩ :=
    (Script.finds_subscripts hsolves).putsAside.gives_all
      (fun e habove => absurd habove.1 (by decide))
      (fun e hown => by cases e with
        | leaf l => cases hown
        | wrap k e => exact Nat.succ_pos _
        | join j a b => exact Nat.succ_pos _)
      Call.gives_collect_nil hrounds he hG
  have habove : e'.Above 11 := htrimmed.above_rank (by decide) he.above
  refine ⟨e', G', hgives.bind ?_, hbecomes, habove, htrimmed.proper he.proper,
    htrimmed.nodes_le.trans he.small⟩
  -- Bare subscripts are not left.
  rw [replaceM_of_misses (Script.onUnderscore_bare.misses_source habove ends_nil)]
  exact gives_pure _ _

/-! ## Exponents -/

namespace Script

variable {treat : Treatment} {rounds : Nat} {text before : Text}

/-- Without a mark there is no exponent in brackets. -/
theorem collectExponents_of_not_mem (h : '^' ∉ text) :
    collectExponents treat rounds before text = pure (before ++ text) := by
  cases rounds with
  | zero => rfl
  | succ rounds =>
    rw [collectExponents]
    cases hbreak : Text.breakOn? "^(" text with
    | none => rfl
    | some parts =>
      rw [Text.breakOn?_spec hbreak] at h
      exact absurd (by simp) h

/-- Without a mark there is no other exponent, either. -/
theorem bareExponents_of_not_mem (h : '^' ∉ text) :
    (do
      let text ← bareExponent.replaceM (fun script => store (inBraces '^' script)) text
      collectMarkerExponents rounds text) = pure text := by
  have hsigns : ∀ c ∈ ['^'], c ∉ text := by simpa using h
  have hbare : bareExponent.Misses none text [] := by
    refine Pattern.misses_of_not_mem (fun previous text hit hhit => ?_) hsigns
    obtain ⟨matched, after, rfl, -, -, rfl, -⟩ := recognises_bareExponent hhit
    simp
  have hmarker : markerExponent.Misses none text [] := by
    refine Pattern.misses_of_not_mem (fun previous text hit hhit => ?_) hsigns
    obtain ⟨matched, after, rfl, -, -, digits, -, -, rfl | ⟨rfl, -⟩⟩ :=
      recognises_markerExponent hhit <;> simp
  rw [replaceM_of_misses hbare, pure_bind]
  cases rounds with
  | zero => rfl
  | succ rounds => rw [collectMarkerExponents, Pattern.find?_of_misses hmarker]

theorem not_mem_leaf (l : Leaf) : '^' ∉ l.text := fun h => by
  cases Leaf.isNameChar_of_mem h

theorem exponentBase?_letter (v : Letter) : exponentBase? [v.val] = some (0, [v.val]) := by
  have halphanum : v.val.isAlphanum = true := by simp [Char.isAlphanum, v.2]
  have hend : Marker.atEnd? [v.val] = none := by
    cases hfound : Marker.atEnd? [v.val] with
    | none => rfl
    | some parts =>
      -- A marker is longer than one character.
      obtain ⟨newline, hw, -⟩ := dropFinalNewline_append [v.val]
      obtain ⟨hdrop, hmarker, -⟩ := longestEnd?_eq_some hfound
      obtain ⟨digits, hdigits, -⟩ := Marker.isMarker_iff.mp hmarker
      rw [hdrop, hdigits] at hw
      have hlength := congrArg List.length hw
      simp [Marker.ofDigits, Marker.lead, Marker.tail] at hlength
      omega
  have hbracket : (v.val == ')') = false := by simpa using v.ne_of_not_isAlpha rfl
  rw [exponentBase?, hend]
  simp [hbracket, isLetterOrNumber_of_isAlphanum halphanum]

end Script

theorem clears_exponents : Step.Clears Construct.exponents 11 12 := by
  intro treat bound rounds hsolves hrounds e G he hG
  cases e with
  | leaf l =>
    refine ⟨.leaf l, G, ?_, .refl hG, trivial, trivial, he.small⟩
    rw [Construct.exponents, source, Script.collectExponents_of_not_mem (Script.not_mem_leaf l),
      pure_bind, List.nil_append, Script.bareExponents_of_not_mem (Script.not_mem_leaf l)]
    exact gives_pure _ _
  | join j a b => exact absurd he.above.1 (by cases j <;> simp [Joiner.rank])
  | wrap k a =>
    cases k with
    | power v =>
      obtain ⟨l, G₁, hgives, hbecomes⟩ := hsolves false (Formula.trim_source a)
        (Nat.lt_succ_iff.mp he.part.2) he.part.1.proper hG
      obtain ⟨rounds, rfl⟩ := Nat.exists_eq_add_one_of_ne_zero (Nat.ne_zero_of_lt hrounds)
      -- Once the power is put aside, the step looks at its marker and finds nothing more.
      have hmark : '^' ∉ Marker.ofNat G₁.length := Script.not_mem_leaf (.mark _)
      have hbare : (do
          let text ← Script.bareExponent.replaceM
            (fun script => store (Script.inBraces '^' script)) (Marker.ofNat G₁.length)
          Script.collectMarkerExponents (rounds + 1) text) = pure (Marker.ofNat G₁.length) :=
        Script.bareExponents_of_not_mem hmark
      refine ⟨.leaf (.mark G₁.length), _, Gives.bind ?_ (hbare ▸ gives_pure _ _),
        hbecomes.store_wrap, trivial, trivial, by rw [nodes]; omega⟩
      have hbreak : Text.breakOn? "^(" (source Leaf.text (.wrap (.power v) a)) =
          some ([v.val], a.source Leaf.text ++ [')']) := by
        have hne : ('^' == v.val) = false := by simpa using (v.ne_of_not_isAlpha rfl).symm
        simp [source, Wrapper.word, Wrapper.opening, Wrapper.closing, Text.breakOn?,
          List.isPrefixOf?, hne]
      rw [Script.collectExponents, hbreak]
      simp only [List.nil_append]
      rw [a.balanced.splitClosing?, Script.exponentBase?_letter]
      have hlatex : Latex.withExponent [v.val] l.text =
          (Becomes.wrapped (.power v) (isCompoundSource (a.source Leaf.text)) l).text := by
        rw [Becomes.text_wrapped]
        rfl
      refine hgives.bind ?_
      rw [hlatex]
      refine (gives_store _ _).bind ?_
      rw [List.append_nil, Script.collectExponents_of_not_mem hmark]
      exact gives_pure _ _
    | _ => exact absurd he.above.1 (by simp [Wrapper.rank])

end MathNotes
