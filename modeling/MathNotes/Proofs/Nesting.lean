import MathNotes.Proofs.Extraction
import MathNotes.Proofs.NestedCalls
import MathNotes.Proofs.NestedContexts
import MathNotes.Proofs.NestedScripts
import MathNotes.Proofs.NestedVectors

/-!
# Nested constructs

Each step of the extraction clears its kind of construct, so all of them together make a leaf of a
formula (`Construct.gives_runSteps`).  A leaf is a single token that segmentation leaves alone.  By
induction on the depth, arguments are then solved however constructs nest in them
(`Construct.solves_treatment`).
-/

namespace MathNotes

open Extract Formula

/-! ## Segments of leaves -/

/-- A text of characters of one kind is a single token. -/
theorem tokenize_eq_singleton_of_kind {text : Text} {kind : CharKind} (hne : text ≠ [])
    (h : ∀ c ∈ text, CharKind.of c = kind) : tokenize text = [text] := by
  have htokens := tokenized_tokenize text
  generalize tokenize text = tokens at htokens ⊢
  cases htokens with
  | nil => exact absurd rfl hne
  | @cons run rest tokens hrun _ hstop hrest =>
    cases hrest with
    | nil => rw [List.append_nil]
    | @cons next _ _ hnext _ _ _ =>
      -- Something else would have to be of another kind.
      obtain ⟨c, run, rfl⟩ := List.exists_cons_of_ne_nil hrun
      obtain ⟨d, next, rfl⟩ := List.exists_cons_of_ne_nil hnext
      have hc : CharKind.of c = kind := h c (by simp)
      have hd : CharKind.of d = kind := h d (by simp)
      exact absurd (hc.trans hd.symm) (hstop c List.mem_cons_self d rfl)

/-- A text of name characters is a single token. -/
theorem tokenize_eq_singleton {text : Text} (hne : text ≠ [])
    (h : ∀ c ∈ text, isNameChar c = true) : tokenize text = [text] :=
  tokenize_eq_singleton_of_kind hne fun c hc => kind_of_isNameChar (h c hc)

namespace Leaf

theorem ofToken_letter (v : Letter) : Segment.ofToken [v.val] none = .math [v.val] :=
  ascii_forall (P := fun c => c.isAlpha = true → Segment.ofToken [c] none = .math [c])
    (by decide +kernel) (toNat_lt_of_isAlphanum (by simp [Char.isAlphanum, v.2])) v.2

/-- A name with an underscore, or one that starts with a digit, is part of a formula. -/
theorem ofToken_name {text : Text} (hne : text ≠ []) (hname : ∀ c ∈ text, isNameChar c = true)
    (h : '_' ∈ text ∨ text.head?.any isDigitSign = true) (next : Option Text) :
    Segment.ofToken text next = .math text := by
  obtain ⟨c, rest, rfl⟩ := List.exists_cons_of_ne_nil hne
  have hc := hname c List.mem_cons_self
  have hblank : ¬ Text.isBlankRun (c :: rest) = true := by
    simp [Text.isBlankRun, isBlank_of_isNameChar hc]
  have hcommand : ¬ ((c :: rest).head? == some '\\') = true := by
    rw [List.head?_cons, beq_iff_eq, Option.some.injEq]
    rintro rfl
    cases hc
  have hpunctuation : ¬ (!(c :: rest).isEmpty && (c :: rest).all isPunctuation) = true := by
    simp [isPunctuation_of_isNameChar hc]
  rw [Segment.ofToken, if_neg hblank, if_neg hcommand, Segment.escapeMath_of_isNameChar hname]
  by_cases hscript : ((c :: rest).contains '_' || (c :: rest).contains '^') = true
  · rw [if_pos hscript]
  · have hdigit := h.resolve_left fun hmem => hscript (by simp [hmem])
    rw [if_neg hscript, if_neg hpunctuation, if_pos hdigit]

/-- A leaf is part of a formula. -/
theorem ofToken_text (l : Leaf) : Segment.ofToken l.text none = .math l.text := by
  rcases l with (v | n) | n
  · exact ofToken_letter v
  · obtain ⟨c, rest, hdigits⟩ := List.exists_cons_of_ne_nil n.2.1
    have hdigit := isDecimal_of_isDigit (n.2.2 c (by simp [hdigits]))
    refine ofToken_name n.2.1 (fun c hc => isNameChar_of_isDigit (n.2.2 c hc)) (.inr ?_) none
    simp [hdigits, isDigitSign, hdigit]
  · exact ofToken_name (text_ne_nil (.mark n)) (fun c hc => Marker.nameChar_of_mem_ofNat hc)
      (.inl (by simp [text, Marker.ofNat_eq])) none

/-- **Segmentation leaves a leaf alone.** -/
theorem segmentLine_text (l : Leaf) (prose : Bool) : segmentLine prose l.text = l.text := by
  have htokens : tokenize l.text = [l.text] :=
    tokenize_eq_singleton l.text_ne_nil fun c hc => isNameChar_of_mem hc
  have hsegments : Segment.ofTokens [l.text] = [.math l.text] :=
    congrArg ([·]) l.ofToken_text
  have hrender : Segment.render [.math l.text] = l.text := by
    simp [Segment.render, Segment.renderBehind, Segment.renderOne, Segment.operatorGap]
  rw [segmentLine, Segment.ofLine, htokens, hsegments]
  cases prose <;> exact hrender

end Leaf

/-! ## The steps, one after the other -/

/-- The steps make of a formula that is left by the steps up to `m` one that is left by the steps up
to `n`, one after the other. -/
inductive ClearsAll : List Step → (m n : Nat) → Prop
  | nil {m : Nat} : ClearsAll [] m m
  | cons {step : Step} {steps : List Step} {m r n : Nat} (first : step.Clears m r)
      (rest : ClearsAll steps r n) : ClearsAll (step :: steps) m n

namespace Construct

theorem clearsAll_steps : ClearsAll steps 0 12 :=
  .cons clears_factorials <| .cons clears_boundedOperators <| .cons clears_rootsAndArrows <|
  .cons clears_floorsAndCeilings <| .cons clears_functions <| .cons clears_vectors <|
  .cons clears_binomials <| .cons clears_setBuilders <| .cons clears_absoluteValues <|
  .cons clears_fractions <| .cons clears_subscripts <| .cons clears_exponents .nil

theorem gives_foldlM {treat : Treatment} {bound rounds : Nat} (hsolves : treat.Solves bound)
    (hrounds : bound < rounds) {list : List Step} {m n : Nat} (hlist : ClearsAll list m n)
    {e : Formula Leaf} {G : Table} (he : e.Fits m (bound + 1)) (hG : e.Covered G) :
    ∃ (e' : Formula Leaf) (G' : Table),
      (list.foldlM (fun text (step : Step) => step rounds treat text) (e.source Leaf.text)).Gives G
        (e'.source Leaf.text) G' ∧ Becomes G e G' e' ∧ e'.Fits n (bound + 1) := by
  induction hlist generalizing e G with
  | nil => exact ⟨e, G, gives_pure _ _, .refl hG, he⟩
  | cons hfirst _ ih =>
    obtain ⟨e₁, G₁, hgives, hbecomes, hfits⟩ := hfirst hsolves hrounds he hG
    obtain ⟨e₂, G₂, hgives', hbecomes', hfits'⟩ := ih hfits hbecomes.covered
    rw [List.foldlM_cons]
    exact ⟨e₂, G₂, hgives.bind hgives', hbecomes.trans hbecomes', hfits'⟩

/-- **The steps make a leaf of every formula** whose parts are solved. -/
theorem gives_runSteps {treat : Treatment} {bound rounds : Nat} (hsolves : treat.Solves bound)
    (hrounds : bound < rounds) {e : Formula Leaf} {G : Table} (hproper : e.Proper)
    (hsmall : e.nodes ≤ bound + 1) (hG : e.Covered G) :
    ∃ (l : Leaf) (G' : Table), (runSteps rounds treat (e.source Leaf.text)).Gives G l.text G' ∧
      Becomes G e G' (.leaf l) := by
  obtain ⟨e', G', hgives, hbecomes, hfits⟩ :=
    gives_foldlM hsolves hrounds clearsAll_steps ⟨e.above_zero, hproper, hsmall⟩ hG
  cases e' with
  | leaf l => exact ⟨l, G', hgives, hbecomes⟩
  | wrap k e => exact absurd hfits.above.1 (by cases k <;> simp [Wrapper.rank])
  | join j a b => exact absurd hfits.above.1 (by cases j <;> simp [Joiner.rank])

/-- **Arguments are solved at every depth** that their nodes do not exceed. -/
theorem solves_treatment {rounds depth bound : Nat} (hdepth : bound ≤ depth)
    (hrounds : bound ≤ rounds) : (treatment rounds depth).Solves bound := by
  induction depth generalizing bound with
  | zero =>
    intro prose text e G _ hsmall _ _
    have hnodes := e.constructs_lt_nodes
    omega
  | succ depth ih =>
    intro prose text e G htrim hsmall hproper hG
    obtain ⟨bound, rfl⟩ := Nat.exists_eq_add_one_of_ne_zero
      (Nat.ne_zero_of_lt (e.constructs_lt_nodes.trans_le hsmall))
    obtain ⟨l, G', hgives, hbecomes⟩ :=
      gives_runSteps (ih (Nat.le_of_succ_le_succ hdepth) (Nat.le_of_succ_le hrounds)) hrounds
        hproper hsmall hG
    refine ⟨l, G', ?_, hbecomes⟩
    have htreat : treatment rounds (depth + 1) prose text = (do
        return segmentLine prose (← extract rounds (depth + 1) text.trim)) := rfl
    rw [htreat, htrim, extract_succ]
    exact hgives.bind (gives_pure_eq (l.segmentLine_text prose) _)

end Construct

end MathNotes
