import MathNotes.Proofs.Ceilings
import MathNotes.Proofs.NestedContexts
import MathNotes.Proofs.NestedScripts

/-!
# Steps that find nothing

A step is idle on a text that it leaves as it is (`Step.Idle`), and steps that are idle one after
the other do nothing at all (`Construct.foldlM_of_idle`).

Every construct is written with a sign: calls with a round bracket, vectors with an angle bracket,
sets with a brace, absolute values with a pipe, fractions with a slash, subscripts with an
underscore and exponents with a mark.  A step that looks for a construct is idle on a text without
its sign (`Step.Needs`), so only exponents are looked for in a text without all of the others
(`Construct.runSteps_of_no_sign`), and nothing in a text of name characters, unless it has a
subscript (`Construct.idle_of_isNameChar`).
-/

namespace MathNotes

open Extract

/-- The step finds nothing in the text. -/
def Step.Idle (step : Step) (text : Text) : Prop :=
  ∀ (rounds : Nat) (treat : Treatment), step rounds treat text = pure text

/-- The step finds nothing in a text without the sign. -/
def Step.Needs (step : Step) (sign : Char) : Prop :=
  ∀ (rounds : Nat) (treat : Treatment) (text : Text), sign ∉ text →
    step rounds treat text = pure text

section Finding

variable {α : Type} {pattern : Pattern α} {sign : Char} {text : Text} {previous : Option Char}

/-- A pattern finds nothing in a text without a character that all of its hits have. -/
theorem Pattern.find?_of_not_mem
    (h : ∀ ⦃previous text hit⦄, pattern previous text = some hit → sign ∈ text)
    (hsign : sign ∉ text) : pattern.find? previous text = none := by
  have hsigns : ∀ c ∈ [sign], c ∉ text := by simpa using hsign
  exact find?_of_misses (misses_of_not_mem
    (fun _ _ _ hhit => ⟨sign, List.mem_cons_self, h hhit⟩) hsigns)

theorem Text.breakOn?_of_not_mem {marker : Text} (hmem : sign ∈ marker) (hsign : sign ∉ text) :
    Text.breakOn? marker text = none := by
  cases hbreak : Text.breakOn? marker text with
  | none => rfl
  | some parts =>
    rw [Text.breakOn?_spec hbreak] at hsign
    exact absurd (by simp [hmem]) hsign

end Finding

namespace Construct

theorem needs_callStep (names : List Text)
    (build : Treatment → Text → Text → Extract (Option Text)) :
    (Call.step names build).Needs '(' := by
  intro rounds treat text hsign
  refine Call.collect_of_find?_none (Pattern.find?_of_not_mem ?_ hsign) rounds
  intro previous text hit hhit
  obtain ⟨matched, after, rfl, -, -, ⟨blanks, rfl, -⟩, -⟩ := Call.recognises_head names hhit
  simp

theorem needs_boundedOperators : Step.Needs boundedOperators '(' := by
  intro rounds treat text hsign
  refine Call.collect_of_find?_none (Pattern.find?_of_not_mem ?_ hsign) rounds
  intro previous text hit hhit
  obtain ⟨matched, after, rfl, -, -, ⟨blanks, mark, blanks', -, -, -, rfl⟩, -⟩ :=
    Bound.recognises_head hhit
  simp

theorem needs_vectors : Step.Needs vectors '<' := by
  intro rounds treat text hsign
  refine Vector.vectors_of_find?_none (Pattern.find?_of_not_mem ?_ hsign) rounds treat
  intro previous text hit hhit
  obtain ⟨matched, after, rfl, -, -, rfl⟩ := Vector.recognises_pattern hhit
  simp

theorem needs_setBuilders : Step.Needs setBuilders '{' := fun rounds _ _ hsign =>
  SetBuilder.collect_of_breakOn?_none (Text.breakOn?_of_not_mem List.mem_cons_self hsign) rounds []

theorem needs_absoluteValues : Step.Needs absoluteValues '|' := by
  intro rounds treat text hsign
  refine Pipe.absoluteValues_of_pair?_none ?_ rounds treat
  cases hpair : Pipe.pair? text with
  | none => rfl
  | some pair =>
    rw [Pipe.pair?_spec hpair] at hsign
    exact absurd (by simp) hsign

theorem needs_fractions : Step.Needs fractions '/' := by
  intro rounds treat text hsign
  rw [fractions, Fraction.collect_of_find?_none (Fraction.find?_of_not_mem hsign), pure_bind,
    Fraction.collect_of_find?_none (Fraction.find?_of_not_mem hsign)]

theorem needs_subscripts : Step.Needs subscripts '_' := by
  intro rounds treat text hsign
  have hgrouped : Script.subscriptHead.find? none text = none := by
    refine Pattern.find?_of_not_mem (fun previous text hit hhit => ?_) hsign
    obtain ⟨matched, after, rfl, -, -, rfl, -⟩ := Script.recognises_subscriptHead hhit
    simp
  have hbare : (Script.bare Char.isAlpha '_').find? none text = none := by
    refine Pattern.find?_of_not_mem (fun previous text hit hhit => ?_) hsign
    obtain ⟨matched, after, rfl, -, -, rfl, -⟩ := Script.recognises_bare _ _ hhit
    simp
  rw [subscripts, Call.collect_of_find?_none hgrouped, pure_bind, replaceM_of_find?_none hbare]

/-- The signs of the steps in front of the last one, in their order. -/
def signs : List Char := ['(', '(', '(', '(', '(', '<', '(', '{', '|', '/', '_']

theorem needs_signs : List.Forall₂ Step.Needs steps.dropLast signs :=
  .cons (needs_callStep _ _) <| .cons needs_boundedOperators <| .cons (needs_callStep _ _) <|
  .cons (needs_callStep _ _) <| .cons (needs_callStep _ _) <| .cons needs_vectors <|
  .cons (needs_callStep _ _) <| .cons needs_setBuilders <| .cons needs_absoluteValues <|
  .cons needs_fractions <| .cons needs_subscripts .nil

theorem needs_exponents : Step.Needs exponents '^' := by
  intro rounds treat text hsign
  rw [exponents, Script.collectExponents_of_not_mem hsign, pure_bind, List.nil_append,
    Script.bareExponents_of_not_mem hsign]

theorem idle_of_no_sign {list : List Step} {signs : List Char} {text : Text}
    (h : List.Forall₂ Step.Needs list signs) (hsigns : ∀ c ∈ signs, c ∉ text) :
    ∀ step ∈ list, step.Idle text := by
  induction h with
  | nil => exact List.forall_mem_nil _
  | cons hneeds _ ih =>
    obtain ⟨hsign, hsigns⟩ := List.forall_mem_cons.mp hsigns
    exact List.forall_mem_cons.mpr ⟨fun rounds treat => hneeds rounds treat text hsign, ih hsigns⟩

theorem foldlM_of_idle {rounds : Nat} {treat : Treatment} {list : List Step} {text : Text}
    (h : ∀ step ∈ list, step.Idle text) :
    list.foldlM (fun text (step : Step) => step rounds treat text) text = pure text := by
  induction list with
  | nil => rfl
  | cons step list ih =>
    obtain ⟨hstep, hlist⟩ := List.forall_mem_cons.mp h
    rw [List.foldlM_cons, hstep rounds treat, pure_bind, ih hlist]

/-- Only exponents are looked for where all other steps are idle. -/
theorem runSteps_of_idle {rounds : Nat} {treat : Treatment} {text : Text}
    (h : ∀ step ∈ steps.dropLast, step.Idle text) :
    runSteps rounds treat text = exponents rounds treat text := by
  have hsteps : steps = steps.dropLast ++ [exponents] := rfl
  rw [runSteps, hsteps, List.foldlM_append, foldlM_of_idle h, pure_bind, List.foldlM_cons]
  exact bind_pure _

/-- **Only exponents are looked for** in a text without the signs of the other constructs. -/
theorem runSteps_of_no_sign {rounds : Nat} {treat : Treatment} {text : Text}
    (hsigns : ∀ c ∈ signs, c ∉ text) :
    runSteps rounds treat text = exponents rounds treat text :=
  runSteps_of_idle (idle_of_no_sign needs_signs hsigns)

/-- **Name characters make no construct** but a subscript. -/
theorem idle_of_isNameChar {text : Text} (hname : ∀ c ∈ text, isNameChar c = true)
    (hsubscripts : Step.Idle subscripts text) : ∀ step ∈ steps, step.Idle text := by
  have hsteps : steps = steps.dropLast.take 10 ++ [subscripts, exponents] := rfl
  have hsign : ∀ c ∈ '^' :: signs.take 10, c ∉ text := by
    have key : ∀ c ∈ '^' :: signs.take 10, isNameChar c = false := by decide
    intro c hc hmem
    have hc' := hname c hmem
    rw [key c hc] at hc'
    cases hc'
  obtain ⟨hmark, hsigns⟩ := List.forall_mem_cons.mp hsign
  rw [hsteps, List.forall_mem_append]
  refine ⟨idle_of_no_sign (List.forall₂_take 10 needs_signs) hsigns, ?_⟩
  exact List.forall_mem_cons.mpr ⟨hsubscripts, List.forall_mem_singleton.mpr fun rounds treat =>
    needs_exponents rounds treat text hmark⟩

end Construct

end MathNotes
