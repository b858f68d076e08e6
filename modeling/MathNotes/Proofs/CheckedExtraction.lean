import MathNotes.Construct.Extraction
import MathNotes.Expression
import MathNotes.Proofs.CheckedLines

/-!
# Extraction never fails

Every reading of a checked step succeeds, so a checked step does what the step of the same name in
`Construct` does, and fails nowhere (`Checks`).  Each loop is followed by induction on its rounds.
Arguments are treated by the extraction one level below, so that the same holds for all of it
follows by induction on the depth (`Checked.extract_eq`).
-/

namespace MathNotes

namespace Checked

/-! ## Computations that cannot fail -/

section Sure

variable {α β : Type}

theorem sure_pure (a : α) : sure (pure a) = pure a := rfl

theorem sure_bind (action : Extract α) (next : α → Extract β) :
    sure (action >>= next) = sure action >>= fun a => sure (next a) := rfl

/-- A reading that succeeds. -/
theorem liftM_pure (a : α) : (liftM (pure a : Except Fault α) : Checked α) = pure a := rfl

theorem run_sure (action : Extract α) (state : Extraction) :
    (sure action).run state = (.ok (action state).1, (action state).2) := rfl

theorem mapM_sure (action : α → Extract β) (values : List α) :
    values.mapM (fun a => sure (action a)) = sure (values.mapM action) := by
  induction values with
  | nil => rfl
  | cons a values ih => simp only [List.mapM_cons, ih, sure_bind, sure_pure]

theorem replaceM_sure (pattern : Pattern α) (write : α → Extract Text) (text : Text) :
    pattern.replaceM (fun a => sure (write a)) text = sure (pattern.replaceM write text) := by
  have hpiece : replacePiece (fun a => sure (write a)) =
      fun piece => sure (replacePiece write piece) := by
    funext piece
    cases piece <;> rfl
  rw [replaceM_eq, replaceM_eq, hpiece, mapM_sure, sure_bind]
  rfl

end Sure

end Checked

/-- The treatment that cannot fail. -/
def Treatment.checked (treat : Treatment) : Checked.Treatment := fun prose argument =>
  Checked.sure (treat prose argument)

namespace Checked

/-- A checked step that does, without fail, what a step does. -/
def Checks (checked : Step) (step : MathNotes.Step) : Prop :=
  ∀ (rounds : Nat) (treat : MathNotes.Treatment) (text : Text),
    checked rounds treat.checked text = sure (step rounds treat text)

/-! ## Calls -/

section Collecting

variable {α : Type} {head : Pattern α} {build : α → Text → Checked (Option Text)}
  {total : α → Text → Extract (Option Text)}

theorem putAside_eq {cut : Cut α}
    (h : ∀ argument, build cut.value argument = sure (total cut.value argument)) :
    putAside build cut = sure (Call.putAside total cut) := by
  have hsplit : splitClosing? .round cut.after = pure (Delimiters.round.splitClosing? cut.after) :=
    splitClosing?_eq (by decide) cut.after
  rw [putAside, Call.putAside, hsplit, liftM_pure, pure_bind]
  cases Delimiters.round.splitClosing? cut.after with
  | none => rfl
  | some parts =>
    obtain ⟨argument, after⟩ := parts
    simp only [h, sure_bind]
    congr 1
    funext latex
    cases latex <;> rfl

/-- **Collecting calls** fails nowhere when building fails for nothing that is found. -/
theorem collectCalls_eq {Spec : Option Char → Text → α → Text → Prop} (hhead : head.Recognises Spec)
    (h : ∀ previous matched value after, Spec previous matched value after →
      ∀ argument, build value argument = sure (total value argument))
    (rounds : Nat) (previous : Option Char) (text : Text) :
    collectCalls head build rounds previous text =
      sure (Call.collect head total rounds previous text) := by
  induction rounds generalizing previous text with
  | zero => rfl
  | succ rounds ih =>
    rw [collectCalls, Call.collect]
    cases hfind : head.find? previous text with
    | none => rfl
    | some cut =>
      have hbuild := h _ _ _ _ (hhead.spec (Pattern.find?_spec hhead.proper hfind).2)
      simp only [putAside_eq hbuild, sure_bind, ih]
      congr 1
      funext found
      cases found <;> rfl

end Collecting

/-- The calls of some names, when building from these names fails nowhere. -/
theorem checks_calls {names : List Text} {build : Treatment → Text → Text → Checked (Option Text)}
    {total : MathNotes.Treatment → Text → Text → Extract (Option Text)}
    (h : ∀ (treat : MathNotes.Treatment), ∀ name ∈ names, ∀ argument,
      build treat.checked name argument = sure (total treat name argument)) :
    Checks (calls names build) (Call.step names total) := fun rounds treat text =>
  collectCalls_eq (Call.recognises_head names) (fun _ _ name _ hspec => h treat name hspec.2.1)
    rounds none text

theorem checks_factorials : Checks factorials Construct.factorials := by
  refine checks_calls fun treat name _ argument => ?_
  simp only [Treatment.checked, sure_bind]
  congr 1
  funext inner
  split <;> rfl

theorem checks_boundedOperators : Checks boundedOperators Construct.boundedOperators := by
  have hlookup : ∀ operator ∈ Bound.operators,
      Bound.operators.lookup operator.1 = some operator.2 := by decide
  intro rounds treat text
  refine collectCalls_eq Bound.recognises_head ?_ rounds none text
  rintro _ _ ⟨name, command⟩ _ ⟨-, hmem, -⟩ bounds
  simp only [lookUp_eq_ok (hlookup _ hmem)]
  rfl

/-- The calls of some names that are all enclosures. -/
theorem checks_enclosing {names : List Text}
    {total : MathNotes.Treatment → Text → Text → Extract (Option Text)}
    (h : ∀ name ∈ names, ∃ front back, enclosures.lookup name = some (front, back) ∧
      ∀ treat argument, total treat name argument = (do
        return some (front ++ (← treat true argument) ++ back))) :
    Checks (enclosing names) (Call.step names total) := by
  refine checks_calls fun treat name hname argument => ?_
  obtain ⟨front, back, hlookup, htotal⟩ := h name hname
  rw [lookUp_eq_ok hlookup, htotal]
  rfl

theorem checks_rootsAndArrows : Checks (enclosing ["sqrt", "vec"]) Construct.rootsAndArrows := by
  refine checks_enclosing fun name hname => ?_
  simp only [List.mem_cons, List.not_mem_nil, or_false] at hname
  rcases hname with rfl | rfl
  · refine ⟨"\\sqrt\x7b", "\x7d", by decide, fun treat argument => ?_⟩
    simp [Latex.command, Latex.braced]
  · refine ⟨"\\vec\x7b", "\x7d", by decide, fun treat argument => ?_⟩
    simp [Latex.command, Latex.braced]

theorem checks_floorsAndCeilings :
    Checks (enclosing ["floor", "ceil"]) Construct.floorsAndCeilings := by
  refine checks_enclosing fun name hname => ?_
  simp only [List.mem_cons, List.not_mem_nil, or_false] at hname
  rcases hname with rfl | rfl
  · refine ⟨"\\lfloor ", " \\rfloor", by decide, fun treat argument => ?_⟩
    simp
  · refine ⟨"\\lceil ", " \\rceil", by decide, fun treat argument => ?_⟩
    simp

theorem checks_functions : Checks functions Construct.functions :=
  checks_calls fun treat name _ argument => by simp only [Treatment.checked, sure_bind, sure_pure]

theorem checks_binomials : Checks binomials Construct.binomials := by
  refine checks_calls fun treat name _ argument => ?_
  rcases Text.splitTop "," argument with _ | ⟨top, _ | ⟨bottom, _ | ⟨third, more⟩⟩⟩
  · rfl
  · rfl
  · simp only
    split <;> rfl
  · rfl

/-! ## Enclosed constructs -/

theorem checks_vectors : Checks vectors Construct.vectors := by
  intro rounds treat text
  have hlatex : ∀ components,
      vectorLatex treat.checked components = sure (Vector.latex treat components) := by
    intro components
    rw [vectorLatex, Vector.latex, sure_bind, ← mapM_sure]
    rfl
  induction rounds generalizing text with
  | zero => rfl
  | succ rounds ih =>
    have hreplaced := replaceM_sure Vector.pattern
      (fun components => do Extract.store (← Vector.latex treat components)) text
    simp only [vectors, Construct.vectors, hlatex, sure_bind, ← hreplaced, store]
    congr 1
    funext updated
    split
    · rfl
    · exact ih updated

theorem setLatex_eq (treat : MathNotes.Treatment) (content : Text) :
    setLatex treat.checked content = sure (SetBuilder.latex treat content) := by
  rw [setLatex, SetBuilder.latex]
  cases (Text.findTop? ":" content).or (Text.findTop? "|" content) with
  | none => simp only [substituteSetWords_eq, liftM_pure, pure_bind]; rfl
  | some n => simp only [substituteSetWords_eq, liftM_pure, pure_bind]; rfl

theorem collectSets_eq (treat : MathNotes.Treatment) (rounds : Nat) (before text : Text) :
    collectSets treat.checked rounds before text =
      sure (SetBuilder.collect treat rounds before text) := by
  induction rounds generalizing before text with
  | zero => rfl
  | succ rounds ih =>
    rw [collectSets, SetBuilder.collect]
    cases Text.breakOn? ['{'] text with
    | none => rfl
    | some parts =>
      obtain ⟨skipped, after⟩ := parts
      have hsplit : splitClosing? .curly after = pure (Delimiters.curly.splitClosing? after) :=
        splitClosing?_eq (by decide) after
      simp only [isGroupArgument_eq, hsplit, liftM_pure, pure_bind, ih, setLatex_eq]
      split
      · rfl
      · cases Delimiters.curly.splitClosing? after with
        | none => rfl
        | some parts => rfl

theorem checks_setBuilders : Checks setBuilders Construct.setBuilders := fun rounds treat text =>
  collectSets_eq treat rounds [] text

theorem checks_absoluteValues : Checks absoluteValues Construct.absoluteValues := by
  intro rounds treat text
  induction rounds generalizing text with
  | zero => rfl
  | succ rounds ih =>
    rw [absoluteValues, Construct.absoluteValues, pipePair?_eq, liftM_pure, pure_bind]
    cases Pipe.pair? text with
    | none => rfl
    | some pair =>
      obtain ⟨first, last⟩ := pair
      have hinner : Text.slice text ((first : Int) + 1) last = (text.take last).drop (first + 1) :=
        Text.slice_natCast text (first + 1) last
      simp only [hinner, ih, sure_bind]
      rfl

/-! ## Fractions and scripts -/

theorem collectFractions_eq (grouped : Bool) (treat : MathNotes.Treatment) (rounds : Nat)
    (text : Text) :
    collectFractions grouped treat.checked rounds text =
      sure (Fraction.collect grouped treat rounds text) := by
  induction rounds generalizing text with
  | zero => rfl
  | succ rounds ih =>
    rw [collectFractions, Fraction.collect, fractionFrom?_eq, liftM_pure, pure_bind]
    cases Fraction.find? grouped text with
    | none => rfl
    | some fraction =>
      simp only [ih, sure_bind]
      rfl

theorem checks_fractions : Checks fractions Construct.fractions := by
  intro rounds treat text
  simp only [fractions, Construct.fractions, collectFractions_eq, sure_bind]

theorem checks_subscripts : Checks subscripts Construct.subscripts := by
  intro rounds treat text
  have hcalls : collectCalls Script.subscriptHead (fun letter argument => do
        return some (Latex.withSubscript [letter] (← treat.checked false argument)))
        rounds none text =
      sure (Call.collect Script.subscriptHead (fun letter argument => do
        return some (Latex.withSubscript [letter] (← treat false argument))) rounds none text) := by
    refine collectCalls_eq Script.recognises_subscriptHead ?_ rounds none text
    intro _ _ letter _ _ argument
    rw [sure_bind]
    rfl
  rw [subscripts, Construct.subscripts, hcalls, sure_bind]
  congr 1
  funext text
  exact replaceM_sure _ _ text

theorem collectExponents_eq (treat : MathNotes.Treatment) (rounds : Nat) (before text : Text) :
    collectExponents treat.checked rounds before text =
      sure (Script.collectExponents treat rounds before text) := by
  induction rounds generalizing before text with
  | zero => rfl
  | succ rounds ih =>
    rw [collectExponents, Script.collectExponents]
    cases Text.breakOn? "^(" text with
    | none => rfl
    | some parts =>
      obtain ⟨skipped, after⟩ := parts
      have hsplit : splitClosing? .round after = pure (Delimiters.round.splitClosing? after) :=
        splitClosing?_eq (by decide) after
      have hbase := exponentBase?_append (before ++ skipped) ("^(".toList ++ after)
      rw [← List.append_assoc] at hbase
      simp only [hsplit, hbase, liftM_pure, pure_bind, ih]
      rcases Delimiters.round.splitClosing? after with _ | ⟨argument, rest⟩
      · rfl
      · rcases Script.exponentBase? (before ++ skipped) with _ | ⟨start, base⟩ <;> rfl

theorem checks_exponents : Checks exponents Construct.exponents := by
  intro rounds treat text
  simp only [exponents, Construct.exponents, collectExponents_eq, sure_bind, ← replaceM_sure]
  rfl

/-! ## All steps -/

theorem checks_steps : List.Forall₂ Checks steps Construct.steps :=
  .cons checks_factorials <| .cons checks_boundedOperators <| .cons checks_rootsAndArrows <|
    .cons checks_floorsAndCeilings <| .cons checks_functions <| .cons checks_vectors <|
    .cons checks_binomials <| .cons checks_setBuilders <| .cons checks_absoluteValues <|
    .cons checks_fractions <| .cons checks_subscripts <| .cons checks_exponents .nil

theorem runSteps_eq (rounds : Nat) (treat : MathNotes.Treatment) (text : Text) :
    runSteps rounds treat.checked text = sure (Construct.runSteps rounds treat text) := by
  rw [runSteps, Construct.runSteps]
  have hsteps := checks_steps
  revert hsteps text
  generalize steps = checked
  generalize Construct.steps = total
  intro text hsteps
  induction hsteps generalizing text with
  | nil => rfl
  | cons hstep _ ih =>
    simp only [List.foldlM_cons, hstep rounds treat, ih, sure_bind]

/-- **Extraction never fails**, and puts aside what `Construct.extract` puts aside. -/
theorem extract_eq (rounds depth : Nat) (text : Text) :
    extract rounds depth text = sure (Construct.extract rounds depth text) := by
  induction depth generalizing text with
  | zero => rfl
  | succ depth ih =>
    rw [extract, Construct.extract, ← runSteps_eq]
    congr 1
    funext prose argument
    rw [Treatment.checked]
    split
    · rfl
    · simp only [ih, segmentLine_eq, liftM_pure, sure_bind, sure_pure]

theorem run_extract (rounds depth : Nat) (text : Text) (state : Extraction) :
    (extract rounds depth text).run state =
      (.ok (Construct.extract rounds depth text state).1,
        (Construct.extract rounds depth text state).2) := by
  rw [extract_eq, run_sure]

end Checked

/-! ## Lines -/

namespace Expression

/-- A line before its fragments are put back, with the extraction that it took, by steps that cannot
fail. -/
def segmented (settings : Settings) (line : Text) : Text × Extraction :=
  let (working, extraction) :=
    Construct.extract settings.rounds.toNat settings.depth.toNat
      (Symbol.substituteConstants line) {}
  (segmentLine true working, extraction)

/-- **No line fails before its fragments are put back.** -/
theorem run_segment (settings : Settings) (line : Text) :
    (segment settings line).run {} =
      (.ok (segmented settings line).1, (segmented settings line).2) := by
  rw [segment, Checked.substituteConstants_eq, Checked.liftM_pure, pure_bind, Checked.extract_eq]
  simp only [Checked.segmentLine_eq, Checked.liftM_pure]
  rfl

theorem run_eq (settings : Settings) (line : Text) :
    run settings line =
      ⟨(segmented settings line).2.kept,
        (segmented settings line).2.fragments.resolve settings.passes
          (segmented settings line).1⟩ := by
  rw [run, run_segment]
  rfl

theorem latexOf_eq (resolution : Resolution) :
    latexOf resolution = .ok (Symbol.symbolPass resolution.latex) :=
  Checked.symbolPass_eq resolution.latex

theorem compile_eq (settings : Settings) (line : Text) :
    compile settings line = ((segmented settings line).2.fragments.resolve settings.passes
      (segmented settings line).1).map fun resolution =>
        (Symbol.symbolPass resolution.latex, resolution.unresolved) := by
  rw [compile, run_eq]
  simp only [latexOf_eq]
  rfl

end Expression

end MathNotes
