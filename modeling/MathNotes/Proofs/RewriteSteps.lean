import MathNotes.Proofs.Hygiene
import MathNotes.Proofs.Rewrites

/-!
# The steps of the extraction rewrite lines

Every step of the extraction rewrites a line construct by construct
(`Construct.rewriting_of_mem_steps`), so a lawful invariant of lines holds of all that extraction
gives (`Invariant.Lawful.extract`).
-/

namespace MathNotes

open Extract
open Operand (Edge Stop)

variable {treat : Treatment} {before after text : Text} {s : Extraction}

/-- A computation that takes steps, and then one that rewrites the line. -/
theorem Extract.Reaches.behind {α : Type} {m : Extract α} {f : α → Extract Text} {a : α}
    {text' : Text} {s' : Extraction} (hm : m s = (a, s'))
    (hrun : Rewriting treat (before ++ text, s) (before ++ text', s'))
    (h : (f a).Reaches treat before text' s') : (m >>= f).Reaches treat before text s := by
  rw [Reaches, bind_apply, hm]
  exact hrun.trans h

section Slots

variable {slot slot' : Slot} {l l' k k' a b t u : Text} {s₁ s₂ : Extraction}

theorem writesSlots_one (h : slot.Writes treat a s t s₁) :
    WritesSlots treat [(slot, l, l')] (a ++ l) s (t ++ l') s₁ := by
  have h : WritesSlots treat [(slot, l, l')] _ s _ s₁ := .cons h .nil
  simpa only [List.append_nil] using h

theorem writesSlots_two (h : slot.Writes treat a s t s₁) (h' : slot'.Writes treat b s₁ u s₂) :
    WritesSlots treat [(slot, l, l'), (slot', k, k')] (a ++ (l ++ (b ++ k))) s
      (t ++ (l' ++ (u ++ k'))) s₂ :=
  .cons h (writesSlots_one h')

end Slots

/-! ## Calls -/

namespace Call

variable {α : Type} {head : Pattern α} {build : α → Text → Extract (Option Text)}

/-- What a computation makes of a call: nothing, or a construct. -/
def Makes (m : Extract (Option Text)) (treat : Treatment) (before source after : Text)
    (s : Extraction) : Prop :=
  m s = (none, s) ∨ ∃ (latex : Text) (s' : Extraction), m s = (some latex, s') ∧
    Written treat before after source s latex s'

theorem makes_none {source : Text} : Makes (pure none) treat before source after s := .inl rfl

/-- Of every call that starts with `head`, nothing or a construct is made. -/
def Writes (head : Pattern α) (build : α → Text → Extract (Option Text)) (treat : Treatment) :
    Prop :=
  ∀ ⦃before matched argument after : Text⦄ ⦃value : α⦄ ⦃s : Extraction⦄,
    head.HitsAt before.getLast? matched value (argument ++ ')' :: after) →
      Makes (build value argument) treat before (matched ++ (argument ++ [')'])) after s

/-- What is put aside at a cut. -/
theorem putAside_spec (hbuild : Writes head build treat) {cut : Cut α}
    (hat : head.HitsAt before.getLast? cut.matched cut.value cut.after) (s : Extraction) :
    putAside build cut s = (none, s) ∨
    ∃ (argument after latex : Text) (s' : Extraction), cut.after = argument ++ ')' :: after ∧
      putAside build cut s = (some (s'.marker, after), s'.put latex) ∧
      Written treat before after (cut.matched ++ (argument ++ [')'])) s latex s' := by
  rw [putAside]
  cases hsplit : Delimiters.round.splitClosing? cut.after with
  | none => exact .inl rfl
  | some found =>
    obtain ⟨argument, after⟩ := found
    have htext := Delimiters.round_splitClosing? hsplit
    rw [htext] at hat
    simp only [bind_apply]
    rcases hbuild hat with hnone | ⟨latex, s', hsome, hwritten⟩
    · rw [hnone]
      exact .inl rfl
    · rw [hsome]
      exact .inr ⟨argument, after, latex, s', htext, rfl, hwritten⟩

/-- **Collecting calls rewrites the line.** -/
theorem reaches_collect (hp : head.Proper) (hbuild : Writes head build treat) (rounds : Nat)
    (before text : Text) (s : Extraction) :
    (collect head build rounds before.getLast? text).Reaches treat before text s := by
  induction rounds generalizing before text s with
  | zero => exact reaches_pure
  | succ rounds ih =>
    rw [collect]
    split
    · exact reaches_pure
    · rename_i cut hcut
      obtain ⟨htext, hat⟩ := Pattern.find?_spec hp hcut
      rw [← List.getLast?_append] at hat
      rw [htext]
      rcases putAside_spec hbuild hat s with
        hnone | ⟨argument, after, latex, s', hafter, hsome, hwritten⟩
      · -- The call stays, and what follows it is looked at.
        have hrest := ih (before ++ (cut.before ++ cut.matched)) cut.after s
        rw [← List.append_assoc before, List.getLast?_append_of_ne_nil _ hat.2, List.append_assoc]
          at hrest
        rw [← List.append_assoc cut.before]
        exact .behind hnone .refl (hrest.pass fun t => rfl)
      · have hrest := ih (before ++ (cut.before ++ s'.marker)) after (s'.put latex)
        rw [← List.append_assoc before, List.getLast?_append_of_ne_nil _
          (by simp [Extraction.marker, Marker.ofNat_eq]), List.append_assoc] at hrest
        have hstep : Rewrites treat ((before ++ cut.before) ++
            ((cut.matched ++ (argument ++ [')'])) ++ after), s)
            ((before ++ cut.before) ++ (s'.marker ++ after), s'.put latex) := .store hwritten
        have hrun : Rewriting treat
            (before ++ (cut.before ++ (cut.matched ++ (argument ++ ')' :: after))), s)
            (before ++ ((cut.before ++ s'.marker) ++ after), s'.put latex) := by
          refine .single ?_
          simpa only [List.append_assoc, List.singleton_append] using hstep
        rw [hafter]
        exact .behind hsome hrun (hrest.pass fun t => rfl)

theorem rewriting_step {names : List Text}
    {build : Treatment → Text → Text → Extract (Option Text)}
    (hbuild : ∀ treat, Writes (Call.head names) (build treat) treat) :
    Step.Rewriting (step names build) :=
  fun treat rounds text s =>
    reaches_collect (recognises_head names).proper (hbuild treat) rounds [] text s

/-- Calls of one argument. -/
theorem writes_argument {names : List Text} (latex : Text → Text → Text) (lead tail : Text → Text)
    (hlatex : ∀ name inner, latex name inner = lead name ++ (inner ++ tail name))
    (htail : ∀ name, Text.IsFence (tail name))
    (hlisted : ∀ ⦃previous : Option Char⦄ ⦃name blanks : Text⦄, blanks.Blank → name ∈ names →
      Listed previous
        ⟨(name ++ blanks ++ ['('], lead name), [(.argument true, [')'], tail name)]⟩) :
    Writes (Call.head names) (fun name argument => do
      return some (latex name (← treat true argument))) treat := by
  intro before matched argument after name s hat
  obtain ⟨⟨blanks, rfl, hb⟩, hmem, hprevious⟩ := (recognises_head names).spec hat
  refine .inr ⟨_, (treat true argument s).2, rfl, ?_⟩
  rw [hlatex]
  refine .listed (.inl hprevious) (by simp) (hlisted hb hmem) ?_ (writesSlots_one rfl)
  exact List.forall_mem_singleton.mpr
    ⟨by simp, ⟨')', rfl, by decide, by decide⟩, htail name⟩

theorem rewriting_rootsAndArrows : Step.Rewriting Construct.rootsAndArrows :=
  rewriting_step fun _ => writes_argument (fun name inner => Latex.command name [inner])
    (fun name => '\\' :: name ++ ['{']) (fun _ => ['}'])
    (fun name inner => by simp [Latex.command, Latex.braced])
    (fun _ => ⟨'}', rfl, by decide, by decide⟩) fun _ _ _ hb hmem => .command hb hmem

theorem rewriting_floorsAndCeilings : Step.Rewriting Construct.floorsAndCeilings :=
  rewriting_step fun _ => writes_argument
    (fun name inner => "\\l" ++ name ++ " " ++ inner ++ " \\r" ++ name)
    (fun name => "\\l" ++ name ++ [' ']) (fun name => " \\r" ++ name)
    (fun name inner => by simp) (fun _ => ⟨' ', rfl, by decide, by decide⟩)
    fun _ _ _ hb hmem => .rounded hb hmem

theorem rewriting_functions : Step.Rewriting Construct.functions :=
  rewriting_step fun _ => writes_argument (fun name inner => '\\' :: name ++ "(" ++ inner ++ ")")
    (fun name => '\\' :: name ++ ['(']) (fun _ => [')']) (fun name inner => by simp)
    (fun _ => ⟨')', rfl, by decide, by decide⟩) fun _ _ _ hb hmem => .function hb hmem

theorem rewriting_factorials : Step.Rewriting Construct.factorials := by
  refine rewriting_step fun treat before matched argument after name s hat => ?_
  obtain ⟨⟨blanks, rfl, hb⟩, hmem, hprevious⟩ := (recognises_head _).spec hat
  obtain rfl : name = "factorial".toList := List.mem_singleton.mp hmem
  by_cases hcompound : Construct.isCompound (Text.trim argument) = true
  · refine .inr ⟨['('] ++ ((treat true argument s).1 ++ ")!".toList), (treat true argument s).2,
      ?_, .listed (.inl hprevious) (by simp) (.compoundFactorial hb) ?_ (writesSlots_one rfl)⟩
    · rw [bind_apply, if_pos hcompound]
      simp
      rfl
    · exact List.forall_mem_singleton.mpr
        ⟨by simp, ⟨')', rfl, by decide, by decide⟩, ')', rfl, by decide, by decide⟩
  · refine .inr ⟨[] ++ ((treat true argument s).1 ++ ['!']), (treat true argument s).2,
      ?_, .listed (.inl hprevious) (by simp) (.factorial hb ?_) ?_ (writesSlots_one rfl)⟩
    · rw [bind_apply, if_neg hcompound]
      rfl
    · exact fun c hc => isNameChar_of_barsName (hprevious c hc)
    · exact List.forall_mem_singleton.mpr
        ⟨by simp, ⟨')', rfl, by decide, by decide⟩, '!', rfl, by decide, by decide⟩

theorem rewriting_binomials : Step.Rewriting Construct.binomials := by
  refine rewriting_step fun treat before matched argument after name s hat => ?_
  obtain ⟨⟨blanks, rfl, hb⟩, hmem, hprevious⟩ := (recognises_head _).spec hat
  obtain rfl : name = "choose".toList := List.mem_singleton.mp hmem
  have hjoin := Text.join_splitTop [','] argument
  split
  · rename_i top bottom hparts
    rw [show (",".toList : Text) = [','] from rfl] at hparts
    rw [hparts] at hjoin
    have htext : argument ++ [')'] = top ++ ([','] ++ (bottom ++ [')'])) := by
      rw [← hjoin]
      simp [Text.join, List.intercalate]
    by_cases hblank : ((Text.trim top).isEmpty || (Text.trim bottom).isEmpty) = true
    · rw [if_pos hblank]
      exact makes_none
    · rw [if_neg hblank, htext]
      have hfence : ∀ c : Char, isNameChar c = false → c ≠ '{' → ∀ rest : Text,
        Text.IsFence (c :: rest) := fun c h h' rest => ⟨c, rfl, h, h'⟩
      have hfenced : Shape.Fenced ⟨("choose" ++ blanks ++ ['('], "\\binom\x7b".toList),
          [(.argument true, [','], "\x7d\x7b".toList), (.argument true, [')'], ['}'])]⟩ :=
        List.forall_mem_cons.mpr ⟨⟨by simp, hfence ',' (by decide) (by decide) _,
          hfence '}' (by decide) (by decide) _⟩, List.forall_mem_singleton.mpr
          ⟨by simp, hfence ')' (by decide) (by decide) _, hfence '}' (by decide) (by decide) _⟩⟩
      have hwritten : Written treat before after _ s _ _ :=
        .listed (.inl hprevious) (by simp) (.binomial hb) hfenced
          (writesSlots_two (a := top) (b := bottom) rfl rfl)
      refine .inr ⟨_, _, ?_, hwritten⟩
      simp [Latex.command, Latex.braced, bind_apply]
      rfl
  · exact makes_none

end Call

theorem Text.isFence_cons {c : Char} (h : isNameChar c = false ∧ c ≠ '{') (rest : Text) :
    Text.IsFence (c :: rest) :=
  ⟨c, rfl, h⟩

/-! ## Operators with bounds -/

namespace Bound

theorem writes_latex :
    Call.Writes head (fun operator bounds => return some (latex operator bounds)) treat := by
  intro before matched argument after operator s hat
  obtain ⟨⟨blanks, mark, blanks', hb, hb', hmark, rfl⟩, hop, hprevious⟩ := recognises_head.spec hat
  obtain ⟨name, command⟩ := operator
  refine .inr ⟨_, s, rfl, ?_⟩
  by_cases hempty : (Text.trim argument).isEmpty = true
  · -- Blank bounds are written as none.
    have hlatex : latex (name, command) argument = command ++ [] := by simp [latex, hempty]
    have hsource : name ++ (blanks ++ (mark ++ (blanks' ++ ['(']))) ++ (argument ++ [')']) =
        name ++ (blanks ++ (mark ++ (blanks' ++ ('(' :: (argument ++ [')']))))) ++ [] := by simp
    rw [hlatex, hsource]
    obtain ⟨inner, hinner, hblank⟩ := blank_of_trim_isEmpty (w := Marked.plain argument)
      (by simpa using hempty)
    obtain rfl : argument = inner := by simpa using congrArg Marked.text hinner
    exact .listed (.inl hprevious) (by simp) (.unbounded hop hb hb' hmark hblank)
      (List.forall_mem_nil _) .nil
  · cases hbreak : Text.breakOn? "->" argument with
    | none =>
      have hlatex : latex (name, command) argument =
          (command ++ ['_', '{']) ++ (normalize argument ++ ['}']) := by
        rw [latex, if_neg hempty, hbreak]
        simp [Latex.withSubscript, Latex.braced]
      rw [hlatex]
      refine .listed (.inl hprevious) (by simp) (.lowerBound hop hb hb' hmark) ?_
        (writesSlots_one ⟨rfl, rfl⟩)
      exact List.forall_mem_singleton.mpr
        ⟨by simp, Text.isFence_cons (by decide) _, Text.isFence_cons (by decide) _⟩
    | some found =>
      obtain ⟨lower, upper⟩ := found
      obtain ⟨between, hbetween, hlatex⟩ := latex_arrow name command hempty hbreak
      have hargument : argument ++ [')'] = lower ++ (['-', '>'] ++ (upper ++ [')'])) := by
        rw [Text.breakOn?_spec hbreak]
        simp
      have hlatex' : latex (name, command) argument = (command ++ ['_', '{']) ++
          (normalize lower ++ (between ++ (normalize upper ++ ['}']))) := by simp [hlatex]
      rw [hlatex', hargument]
      refine .listed (.inl hprevious) (by simp) (.bothBounds hop hb hb' hmark hbetween) ?_
        (writesSlots_two ⟨rfl, rfl⟩ ⟨rfl, rfl⟩)
      refine List.forall_mem_cons.mpr ⟨⟨by simp, Text.isFence_cons (by decide) _, ?_⟩,
        List.forall_mem_singleton.mpr
          ⟨by simp, Text.isFence_cons (by decide) _, Text.isFence_cons (by decide) _⟩⟩
      rcases hbetween with rfl | rfl
      · exact Text.isFence_cons (by decide) _
      · exact Text.isFence_cons (by decide) _

theorem rewriting_boundedOperators : Step.Rewriting Construct.boundedOperators :=
  fun _ rounds text s => Call.reaches_collect recognises_head.proper writes_latex rounds [] text s

end Bound

/-! ## Replacing by constructs -/

section Replacing

variable {α : Type} {pattern : Pattern α} {store : α → Extract Text}

/-- What stands at a hit is put aside as a construct, wherever it stands. -/
def Writes (pattern : Pattern α) (store : α → Extract Text) (treat : Treatment) : Prop :=
  ∀ ⦃previous : Option Char⦄ ⦃matched after : Text⦄ ⦃value : α⦄ ⦃s : Extraction⦄,
    pattern.HitsAt previous matched value after →
      ∃ (latex : Text) (s' : Extraction), store value s = (s'.marker, s'.put latex) ∧
        ∀ before, Written treat before after matched s latex s'

theorem mapM_chars_append (text : Text) (pieces : List (Piece α)) (s : Extraction) :
    (text.map Piece.char ++ pieces).mapM (replacePiece store) s =
      (text.map ([·]) ++ (pieces.mapM (replacePiece store) s).1,
        (pieces.mapM (replacePiece store) s).2) := by
  induction text with
  | nil => rfl
  | cons c text ih =>
    rw [List.map_cons, List.cons_append, List.mapM_cons, bind_apply, bind_apply]
    show (_ :: (List.mapM (replacePiece store) (text.map Piece.char ++ pieces) s).1, _) = _
    rw [show (replacePiece store (Piece.char c) s).2 = s from rfl, ih]
    rfl

/-- **Replacing the hits of a pattern rewrites the line.** -/
theorem reaches_replaceM (hp : pattern.Proper) (hstore : Writes pattern store treat) (text : Text)
    (s : Extraction) : (pattern.replaceM store text).Reaches treat [] text s := by
  have key : ∀ {previous text pieces}, pattern.Reading previous text pieces → ∀ before s,
      Rewriting treat (before ++ text, s)
        (before ++ (pieces.mapM (replacePiece store) s).1.flatten,
          (pieces.mapM (replacePiece store) s).2) := by
    intro previous text pieces h
    induction h with
    | rest _ =>
      intro before s
      rename_i text _
      rw [← List.append_nil (text.map Piece.char), mapM_chars_append]
      simp only [List.mapM_nil]
      show Rewriting treat _ (before ++ (text.map ([·]) ++ []).flatten, s)
      rw [List.append_nil, flatten_singletons]
    | hit hat _ ih =>
      intro before s
      rename_i lead matched after value pieces _
      obtain ⟨latex, s', hvalue, hwritten⟩ := hstore hat (s := s)
      have hstep : Rewrites treat ((before ++ lead) ++ (matched ++ after), s)
        ((before ++ lead) ++ (s'.marker ++ after), s'.put latex) := .store (hwritten _)
      have hrest := ih (before ++ (lead ++ s'.marker)) (s'.put latex)
      have hpieces : (Piece.hit value :: pieces).mapM (replacePiece store) s =
          (s'.marker :: (pieces.mapM (replacePiece store) (s'.put latex)).1,
            (pieces.mapM (replacePiece store) (s'.put latex)).2) := by
        rw [List.mapM_cons, bind_apply, show replacePiece store (.hit value) = store value from rfl,
          hvalue]
        rfl
      rw [mapM_chars_append, hpieces]
      refine .head (by simpa only [List.append_assoc] using hstep) ?_
      simpa only [List.append_assoc, List.flatten_append, flatten_singletons, List.flatten_cons]
        using hrest
  exact key (Pattern.reading_pieces hp text) [] s

end Replacing

/-! ## Enclosed constructs -/

namespace Vector

variable (treat) in
/-- The components of a vector are treated from left to right. -/
theorem writes_components (parts : List Text) (first : Text) (s : Extraction) :
    ∃ (written : List Text) (s' : Extraction),
      (first :: parts).mapM (treat true) s = (written, s') ∧ written ≠ [] ∧
      WritesSlots treat (slots parts.length) (Text.join [','] (first :: parts) ++ ['>']) s
        (Text.join ",\\; " written ++ " \\rangle") s' := by
  induction parts generalizing first s with
  | nil =>
    refine ⟨[(treat true first s).1], (treat true first s).2, rfl, by simp, ?_⟩
    have hone : WritesSlots treat (slots 0) (first ++ ['>']) s
      ((treat true first s).1 ++ " \\rangle".toList) (treat true first s).2 := writesSlots_one rfl
    simpa [Text.join] using hone
  | cons second parts ih =>
    obtain ⟨written, s', hmapM, hne, hslots⟩ := ih second (treat true first s).2
    refine ⟨(treat true first s).1 :: written, s', ?_, by simp, ?_⟩
    · rw [List.mapM_cons, bind_apply, bind_apply, hmapM]
      rfl
    · obtain ⟨next, written, rfl⟩ := List.exists_cons_of_ne_nil hne
      have hcons : WritesSlots treat (slots (parts.length + 1)) _ s _ s' :=
        .cons (a := first) rfl hslots
      simpa [Text.join, List.intercalate] using hcons

theorem fenced_slots (n : Nat) : Shape.Fenced ⟨(['<'], "\\langle ".toList), slots n⟩ := by
  intro p hp
  rcases List.mem_append.mp hp with hp | hp
  · obtain rfl := List.eq_of_mem_replicate hp
    exact ⟨by simp, Text.isFence_cons (by decide) _, Text.isFence_cons (by decide) _⟩
  · obtain rfl := List.mem_singleton.mp hp
    exact ⟨by simp, Text.isFence_cons (by decide) _, Text.isFence_cons (by decide) _⟩

theorem writes_pattern :
    Writes pattern (fun components => do Extract.store (← latex treat components)) treat := by
  intro previous matched after components s hat
  obtain rfl := recognises_pattern.spec hat
  obtain ⟨first, parts, hparts⟩ := List.exists_cons_of_ne_nil
    (Text.splitTopFrom_ne_nil [','] 0 components)
  have hjoin := Text.join_splitTop [','] components
  rw [Text.splitTop, hparts] at hjoin
  obtain ⟨written, s', hmapM, -, hslots⟩ := writes_components treat parts first s
  rw [hjoin] at hslots
  refine ⟨"\\langle ".toList ++ (Text.join ",\\; " written ++ " \\rangle".toList), s', ?_,
    fun before => @Written.listed _ _ _ ⟨(['<'], "\\langle ".toList), slots parts.length⟩ _ _ _ _
      (.inr (by simp [isNameChar])) (by simp) (.vector parts.length) (fenced_slots _) hslots⟩
  show (latex treat components >>= Extract.store) s = _
  rw [bind_apply, latex, Text.splitTop, show (",".toList : Text) = [','] from rfl, hparts,
    bind_apply, hmapM, ← List.append_assoc]
  rfl

end Vector

theorem rewriting_vectors : Step.Rewriting Construct.vectors := by
  intro treat rounds text s
  induction rounds generalizing text s with
  | zero => exact .refl
  | succ rounds ih =>
    have hfirst := reaches_replaceM Vector.recognises_pattern.proper
      (Vector.writes_pattern : Writes _ _ treat) text s
    rw [Construct.vectors]
    refine hfirst.bind ?_
    split
    · rename_i heq
      rw [heq]
      exact reaches_pure
    · exact ih _ _

namespace SetBuilder

/-- A set is a construct, unless its brace is escaped. -/
theorem written_latex (hlast : before.getLast? ≠ some '\\') (content : Text) (s : Extraction) :
    Written treat before after ('{' :: (content ++ ['}'])) s (latex treat content s).1
      (latex treat content s).2 := by
  have hedge : ∀ source, Edge before (['{'] ++ source) := fun source =>
    .inr ⟨by simp [isNameChar], fun _ => hlast⟩
  have hclosing : Text.IsFence ['}'] ∧ Text.IsFence ['\\', '}'] :=
    ⟨Text.isFence_cons (by decide) _, Text.isFence_cons (by decide) _⟩
  rw [latex]
  cases hfind : (Text.findTop? ":" content).or (Text.findTop? "|" content) with
  | none =>
    have hwritten : Written treat before after _ s _ _ := .listed (hedge _) (by simp) .set
      (List.forall_mem_singleton.mpr ⟨by simp, hclosing⟩) (writesSlots_one (a := content) rfl)
    simpa [bind_apply, pure_apply] using hwritten
  | some n =>
    obtain ⟨separator, hseparator, htext⟩ := separator_spec hfind
    have hfence : isNameChar separator = false ∧ separator ≠ '{' := by
      rcases hseparator with rfl | rfl <;> decide
    have hwritten : Written treat before after _ s _ _ :=
      .listed (hedge _) (by simp) (.conditionalSet hseparator)
        (List.forall_mem_cons.mpr ⟨⟨by simp, Text.isFence_cons hfence _,
          Text.isFence_cons (by decide) _⟩, List.forall_mem_singleton.mpr ⟨by simp, hclosing⟩⟩)
        (writesSlots_two (a := content.take n) (b := content.drop (n + 1)) rfl rfl)
    have hsource : '{' :: (content ++ ['}']) =
        ['{'] ++ (content.take n ++ ([separator] ++ (content.drop (n + 1) ++ ['}']))) := by
      conv => lhs; rw [htext]
      simp
    rw [hsource]
    simpa [bind_apply, map_apply] using hwritten

theorem getLast?_ne_of_isGroupArgument (h : ¬isGroupArgument before = true) :
    before.getLast? ≠ some '\\' := by
  intro hlast
  simp [isGroupArgument, hlast] at h

/-- **Collecting sets rewrites the line.** -/
theorem rewriting_collect (rounds : Nat) (before text : Text) (s : Extraction) :
    Rewriting treat (before ++ text, s) (collect treat rounds before text s) := by
  induction rounds generalizing before text s with
  | zero => exact .refl
  | succ rounds ih =>
    rw [collect]
    cases hbreak : Text.breakOn? ['{'] text with
    | none => exact .refl
    | some found =>
      obtain ⟨skipped, after⟩ := found
      have htext : before ++ text = (before ++ skipped) ++ '{' :: after := by
        rw [Text.breakOn?_spec hbreak]
        simp
      simp only [htext]
      by_cases hgroup : isGroupArgument (before ++ skipped) = true
      · -- The brace belongs to a command, a script or is escaped: it is passed over.
        rw [if_pos hgroup]
        simpa using ih (before ++ skipped ++ ['{']) after s
      · rw [if_neg hgroup]
        have hlast := getLast?_ne_of_isGroupArgument hgroup
        cases hclosing : Delimiters.curly.splitClosing? after with
        | none =>
          -- The brace is never closed.
          have hrest := ih (before ++ skipped ++ ['\\', '{']) after s
          rw [List.append_assoc (before ++ skipped)] at hrest
          exact .head (.escape hlast) hrest
        | some found =>
          obtain ⟨content, after'⟩ := found
          rw [Delimiters.curly_splitClosing? hclosing]
          have hstep : Rewrites treat
            ((before ++ skipped) ++ (('{' :: (content ++ ['}'])) ++ after'), s) _ :=
            .store (written_latex hlast content s)
          have hrest := ih (before ++ skipped ++ (latex treat content s).2.marker) after'
            ((latex treat content s).2.put (latex treat content s).1)
          rw [List.append_assoc (before ++ skipped)] at hrest
          exact .trans (.single (by simpa using hstep)) hrest

end SetBuilder

theorem rewriting_setBuilders : Step.Rewriting Construct.setBuilders :=
  fun _ rounds text s => SetBuilder.rewriting_collect rounds [] text s

theorem rewriting_absoluteValues : Step.Rewriting Construct.absoluteValues := by
  intro treat rounds text s
  induction rounds generalizing text s with
  | zero => exact .refl
  | succ rounds ih =>
    rw [Construct.absoluteValues]
    split
    · exact reaches_pure
    · rename_i first last hpair
      have hedge : Edge (text.take first) (['|'] ++ ((text.take last).drop (first + 1) ++ ['|'])) :=
        .inr (by simp [isNameChar])
      have hwritten : Written treat (text.take first) (text.drop (last + 1)) _ s _ _ :=
        .listed hedge (by simp) .absolute (List.forall_mem_singleton.mpr
          ⟨by simp, Text.isFence_cons (by decide) _, Text.isFence_cons (by decide) _⟩)
          (writesSlots_one rfl)
      have hstep := Rewrites.store hwritten
      have htext : text = text.take first ++
          (['|'] ++ ((text.take last).drop (first + 1) ++ ['|']) ++ text.drop (last + 1)) := by
        conv => lhs; rw [Pipe.pair?_spec hpair]
        simp
      rw [← htext] at hstep
      refine .trans (.single ?_) (ih _ _)
      simpa [Extraction.marker, Extraction.put] using hstep

/-! ## Fractions -/

namespace Fraction

/-- The fraction at a slash, as parts of the line. -/
theorem at?_spec {grouped : Bool} {fraction : Fraction}
    (h : at? grouped before after = some fraction) :
    ∃ left right blanks blanks' : Text,
      before ++ '/' :: after = fraction.before ++
        ((left ++ (blanks ++ '/' :: (blanks' ++ right))) ++ fraction.after) ∧
      Edge fraction.before left ∧ left ≠ [] ∧ blanks.Blank ∧ blanks'.Blank ∧
      Marked.Seam right fraction.after ∧ Stop right fraction.after ∧
      fraction.numerator = Operand.ungrouped left ∧
      fraction.denominator = Operand.ungrouped right := by
  simp only [at?] at h
  split at h
  · rename_i start width hstart hwidth
    obtain ⟨-, hsome⟩ := Option.ite_none_right_eq_some.mp h
    obtain rfl := Option.some.inj hsome
    obtain ⟨blanks, hblanks, hb⟩ := Text.trimRight_append before
    have hblanks' : after = after.takeWhile isBlank ++ Text.trimLeft after :=
      (List.takeWhile_append_dropWhile).symm
    have hb' : Text.Blank (after.takeWhile isBlank) := fun c hc => List.mem_takeWhile_imp hc
    obtain ⟨front, left, hleft, rfl, hne, hedge⟩ := Operand.start?_spec hstart
    obtain ⟨right, rest, hright, rfl, hseam, hstop⟩ := Operand.width?_spec hwidth
    simp only [hleft, hright, List.take_left, List.drop_left]
    refine ⟨left, right, blanks, after.takeWhile isBlank, ?_, hedge, hne, hb, hb',
      Operand.seam_of_suffix hseam, hstop, rfl, rfl⟩
    conv => lhs; rw [hblanks, hblanks', hleft, hright]
    simp
  · cases h

/-- **Collecting fractions rewrites the line.** -/
theorem reaches_collect (grouped : Bool) (rounds : Nat) (text : Text) (s : Extraction) :
    (collect grouped treat rounds text).Reaches treat [] text s := by
  induction rounds generalizing text s with
  | zero => exact reaches_pure
  | succ rounds ih =>
    rw [collect]
    split
    · exact reaches_pure
    · rename_i fraction hfind
      obtain ⟨before, after, htext, hat⟩ := findFrom?_spec hfind
      obtain ⟨left, right, blanks, blanks', hline, hedge, hne, hb, hb', hseam, hstop, hleft,
        hright⟩ := at?_spec hat
      have hstep := Rewrites.store (Written.fraction hedge hne hb hb' hseam hstop
        (Prod.mk.eta (p := treat true (Operand.ungrouped left) s)).symm
        (Prod.mk.eta (p := treat true (Operand.ungrouped right) _)).symm)
      rw [← hline, ← htext, ← hleft, ← hright] at hstep
      refine .trans (.single ?_) (ih _ _)
      simpa [Extraction.marker, Extraction.put] using hstep

end Fraction

theorem rewriting_fractions : Step.Rewriting Construct.fractions :=
  fun _ rounds text s => (Fraction.reaches_collect true rounds text s).bind
    (Fraction.reaches_collect false rounds _ _)

/-! ## Scripts -/

namespace Script

theorem writes_subscript : Call.Writes subscriptHead (fun letter argument => do
    return some (Latex.withSubscript [letter] (← treat false argument))) treat := by
  intro before matched argument after letter s hat
  obtain ⟨rfl, halpha⟩ := recognises_subscriptHead.spec hat
  exact .inr ⟨_, _, rfl, .script (.inl ⟨rfl, halpha⟩) rfl⟩

theorem writes_bareSubscript : Writes (bare Char.isAlpha '_')
    (fun script => Extract.store (inBraces '_' script)) treat := by
  intro previous matched after value s hat
  obtain ⟨rfl, halpha, hne, hall, hstop⟩ := (recognises_bare Char.isAlpha '_').spec hat
  exact ⟨_, s, rfl, fun before => .bareScript (.inl ⟨rfl, halpha⟩) (.inl ⟨hne, hall, hstop⟩)⟩

theorem writes_bareExponent : Writes bareExponent
    (fun script => Extract.store (inBraces '^' script)) treat := by
  intro previous matched after value s hat
  obtain ⟨rfl, hbase, hkind⟩ := recognises_bareExponent.spec hat
  refine ⟨_, s, rfl, fun before => .bareScript (.inr ⟨rfl, ?_⟩) ?_⟩
  · simp only [isExponentBase, Bool.or_eq_true, beq_iff_eq] at hbase
    rcases hbase with (hbase | hbase) | hbase
    · exact .inl (isLetterOrNumber_of_isAlphanum hbase)
    · exact .inr (.inl hbase)
    · exact .inr (.inr hbase)
  · exact hkind.symm.imp_right fun h => ⟨rfl, h⟩

end Script

theorem rewriting_subscripts : Step.Rewriting Construct.subscripts :=
  fun _ rounds text s => (Call.reaches_collect Script.recognises_subscriptHead.proper
    Script.writes_subscript rounds [] text s).bind
      (reaches_replaceM (Script.recognises_bare _ _).proper Script.writes_bareSubscript _ _)

namespace Script

variable (treat) in
/-- What an exponent in brackets stands on, with the LaTeX of the power. -/
theorem exponentBase?_spec {start : Nat} {base : Text}
    (h : exponentBase? before = some (start, base)) :
    ∃ front source : Text, before = front ++ source ∧ front.length = start ∧
      ∀ (argument after : Text) (s : Extraction),
        Written treat front after (source ++ '^' :: '(' :: (argument ++ [')'])) s
          (Latex.withExponent base (treat false argument s).1) (treat false argument s).2 := by
  rw [exponentBase?] at h
  split at h
  · -- A marker, with a line break that may stand behind it.
    rename_i lead marker hend
    cases h
    obtain ⟨newline, hbefore, hnewline⟩ := dropFinalNewline_append before
    obtain ⟨hdrop, hmarker, -⟩ := longestEnd?_eq_some hend
    obtain ⟨digits, rfl, hne, hall⟩ := Marker.isMarker_iff.mp hmarker
    rw [hdrop, List.append_assoc] at hbefore
    refine ⟨lead, Marker.ofDigits digits ++ newline, hbefore, rfl, fun argument after s => ?_⟩
    rw [List.append_assoc]
    exact .power ⟨hne, hall⟩ hnewline rfl
  · split at h
    · cases h
    · rename_i last hlast
      obtain ⟨front, rfl⟩ := List.getLast?_eq_some_iff.mp hlast
      split at h
      · -- A group in brackets.
        rename_i hclose
        obtain rfl := beq_iff_eq.mp hclose
        obtain ⟨⟨lead, content⟩, hopening, heq⟩ := Option.map_eq_some_iff.mp h
        cases heq
        rw [List.dropLast_concat] at hopening
        have htext : front ++ [')'] = lead ++ ('(' :: content ++ [')']) := by
          rw [Delimiters.round_splitOpening? hopening, List.append_assoc]
        refine ⟨lead, '(' :: content ++ [')'], htext, rfl, fun argument after s => ?_⟩
        rw [htext, List.drop_left]
        have hgroup : Written treat lead after
            ('(' :: (content ++ ')' :: '^' :: '(' :: (argument ++ [')']))) s _ _ := .group rfl
        simpa [Latex.withExponent] using hgroup
      · split at h
        · -- A single letter or number, or a brace that closes.
          rename_i hletter
          cases h
          refine ⟨front, [last], rfl, by simp, fun argument after s => ?_⟩
          simp only [Bool.or_eq_true, beq_iff_eq] at hletter
          exact .script (.inr ⟨rfl, hletter.imp_right .inl⟩) rfl
        · cases h

/-- **Collecting exponents rewrites the line.** -/
theorem rewriting_collectExponents (rounds : Nat) (before text : Text) (s : Extraction) :
    Rewriting treat (before ++ text, s) (collectExponents treat rounds before text s) := by
  induction rounds generalizing before text s with
  | zero => exact .refl
  | succ rounds ih =>
    rw [collectExponents]
    cases hbreak : Text.breakOn? "^(" text with
    | none => exact .refl
    | some found =>
      obtain ⟨skipped, after⟩ := found
      have htext : text = skipped ++ '^' :: ('(' :: after) := Text.breakOn?_spec hbreak
      simp only
      -- Where nothing is put aside, what stands behind the bracket is looked at.
      have hpass : Rewriting treat (before ++ text, s)
          (collectExponents treat rounds (before ++ skipped ++ "^(") after s) := by
        rw [htext]
        simpa using ih (before ++ skipped ++ "^(".toList) after s
      cases hclosing : Delimiters.round.splitClosing? after with
      | none => exact hpass
      | some found =>
        obtain ⟨argument, rest⟩ := found
        cases hbase : exponentBase? (before ++ skipped) with
        | none => exact hpass
        | some found =>
          obtain ⟨start, base⟩ := found
          obtain ⟨front, source, hfront, rfl, hwritten⟩ := exponentBase?_spec treat hbase
          have hstep := Rewrites.store (hwritten argument rest s)
          have hline : before ++ text =
              front ++ ((source ++ '^' :: '(' :: (argument ++ [')'])) ++ rest) := by
            rw [htext, ← List.append_assoc, hfront, Delimiters.round_splitClosing? hclosing]
            simp
          have htake : (before ++ skipped).take front.length = front := by
            rw [hfront, List.take_left]
          rw [← hline] at hstep
          simp only [htake]
          exact .head hstep (ih front _ _)

theorem reaches_collectMarkerExponents (rounds : Nat) (text : Text) (s : Extraction) :
    (collectMarkerExponents rounds text).Reaches treat [] text s := by
  induction rounds generalizing text s with
  | zero => exact reaches_pure
  | succ rounds ih =>
    rw [collectMarkerExponents]
    split
    · exact reaches_pure
    · rename_i cut hcut
      obtain ⟨htext, hat⟩ := Pattern.find?_spec recognises_markerExponent.proper hcut
      have hwritten : Written treat cut.before cut.after cut.matched s
          (Latex.withExponent (Latex.braced cut.value.1) cut.value.2) s := by
        obtain ⟨digits, hdigits, hd, hmatched | ⟨hmatched, hrun⟩⟩ :=
          recognises_markerExponent.spec hat
        · rw [hmatched, hdigits]
          exact .bracedPower hd
        · rw [hmatched, hdigits]
          exact .barePower hd hrun
      have hstep := Rewrites.store hwritten
      rw [← htext] at hstep
      refine .trans (.single ?_) (ih _ _)
      simpa [Extraction.marker, Extraction.put] using hstep

end Script

theorem rewriting_exponents : Step.Rewriting Construct.exponents :=
  fun _ rounds text s => Reaches.bind (Script.rewriting_collectExponents rounds [] text s)
    ((reaches_replaceM Script.recognises_bareExponent.proper Script.writes_bareExponent _ _).bind
      (Script.reaches_collectMarkerExponents rounds _ _))

/-! ## All steps -/

namespace Construct

/-- **Every step of the extraction rewrites the line.** -/
theorem rewriting_of_mem_steps : ∀ step ∈ steps, Step.Rewriting step := by
  simp only [steps, List.forall_mem_cons]
  exact ⟨Call.rewriting_factorials, Bound.rewriting_boundedOperators, Call.rewriting_rootsAndArrows,
    Call.rewriting_floorsAndCeilings, Call.rewriting_functions, rewriting_vectors,
    Call.rewriting_binomials, rewriting_setBuilders, rewriting_absoluteValues, rewriting_fractions,
    rewriting_subscripts, rewriting_exponents, List.forall_mem_nil _⟩

theorem reaches_foldlM (rounds : Nat) {list : List Step} (hlist : ∀ step ∈ list, step.Rewriting)
    (text : Text) (s : Extraction) :
    (list.foldlM (fun text (step : Step) => step rounds treat text) text).Reaches
      treat [] text s := by
  induction list generalizing text s with
  | nil => exact reaches_pure
  | cons step list ih =>
    obtain ⟨hstep, hlist⟩ := List.forall_mem_cons.mp hlist
    rw [List.foldlM_cons]
    exact (hstep treat rounds text s).bind (ih hlist _ _)

variable (treat) in
theorem reaches_runSteps (rounds : Nat) (text : Text) (s : Extraction) :
    (runSteps rounds treat text).Reaches treat [] text s :=
  reaches_foldlM rounds rewriting_of_mem_steps text s

end Construct

namespace Invariant

variable {I : Invariant}

/-- Treating arguments keeps to a lawful invariant at every depth. -/
theorem Lawful.treatment (hI : I.Lawful) (rounds depth : Nat) :
    (Construct.treatment rounds depth).Keeps I := by
  induction depth with
  | zero =>
    intro prose argument s hsound hline
    obtain ⟨hsound', -, hlatex⟩ := hI.hold hsound (hI.trim hline)
    exact ⟨.hold s _, hsound', hlatex⟩
  | succ depth ih =>
    intro prose argument s hsound hline
    have hrun := Construct.reaches_runSteps (Construct.treatment rounds depth) rounds
      (Text.trim argument) s
    obtain ⟨hgrows, hsound', hline'⟩ := hI.reaches ih hrun hsound (hI.trim hline)
    have htreat : Construct.treatment rounds (depth + 1) prose argument = (do
        return segmentLine prose (← Construct.extract rounds (depth + 1) (Text.trim argument))) :=
      rfl
    rw [Construct.extract_succ] at htreat
    rw [htreat]
    generalize Construct.runSteps rounds (Construct.treatment rounds depth) (Text.trim argument) = m
      at hgrows hsound' hline'
    exact ⟨hgrows, hsound', hI.segment prose hline'⟩

/-- **What extraction gives keeps to a lawful invariant**: the line that is left and the state. -/
theorem Lawful.extract (hI : I.Lawful) (rounds depth : Nat) {text : Text} {s : Extraction}
    (hsound : I.Sound s) (hline : I.Line s text) :
    I.Sound (Construct.extract rounds depth text s).2 ∧
      I.Line (Construct.extract rounds depth text s).2
        (Construct.extract rounds depth text s).1 := by
  cases depth with
  | zero =>
    obtain ⟨hsound', hline', -⟩ := hI.hold hsound hline
    exact ⟨hsound', hline'⟩
  | succ depth =>
    rw [Construct.extract_succ]
    exact (hI.reaches (hI.treatment rounds depth) (Construct.reaches_runSteps _ rounds text s)
      hsound hline).2

end Invariant

/-! ## Putting fragments back -/

/-- The markers of a text. -/
theorem Marker.recognises_pattern : Marker.pattern.Recognises fun _ matched digits _ =>
    matched = Marker.ofDigits digits ∧ Script.IsDigits digits := by
  intro previous text hit h
  obtain ⟨⟨digits, rest⟩, hread, rfl⟩ := Option.map_eq_some_iff.mp h
  obtain ⟨htext, hne, hall⟩ := Marker.read?_eq_some_iff.mp hread
  exact ⟨_, rest, htext, rfl, by simp [Marker.ofDigits, Marker.lead], rfl, hne, hall⟩

namespace Fragments

variable {fragments : Fragments}

/-- What takes the place of a marker. -/
def fill (fragments : Fragments) (digits : Text) : Text :=
  (fragments[decimalNumber digits]?).getD (Marker.ofDigits digits)

theorem eq_replace_of_resolveOnce {line updated : Text}
    (h : fragments.resolveOnce line = .ok updated) :
    updated = Marker.pattern.replace fragments.fill line := by
  rw [resolveOnce, replaceM_eq] at h
  cases hparts : (Marker.pattern.pieces line).mapM (replacePiece fragments.lookup) with
  | error fault =>
    rw [hparts] at h
    cases h
  | ok parts =>
    rw [hparts] at h
    cases h
    have hforall := Table.mapM_ok_iff.mp hparts
    clear hparts
    rw [Pattern.replace, List.flatMap_def]
    congr 1
    generalize Marker.pattern.pieces line = pieces at hforall
    induction hforall with
    | nil => rfl
    | @cons piece part pieces parts hpiece _ ih =>
      rw [List.map_cons, ← ih]
      congr 1
      cases piece with
      | char c => exact (Except.ok.inj hpiece).symm
      | hit digits =>
        rw [replacePiece, lookup] at hpiece
        split at hpiece
        · cases hpiece
        · exact (Except.ok.inj hpiece).symm

/-- What every pass keeps, resolving keeps. -/
theorem resolveFrom_keeps {P : Text → Prop}
    (hP : ∀ line, P line → P (Marker.pattern.replace fragments.fill line)) {line : Text}
    (hline : P line) {passes budget : Nat} {r : Resolution}
    (hr : fragments.resolveFrom passes budget line = .ok r) : P r.latex := by
  induction budget generalizing passes line with
  | zero =>
    rw [resolveFrom, Except.ok.injEq] at hr
    rwa [← hr]
  | succ budget ih =>
    rcases resolveFrom_succ hr with ⟨-, hlatex⟩ | ⟨updated, -, hupdated, hrest⟩
    · rwa [hlatex]
    · exact ih (eq_replace_of_resolveOnce hupdated ▸ hP line hline) hrest

end Fragments

namespace Expression

/-- The LaTeX of a line is that of its resolved fragments. -/
theorem exists_resolved {settings : Settings} {line latex : Text} {unresolved : Bool}
    (h : compile settings line = .ok (latex, unresolved)) :
    ∃ r : Resolution, latex = Symbol.symbolPass r.latex ∧
      (segmented settings line).2.fragments.resolveFrom 0 settings.passes.toNat
        (segmented settings line).1 = .ok r := by
  rw [compile_eq, Fragments.resolve] at h
  cases hr : (segmented settings line).2.fragments.resolveFrom 0 settings.passes.toNat
      (segmented settings line).1 with
  | error fault =>
    rw [hr] at h
    cases h
  | ok r =>
    rw [hr] at h
    cases h
    exact ⟨r, rfl, rfl⟩

/-- A lawful invariant holds of the line and of the state that a line is segmented from. -/
theorem exists_working {I : Invariant} (hI : I.Lawful) (settings : Settings) {line : Text}
    (hsound : I.Sound {}) (hline : I.Line {} (Symbol.substituteConstants line)) :
    ∃ working, (segmented settings line).1 = segmentLine true working ∧
      I.Sound (segmented settings line).2 ∧ I.Line (segmented settings line).2 working :=
  ⟨_, rfl, hI.extract settings.rounds.toNat settings.depth.toNat hsound hline⟩

end Expression

end MathNotes
