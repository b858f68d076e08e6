import MathNotes.Construct.Bound
import MathNotes.Proofs.Follow

/-!
# Calls along the catalogue

Every call that is collected is a construct of the catalogue: factorials, roots and arrows, floors
and ceilings, functions and binomials, and the operators with their bounds.
-/

namespace MathNotes

open Marked Extract

/-- A step of the extraction runs along the catalogue when the treatment of arguments follows a
relation that carries everything along. -/
def Step.Sound (step : Step) : Prop :=
  ∀ ⦃treat : Treatment⦄ ⦃Arg : Treating⦄, treat.Follows Arg → Arg.Carrying →
    ∀ (rounds : Nat) ⦃w : Marked⦄ ⦃G : Table⦄, G.Ready w →
      (step rounds treat w.text).Runs Arg [] w G

section Weaving

variable {Arg : Treating} {G G₁ G₂ : Table} {slot slot' : Slot} {lead lead' l l' k k' : Text}
  {a b s t : Marked}

/-- A construct with one part. -/
theorem weaves_one (h : slot.Fills Arg a G t G₁) :
    Shape.Weaves Arg ⟨(lead, lead'), [(slot, l, l')]⟩ (plain lead ++ (a ++ plain l)) G
      (plain lead' ++ (t ++ plain l')) G₁ := by
  have h : Shape.Weaves Arg ⟨(lead, lead'), [(slot, l, l')]⟩ _ G _ G₁ := .mk (.cons h .nil)
  simpa only [List.append_nil] using h

/-- A construct with two parts. -/
theorem weaves_two (h : slot.Fills Arg a G t G₁) (h' : slot'.Fills Arg b G₁ s G₂) :
    Shape.Weaves Arg ⟨(lead, lead'), [(slot, l, l'), (slot', k, k')]⟩
      (plain lead ++ (a ++ (plain l ++ (b ++ plain k)))) G
      (plain lead' ++ (t ++ (plain l' ++ (s ++ plain k')))) G₂ := by
  have h : Shape.Weaves Arg ⟨(lead, lead'), [(slot, l, l'), (slot', k, k')]⟩ _ G _ G₂ :=
    .mk (.cons h (.cons h' .nil))
  simpa only [List.append_nil] using h

end Weaving

namespace Call

theorem isNameChar_of_barsName {c : Char} (h : barsName c = false) : isNameChar c = false :=
  (Bool.or_eq_false_iff.mp h).1

/-- A call starts with its name, and nothing in front makes the name part of something else. -/
theorem recognises_head (names : List Text) :
    (head names).Recognises fun previous matched name _ =>
      (∃ blanks : Text, matched = name ++ blanks ++ ['('] ∧ blanks.Blank) ∧ name ∈ names ∧
        ∀ c ∈ previous, barsName c = false := by
  intro previous text hit h
  rw [head] at h
  split at h
  · cases h
  · rename_i hbars
    obtain ⟨name, hmem, hname⟩ := List.exists_of_findSome?_eq_some h
    simp only [Option.bind_eq_bind, Option.bind_eq_some_iff, Option.pure_def, Option.some.injEq,
      isPrefixOf?_eq_some_iff, Text.after?_eq_some_iff] at hname
    obtain ⟨rest, rfl, argument, hargument, rfl⟩ := hname
    obtain ⟨blanks, hblanks, hblank⟩ := Text.trimLeft_append rest
    rw [hargument] at hblanks
    have htext : name ++ rest = name ++ blanks ++ ['('] ++ argument := by simp [hblanks]
    refine ⟨_, argument, htext, Hit.width_leaving htext, by simp, ⟨blanks, rfl, hblank⟩, hmem, ?_⟩
    intro c hc
    simpa [Option.mem_def.mp hc] using hbars

theorem seamed_head (names : List Text) : Seamed (head names) := by
  intro previous before matched after name hat
  obtain ⟨⟨blanks, rfl, -⟩, -, hprevious⟩ := (recognises_head names).spec hat
  refine ⟨seam_of_last fun c hc => isNameChar_of_barsName (hprevious c ?_),
    seam_of_last (by simp [isNameChar])⟩
  rw [Option.mem_def.mp hc]
  rfl

/-- The start of a call is plain text. -/
theorem eq_plain_head {names : List Text} (hnames : ∀ name ∈ names, '_' ∉ name) {name blanks : Text}
    (hmem : name ∈ names) (hb : blanks.Blank) {m : Marked} (hm : m.text = name ++ blanks ++ ['(']) :
    m = plain (name ++ blanks ++ ['(']) := by
  rw [← hm]
  refine eq_plain_of_not_name fun c hc he => ?_
  subst he
  rw [hm, List.mem_append, List.mem_append, List.mem_singleton] at hc
  rcases hc with (hc | hc) | hc
  · exact hnames name hmem hc
  · exact absurd (hb '_' hc) (by decide)
  · cases hc

/-- A step that collects calls, each of them a construct of the catalogue. -/
theorem sound_step {names : List Text} {build : Treatment → Text → Text → Extract (Option Text)}
    (hbuild : ∀ ⦃treat : Treatment⦄ ⦃Arg : Treating⦄, treat.Follows Arg → Arg.Carrying →
      Builds (head names) (build treat) Arg) : Step.Sound (step names build) := by
  intro treat Arg hfollows hArg rounds w G hready
  have hready' : G.Ready ([] ++ w) := hready
  exact runs_collect hArg (recognises_head names).proper (seamed_head names).cuts
    (hbuild hfollows hArg) rounds hready'

/-- Calls of one argument. -/
theorem builds_argument {names : List Text} (latex : Text → Text → Text) (lead tail : Text → Text)
    (hnames : ∀ name ∈ names, '_' ∉ name)
    (hlatex : ∀ name inner, latex name inner = lead name ++ (inner ++ tail name))
    (hlisted : ∀ ⦃previous : Option Char⦄ ⦃name blanks : Text⦄, blanks.Blank → name ∈ names →
      Listed previous
        ⟨(name ++ blanks ++ ['('], lead name), [(.argument true, [')'], tail name)]⟩)
    {treat : Treatment} {Arg : Treating} (hfollows : treat.Follows Arg) :
    Builds (head names) (fun name argument => do
      return some (latex name (← treat true argument))) Arg := by
  intro previous m arg after name G hat hready
  obtain ⟨⟨blanks, hm, hb⟩, hmem, -⟩ := (recognises_head names).spec hat
  obtain ⟨t, G', hgives, harg⟩ := hfollows true hready
  refine .inr ⟨plain (lead name) ++ (t ++ plain (tail name)), G', _, ?_, hlisted hb hmem, ?_⟩
  · exact hgives.bind (gives_pure_eq (by simp [hlatex]) _)
  · rw [eq_plain_head hnames hmem hb hm]
    exact weaves_one harg

theorem sound_rootsAndArrows : Step.Sound Construct.rootsAndArrows :=
  sound_step fun _ _ hfollows _ => builds_argument (fun name inner => Latex.command name [inner])
    (fun name => '\\' :: name ++ ['{']) (fun _ => ['}']) (by decide)
    (fun name inner => by simp [Latex.command, Latex.braced])
    (fun _ _ _ hb hmem => .command hb hmem) hfollows

theorem sound_floorsAndCeilings : Step.Sound Construct.floorsAndCeilings :=
  sound_step fun _ _ hfollows _ => builds_argument
    (fun name inner => "\\l" ++ name ++ " " ++ inner ++ " \\r" ++ name)
    (fun name => "\\l" ++ name ++ [' ']) (fun name => " \\r" ++ name) (by decide)
    (fun name inner => by simp) (fun _ _ _ hb hmem => .rounded hb hmem) hfollows

theorem sound_functions : Step.Sound Construct.functions :=
  sound_step fun _ _ hfollows _ => builds_argument
    (fun name inner => '\\' :: name ++ "(" ++ inner ++ ")")
    (fun name => '\\' :: name ++ ['(']) (fun _ => [')']) (by decide)
    (fun name inner => by simp) (fun _ _ _ hb hmem => .function hb hmem) hfollows

/-- Factorials: brackets are put around an argument that needs them. -/
theorem sound_factorials : Step.Sound Construct.factorials := by
  refine sound_step fun treat Arg hfollows _ => ?_
  intro previous m arg after name G hat hready
  obtain ⟨⟨blanks, hm, hb⟩, hmem, hprevious⟩ := (recognises_head _).spec hat
  obtain ⟨t, G', hgives, harg⟩ := hfollows true hready
  obtain rfl : name = "factorial".toList := List.mem_singleton.mp hmem
  rw [eq_plain_head (by decide) hmem hb hm]
  by_cases hcompound : Construct.isCompound (Text.trim arg.text) = true
  · refine .inr ⟨plain ['('] ++ (t ++ plain ")!".toList), G', _, hgives.bind ?_,
      .compoundFactorial hb, weaves_one harg⟩
    rw [if_pos hcompound]
    exact gives_pure_eq (by simp) _
  · refine .inr ⟨plain [] ++ (t ++ plain ['!']), G', _, hgives.bind ?_,
      .factorial hb fun c hc => isNameChar_of_barsName (hprevious c hc), weaves_one harg⟩
    rw [if_neg hcompound]
    exact gives_pure_eq (by simp) _

/-- Binomials: nothing is treated unless there are two arguments. -/
theorem sound_binomials : Step.Sound Construct.binomials := by
  refine sound_step fun treat Arg hfollows hArg => ?_
  intro previous m arg after name G hat hready
  obtain ⟨⟨blanks, hm, hb⟩, hmem, -⟩ := (recognises_head _).spec hat
  obtain rfl : name = "choose".toList := List.mem_singleton.mp hmem
  rw [eq_plain_head (by decide) hmem hb hm]
  have hjoin := Text.join_splitTop [','] arg.text
  simp only
  split
  · rename_i top bottom hparts
    rw [show (",".toList : Text) = [','] from rfl] at hparts
    rw [hparts] at hjoin
    have htext : arg.text = top ++ ',' :: bottom := by
      rw [← hjoin]
      simp [Text.join, List.intercalate]
    by_cases hblank : ((Text.trim top).isEmpty || (Text.trim bottom).isEmpty) = true
    · rw [if_pos hblank]
      exact .inl (gives_pure _ _)
    · rw [if_neg hblank]
      obtain ⟨u, v, rfl, rfl, rfl⟩ := split_char htext rfl
      obtain ⟨t, G₁, htop, hu⟩ := hfollows true hready.left
      obtain ⟨H, rfl, -⟩ := hArg hu hready.left.covers
      obtain ⟨s, G₂, hbottom, hv⟩ := hfollows true (hready.right.right.grow H)
      refine .inr ⟨plain "\\binom\x7b".toList ++ (t ++ (plain "\x7d\x7b".toList ++
        (s ++ plain ['}']))), G₂, _, htop.bind (hbottom.bind ?_), .binomial hb, ?_⟩
      · exact gives_pure_eq (by simp [Latex.command, Latex.braced]) _
      · rw [List.append_assoc u, List.append_assoc (plain [','])]
        have hfills : Slot.Fills Arg (.argument true) u G t (G ++ H) := hu
        exact weaves_two hfills hv
  · exact .inl (gives_pure _ _)

end Call

/-! ## Operators with bounds -/

namespace Bound

/-- An operator, perhaps with an underscore, and the bracket of its bounds. -/
theorem recognises_head : head.Recognises fun previous matched operator _ =>
    (∃ blanks mark blanks' : Text, blanks.Blank ∧ blanks'.Blank ∧ (mark = [] ∨ mark = ['_']) ∧
      matched = operator.1 ++ (blanks ++ (mark ++ (blanks' ++ ['('])))) ∧ operator ∈ operators ∧
      ∀ c ∈ previous, Call.barsName c = false := by
  intro previous text hit h
  rw [head] at h
  split at h
  · cases h
  · rename_i hbars
    obtain ⟨⟨name, command⟩, hmem, hop⟩ := List.exists_of_findSome?_eq_some h
    simp only [Option.bind_eq_bind, Option.bind_eq_some_iff, Option.pure_def, Option.some.injEq,
      isPrefixOf?_eq_some_iff, Text.after?_eq_some_iff] at hop
    obtain ⟨rest, rfl, bounds, hbounds, rfl⟩ := hop
    obtain ⟨blanks, hblanks, hblank⟩ := Text.trimLeft_append rest
    have hprevious : ∀ c ∈ previous, Call.barsName c = false := by
      intro c hc
      simpa [Option.mem_def.mp hc] using hbars
    have hshape : ∃ mark blanks' : Text, blanks'.Blank ∧ (mark = [] ∨ mark = ['_']) ∧
        Text.trimLeft rest = mark ++ (blanks' ++ '(' :: bounds) := by
      cases hmark : Text.after? '_' (Text.trimLeft rest) with
      | none =>
        rw [hmark] at hbounds
        exact ⟨[], [], fun c hc => absurd hc List.not_mem_nil, .inl rfl, hbounds⟩
      | some behind =>
        rw [hmark] at hbounds
        obtain ⟨blanks', hblanks', hblank'⟩ := Text.trimLeft_append behind
        refine ⟨['_'], blanks', hblank', .inr rfl, ?_⟩
        rw [Text.after?_eq_some_iff.mp hmark, hblanks']
        exact congrArg (fun t => '_' :: (blanks' ++ t)) hbounds
    obtain ⟨mark, blanks', hblank', hmark, hrest⟩ := hshape
    rw [hrest] at hblanks
    have htext : name ++ rest =
        name ++ (blanks ++ (mark ++ (blanks' ++ ['(']))) ++ bounds := by simp [hblanks]
    exact ⟨_, bounds, htext, Hit.width_leaving htext, by simp,
      ⟨blanks, mark, blanks', hblank, hblank', hmark, rfl⟩, hmem, hprevious⟩

theorem seamed_head : Seamed head := by
  intro previous before matched after operator hat
  obtain ⟨⟨blanks, mark, blanks', -, -, -, rfl⟩, -, hprevious⟩ := recognises_head.spec hat
  refine ⟨seam_of_last fun c hc => Call.isNameChar_of_barsName (hprevious c ?_), seam_of_last ?_⟩
  · rw [Option.mem_def.mp hc]
    rfl
  · simp only [← List.append_assoc, List.getLast?_concat]
    simp [isNameChar]

/-- The start of an operator with bounds is plain text. -/
theorem eq_plain_head {operator : Text × Text} (hop : operator ∈ operators)
    {blanks mark blanks' : Text} (hb : blanks.Blank) (hb' : blanks'.Blank)
    (hmark : mark = [] ∨ mark = ['_']) {m : Marked}
    (hm : m.text = operator.1 ++ (blanks ++ (mark ++ (blanks' ++ ['('])))) :
    m = plain (operator.1 ++ (blanks ++ (mark ++ (blanks' ++ ['('])))) := by
  have hblank : ∀ {t : Text}, t.Blank → t.count '_' = 0 := fun ht =>
    List.count_eq_zero.mpr fun hm => absurd (ht '_' hm) (by decide)
  have hname : ∀ o ∈ operators, List.count '_' o.1 = 0 := by decide
  have hone : mark.count '_' ≤ 1 := by
    rcases hmark with rfl | rfl <;> decide
  rw [← hm]
  refine eq_plain_of_count ?_
  rw [hm]
  simp only [List.count_append, hblank hb, hblank hb', hname _ hop, List.count_cons, List.count_nil]
  simp
  omega

theorem blank_of_trim_isEmpty {w : Marked} (h : (Text.trim w.text).isEmpty = true) :
    ∃ inner : Text, w = plain inner ∧ inner.Blank := by
  obtain ⟨w', htext, x, y, rfl, hx, hy⟩ := exists_trims w
  rw [List.isEmpty_iff] at h
  rw [h] at htext
  obtain rfl := eq_nil_of_text htext
  refine ⟨x ++ y, by simp, fun c hc => ?_⟩
  exact (List.mem_append.mp hc).elim (hx c) (hy c)

/-- Bounds are cut at an arrow. -/
theorem split_arrow {w : Marked} {lower upper : Text} (h : w.text = lower ++ '-' :: '>' :: upper) :
    ∃ u v : Marked, w = u ++ (plain ['-', '>'] ++ v) ∧ u.text = lower ∧ v.text = upper := by
  obtain ⟨u, rest, rfl, hu, hrest⟩ := split_char h rfl
  obtain ⟨nothing, v, rfl, hnothing, hv⟩ := split_char (a := []) hrest rfl
  obtain rfl := eq_nil_of_text hnothing
  exact ⟨u, v, rfl, hu, hv⟩

/-- The LaTeX of two bounds. -/
theorem latex_arrow (name command : Text) {bounds lower upper : Text}
    (hempty : ¬(Text.trim bounds).isEmpty = true)
    (hbreak : Text.breakOn? "->" bounds = some (lower, upper)) :
    ∃ between : Text, (between = " \\to ".toList ∨ between = "\x7d^\x7b".toList) ∧
      latex (name, command) bounds =
        command ++ '_' :: '{' :: (normalize lower ++ (between ++ (normalize upper ++ ['}']))) := by
  rw [latex, if_neg hempty, hbreak]
  simp only
  split
  · exact ⟨_, .inl rfl, by simp [Latex.withSubscript, Latex.braced]⟩
  · exact ⟨_, .inr rfl, by simp [Latex.withSubscript, Latex.withExponent, Latex.braced]⟩

/-- An operator with its bounds is a construct of the catalogue. -/
theorem builds_latex (Arg : Treating) :
    Call.Builds head (fun operator bounds => return some (latex operator bounds)) Arg := by
  intro previous m arg after operator G hat hready
  obtain ⟨⟨blanks, mark, blanks', hb, hb', hmark, hm⟩, hop, -⟩ := recognises_head.spec hat
  obtain ⟨name, command⟩ := operator
  rw [eq_plain_head hop hb hb' hmark hm]
  refine .inr ?_
  by_cases hempty : (Text.trim arg.text).isEmpty = true
  · -- Blank bounds are written as none.
    have hlatex : latex (name, command) arg.text = command := by rw [latex, if_pos hempty]
    obtain ⟨inner, rfl, hinner⟩ := blank_of_trim_isEmpty hempty
    refine ⟨plain command, G, _, gives_pure_eq (by rw [hlatex, text_plain]) _,
      .unbounded hop hb hb' hmark hinner, ?_⟩
    have hweaves : Shape.Weaves Arg
      ⟨(name ++ (blanks ++ (mark ++ (blanks' ++ ('(' :: (inner ++ [')']))))), command), []⟩
      _ G _ G :=
      .mk .nil
    simpa using hweaves
  · cases hbreak : Text.breakOn? "->" arg.text with
    | none =>
      have hlatex : latex (name, command) arg.text =
          Latex.withSubscript command (normalize arg.text) := by rw [latex, if_neg hempty, hbreak]
      obtain ⟨t, ht, hcast⟩ := exists_normalize arg
      refine ⟨plain (command ++ ['_', '{']) ++ (t ++ plain ['}']), G, _,
        gives_pure_eq ?_ _, .lowerBound hop hb hb' hmark, weaves_one ⟨rfl, ht, hcast⟩⟩
      simp [hlatex, Latex.withSubscript, Latex.braced, ht]
    | some found =>
      obtain ⟨lower, upper⟩ := found
      obtain ⟨between, hbetween, hlatex⟩ := latex_arrow name command hempty hbreak
      obtain ⟨u, v, rfl, rfl, rfl⟩ := split_arrow (Text.breakOn?_spec hbreak)
      obtain ⟨t, ht, hcastu⟩ := exists_normalize u
      obtain ⟨s, hs, hcastv⟩ := exists_normalize v
      have hfillu : Slot.bound.Fills Arg u G t G := ⟨rfl, ht, hcastu⟩
      have hfillv : Slot.bound.Fills Arg v G s G := ⟨rfl, hs, hcastv⟩
      refine ⟨plain (command ++ ['_', '{']) ++ (t ++ (plain between ++ (s ++ plain ['}']))), G, _,
        gives_pure_eq (by rw [hlatex]; simp [ht, hs]) _, .bothBounds hop hb hb' hmark hbetween, ?_⟩
      rw [List.append_assoc u, List.append_assoc (plain ['-', '>'])]
      exact weaves_two hfillu hfillv

theorem sound_boundedOperators : Step.Sound Construct.boundedOperators := by
  intro treat Arg _ hArg rounds w G hready
  have hready' : G.Ready ([] ++ w) := hready
  exact Call.runs_collect hArg recognises_head.proper seamed_head.cuts (builds_latex Arg) rounds
    hready'

end Bound

end MathNotes
