import MathNotes.Proofs.LevelLines
import MathNotes.Proofs.Lines

/-!
# Compiled lines are balanced

A line without braces and backslashes is compiled to LaTeX with balanced braces
(`Expression.compile_balanced`), however it is nested or broken off.  While constructs are put aside
the line stays without braces and backslashes, and every fragment is level: the fixed texts of a
construct open and close their own braces (`Listed.level`), and its parts are level by themselves.
Passes put level fragments in the place of markers, so it does not matter how many there are.
-/

namespace MathNotes

open Marked

/-! ## Fixed texts -/

theorem Text.foldlM_climb {texts : List Text} (h : ∀ text ∈ texts, text.Level) (depth : Nat) :
    texts.foldlM climb depth = some depth := by
  induction texts with
  | nil => rfl
  | cons text texts ih =>
    obtain ⟨htext, htexts⟩ := List.forall_mem_cons.mp h
    rw [List.foldlM_cons, htext.climb]
    exact ih htexts

/-- The fixed texts of the LaTeX, read one after the other, lead back to where they start, and no
part is treated as the member of a set. -/
structure Shape.Level (shape : Shape) : Prop where
  fixed : (shape.lead.2 :: shape.slots.map (·.2.2)).foldlM Text.climb 0 = some 0
  slots : ∀ slot ∈ shape.slots, slot.1 ≠ .member

/-- **The fixed texts of a construct close the braces that they open.** Sets are left out: they are
written with braces. -/
theorem Listed.level {previous : Option Char} {shape : Shape} (h : Listed previous shape)
    (hlead : shape.lead.1.Bare) : shape.Level := by
  cases h with
  | compoundFactorial hb => exact ⟨rfl, by simp⟩
  | factorial hb hprev => exact ⟨rfl, by simp⟩
  | command hb hname =>
    have key : ∀ name ∈ ["sqrt".toList, "vec".toList],
        ['\\' :: name ++ ['{'], ['}']].foldlM Text.climb 0 = some 0 := by decide
    exact ⟨key _ hname, by simp⟩
  | rounded hb hname =>
    have key : ∀ name ∈ ["floor".toList, "ceil".toList],
        ["\\l".toList ++ name ++ [' '], " \\r".toList ++ name].foldlM Text.climb 0 = some 0 := by
      decide
    exact ⟨key _ hname, by simp⟩
  | function hb hname =>
    have key : ∀ name ∈ Symbol.functionNames,
        ['\\' :: name ++ ['('], [')']].foldlM Text.climb 0 = some 0 := by decide
    exact ⟨key _ hname, by simp⟩
  | binomial hb => exact ⟨rfl, by simp⟩
  | unbounded hop hb hb' hmark hinner =>
    have key : ∀ o ∈ Bound.operators, [o.2].foldlM Text.climb 0 = some 0 := by decide
    have hcommand := key _ hop
    exact ⟨hcommand, by simp⟩
  | lowerBound hop hb hb' hmark =>
    have key : ∀ o ∈ Bound.operators,
        [o.2 ++ ['_', '{'], ['}']].foldlM Text.climb 0 = some 0 := by decide
    exact ⟨key _ hop, by simp⟩
  | bothBounds hop hb hb' hmark hbetween =>
    have key : ∀ o ∈ Bound.operators, ∀ between ∈ [" \\to ".toList, "\x7d^\x7b".toList],
        [o.2 ++ ['_', '{'], between, ['}']].foldlM Text.climb 0 = some 0 := by decide
    exact ⟨key _ hop _ (by simpa using hbetween), by simp⟩
  | vector n =>
    refine ⟨Text.foldlM_climb ?_ 0, ?_⟩
    · intro text htext
      simp only [List.map_append, List.map_replicate, List.mem_cons, List.mem_append,
        List.mem_replicate, List.map_cons, List.map_nil, List.not_mem_nil, or_false] at htext
      rcases htext with rfl | ⟨-, rfl⟩ | rfl <;> decide
    · intro slot hslot
      simp only [List.mem_append, List.mem_replicate, List.mem_singleton] at hslot
      rcases hslot with ⟨-, rfl⟩ | rfl <;> simp
  | set => exact absurd rfl (hlead '{' List.mem_cons_self).1
  | conditionalSet hs => exact absurd rfl (hlead '{' List.mem_cons_self).1
  | absolute => exact ⟨rfl, by simp⟩
  | fraction hleft hright hb hb' => exact ⟨rfl, by simp⟩
  | script hmark => exact ⟨by rcases hmark with rfl | rfl <;> rfl, by simp⟩
  | bareScript hmark => exact ⟨by rcases hmark with rfl | rfl <;> rfl, by simp⟩
  | power hn => exact ⟨rfl, by simp⟩
  | barePower hgroup => exact ⟨rfl, by simp⟩

/-! ## Runs -/

/-- All fragments are level. -/
def Table.Level (G : Table) : Prop := ∀ fragment ∈ G, fragment.text.Level

/-- Arguments without braces and backslashes become level, and the fragments stay so. -/
def Treating.Levels (Arg : Treating) : Prop :=
  ∀ ⦃prose a G t G'⦄, Arg prose a G t G' → a.text.Bare → G.Level → t.text.Level ∧ G'.Level

section Levels

variable {Arg : Treating} (hArg : Arg.Levels)
include hArg

theorem Slot.Fills.level {slot : Slot} (hslot : slot ≠ .member) {a t : Marked} {G G' : Table}
    (h : slot.Fills Arg a G t G') (ha : a.text.Bare) (hG : G.Level) :
    t.text.Level ∧ G'.Level := by
  cases slot with
  | argument prose => exact hArg h ha hG
  | member => exact absurd rfl hslot
  | bound =>
    obtain ⟨rfl, ht, -⟩ := h
    rw [ht]
    exact ⟨Bound.level_normalize ha, hG⟩
  | verbatim =>
    obtain ⟨rfl, rfl⟩ := h
    exact ⟨ha.level, hG⟩

/-- The parts of a construct are level, so its LaTeX is read like its fixed texts. -/
theorem WeavesSlots.climb {slots : List (Slot × Text × Text)} {s x : Marked} {G G' : Table}
    (h : WeavesSlots Arg slots s G x G') (hslots : ∀ slot ∈ slots, slot.1 ≠ .member)
    (hs : s.text.Bare) (hG : G.Level) {depth top : Nat}
    (hfixed : (slots.map (·.2.2)).foldlM Text.climb depth = some top) :
    x.text.climb depth = some top ∧ G'.Level := by
  induction h generalizing depth with
  | nil => exact ⟨hfixed, hG⟩
  | @cons slot l l' slots a s t x G G₁ G₂ fills more ih =>
    rw [text_append, text_append, text_plain] at hs
    obtain ⟨ha, hs⟩ := Text.bare_append.mp hs
    obtain ⟨hslot, hslots⟩ := List.forall_mem_cons.mp hslots
    obtain ⟨ht, hG₁⟩ := Slot.Fills.level hArg hslot fills ha hG
    rw [List.map_cons, List.foldlM_cons, Option.bind_eq_bind, Option.bind_eq_some_iff] at hfixed
    obtain ⟨between, hl', hfixed⟩ := hfixed
    obtain ⟨hx, hG₂⟩ := ih hslots (Text.bare_append.mp hs).2 hG₁ hfixed
    refine ⟨?_, hG₂⟩
    rw [text_append, text_append, text_plain, Text.climb_append (ht.climb depth),
      Text.climb_append hl', hx]

theorem Shape.Weaves.level {previous : Option Char} {shape : Shape}
    (hlisted : Listed previous shape) {source latex : Marked} {G G' : Table}
    (h : shape.Weaves Arg source G latex G') (hsource : source.text.Bare) (hG : G.Level) :
    latex.text.Level ∧ G'.Level := by
  cases h with
  | mk slots =>
    rw [text_append, text_plain] at hsource ⊢
    obtain ⟨hlead, hs⟩ := Text.bare_append.mp hsource
    obtain ⟨hfixed, hslots⟩ := hlisted.level hlead
    rw [List.foldlM_cons, Option.bind_eq_bind, Option.bind_eq_some_iff] at hfixed
    obtain ⟨depth, hlatex, hfixed⟩ := hfixed
    obtain ⟨hx, hG'⟩ := WeavesSlots.climb hArg slots hslots hs hG hfixed
    exact ⟨(Text.climb_append hlatex _).trans hx, hG'⟩

/-- One step keeps the line without braces and backslashes, and the fragments level. -/
theorem Advances.level {state state' : Marked × Table} (h : Advances Arg state state')
    (hline : state.1.text.Bare) (hG : state.2.Level) :
    state'.1.text.Bare ∧ state'.2.Level := by
  cases h with
  | store listed weaves =>
    simp only [text_append, text_hit, Text.bare_append] at hline ⊢
    obtain ⟨hbefore, hsource, hafter⟩ := hline
    obtain ⟨hlatex, hG'⟩ := Shape.Weaves.level hArg listed weaves hsource hG
    refine ⟨⟨hbefore, bare_marker _, hafter⟩, fun fragment hmem => ?_⟩
    rcases List.mem_append.mp hmem with hmem | hmem
    · exact hG' fragment hmem
    · rw [List.mem_singleton.mp hmem]
      exact hlatex
  | escape =>
    -- There is no brace to escape.
    simp only [text_append, text_char, Text.bare_append, Text.bare_cons] at hline
    exact absurd rfl hline.2.1.1

theorem Run.level {state state' : Marked × Table} (h : Run Arg state state')
    (hline : state.1.text.Bare) (hG : state.2.Level) :
    state'.1.text.Bare ∧ state'.2.Level := by
  induction h with
  | refl => exact ⟨hline, hG⟩
  | tail _ hstep ih => exact Advances.level hArg hstep ih.1 ih.2

end Levels

/-- **Arguments become level at every depth of nesting.** -/
theorem levels_treated (depth : Nat) : (Treated depth).Levels := by
  induction depth with
  | zero =>
    rintro prose a G t G' ⟨htrims, rfl⟩ ha hG
    rw [htrims.1]
    exact ⟨ha.trim.level, hG⟩
  | succ depth ih =>
    rintro prose a G t G' ⟨b, w, htrims, hrun, ht, -⟩ ha hG
    have hb : b.text.Bare := by
      rw [htrims.1]
      exact ha.trim
    obtain ⟨hw, hG'⟩ := Run.level ih hrun hb hG
    rw [ht]
    exact ⟨level_segmentLine prose hw, hG'⟩

namespace Table

variable {G : Table} {w : Marked}

theorem level_pass (hG : G.Level) (hw : w.text.Level) : (G.pass w).text.Level := by
  have hfill : (G.pass w).text = w.fill fun n => (G.getD n []).text := by
    rw [text_pass, ← List.flatMap_def]
    exact List.flatMap_congr fun x _ => by cases x <;> rfl
  rw [hfill]
  refine level_fill (fun n => ?_) hw
  by_cases hn : n < G.length
  · simpa [hn] using hG G[n] (List.getElem_mem hn)
  · simpa [hn] using Text.level_nil

theorem level_passes (hG : G.Level) (hw : w.text.Level) (count : Nat) :
    (G.pass^[count] w).text.Level := by
  induction count generalizing w with
  | zero => exact hw
  | succ count ih => exact ih (level_pass hG hw)

end Table

/-! ## Lines -/

theorem Symbol.substituteConstants_eq_self {line : Text} (h : ¬ "Math.".toList <:+: line) :
    substituteConstants line = line := by
  have hmath : ∀ p ∈ constants, "Math.".toList <+: p.1 := by decide
  have hrec : constantPattern.Recognises _ :=
    Pattern.recognises_wordPattern fun p hp => (hmath p hp).ne_nil (by decide)
  have hreading := Pattern.reading_pieces hrec.proper line
  have hreplace : substituteConstants line =
      (constantPattern.pieces line).flatMap (Piece.write id) := rfl
  rw [hreplace]
  generalize constantPattern.pieces line = pieces at hreading
  cases hreading with
  | rest _ => exact Piece.flatMap_write_chars id line
  | @hit _ before matched after _ _ hat _ =>
    -- The first hit would put the lead of a constant into the line.
    have hlead := hmath _ (hrec.spec hat).1
    have hmatched : matched <:+: before ++ (matched ++ after) := ⟨before, after, by simp⟩
    exact absurd (hlead.isInfix.trans hmatched) h

namespace Expression

/-- Before its fragments are put back, a line is level, and so are its fragments. -/
theorem level_segmented (settings : Settings) (line : Text)
    (hclear : (Symbol.substituteConstants line).Clear)
    (hbare : (Symbol.substituteConstants line).Bare) :
    (segmented settings line).1.Level ∧
      ∀ fragment ∈ (segmented settings line).2.fragments, Text.Level fragment := by
  obtain ⟨w, G, kept, hextract, hrun⟩ :=
    Construct.exists_run settings.rounds.toNat settings.depth.toNat hclear
  obtain ⟨hw, hG⟩ := Run.level (levels_treated _) hrun (by rwa [text_plain])
    (List.forall_mem_nil _)
  rw [segmented, hextract]
  refine ⟨level_segmentLine true hw, fun fragment hmem => ?_⟩
  obtain ⟨marked, hmarked, rfl⟩ := List.mem_map.mp hmem
  exact hG marked hmarked

/-- **Compiled LaTeX is brace-balanced**, for every line without braces, backslashes, markers and
constants, and whatever the limits are. A line is compiled if it is not longer than the numbers that
can be read. -/
theorem compile_balanced (settings : Settings) (line : Text)
    (hopen : '{' ∉ line) (hclose : '}' ∉ line) (hescape : '\\' ∉ line)
    (hmarker : ¬ "PH".toList <:+: line) (hconstant : ¬ "Math.".toList <:+: line) :
    (∀ latex unresolved, compile settings line = .ok (latex, unresolved) → latex.Balanced) ∧
      (line.length ≤ 10 ^ Fault.digitLimit →
        ∃ latex unresolved, compile settings line = .ok (latex, unresolved)) := by
  have hclear := Text.clear_iff_not_infix.mpr hmarker
  have hbare : line.Bare := fun c hc =>
    ⟨fun he => hopen (he ▸ hc), fun he => hclose (he ▸ hc), fun he => hescape (he ▸ hc)⟩
  have hself := Symbol.substituteConstants_eq_self hconstant
  obtain ⟨hline, hfragments⟩ := level_segmented settings line (by rwa [hself]) (by rwa [hself])
  obtain ⟨w, G, kept, hsegmented, hleaves⟩ := exists_segmented settings hclear
  have hready := hleaves.ready ((Symbol.substituteConstants_spec line).2.1 hclear)
  rw [hsegmented] at hline hfragments
  have hG : G.Level := fun fragment hmem => hfragments _ (List.mem_map_of_mem hmem)
  rw [compile_eq, hsegmented]
  constructor
  · intro latex unresolved hcompile
    cases hresolve : G.texts.resolve settings.passes w.text with
    | error fault =>
      rw [hresolve] at hcompile
      cases hcompile
    | ok resolution =>
      rw [hresolve] at hcompile
      cases hcompile
      -- However many passes there were, and even if markers are left.
      rw [Table.resolveFrom_eq hleaves.backward hready hresolve]
      exact (Symbol.level_symbolPass (Table.level_passes hG hline _)).balanced
  · intro hsize
    obtain ⟨resolution, hresolve⟩ := Table.exists_resolveFrom hleaves.backward hready
      ((length_le_of_leaves hleaves).trans hsize) 0 settings.passes.toNat
    exact ⟨_, _, congrArg (Except.map _) hresolve⟩

theorem compile_balanced_broken_off :
    let line := "sum(i_(1)->n) |x|^2 of (a & b".toList
    let latex := ("\\sum_\x7bi_\x7b1\x7d\x7d^\x7bn\x7d \x7b\\left|x\\right|\x7d^\x7b2\x7d".toList ++
      "\\ \\text\x7bof\x7d\\ (a \\& b".toList)
    ('{' ∉ line ∧ '}' ∉ line ∧ '\\' ∉ line ∧ ¬ "PH".toList <:+: line ∧
      ¬ "Math.".toList <:+: line) ∧
    compile {} line = .ok (latex, false) ∧ Text.Balanced latex ∧
      Text.braces latex = "\x7b\x7b\x7d\x7d\x7b\x7d\x7b\x7d\x7b\x7d\x7b\x7d".toList := by
  intro line latex
  have hcompile : compile {} line = .ok (latex, false) := by decide +kernel
  have hbalanced := (compile_balanced {} line (by decide) (by decide) (by decide) (by decide)
    (by decide)).1 latex false hcompile
  exact ⟨by decide, hcompile, hbalanced, by decide⟩

end Expression

end MathNotes
