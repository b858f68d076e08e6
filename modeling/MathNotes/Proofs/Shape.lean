import MathNotes.Construct.Extraction
import MathNotes.Proofs.Recast
import Mathlib.Logic.Relation

/-!
# The shapes of constructs

What extraction can do to a line, said once.  A construct is written with fixed texts around its
parts, and its LaTeX has fixed texts around the same parts in the same order: that is its `Shape`.
`Listed` is the catalogue of all shapes, and `Weaves` reads a construct and writes its LaTeX slot by
slot.  A line advances by putting one construct aside, or by escaping a lone brace (`Advances`), and
a run is a sequence of such steps (`Run`).

The treatment of arguments is a relation that all this is about; `Treated` is the one that the
nesting of constructs gives, level by level.
-/

namespace MathNotes

/-- How an argument becomes LaTeX, as a relation: prose or not, the argument, the fragments before,
the LaTeX and the fragments after. -/
abbrev Treating := Bool → Marked → Table → Marked → Table → Prop

/-- What becomes of a part of a construct. -/
inductive Slot where
  /-- It is treated as an argument. -/
  | argument (prose : Bool)
  /-- It is treated as an argument once its set words are replaced. -/
  | member
  /-- It is a bound, which is only normalised. -/
  | bound
  /-- It is taken as it is. -/
  | verbatim

/-- A part of a construct in the source, and in the LaTeX. -/
def Slot.Fills (Arg : Treating) : Slot → Marked → Table → Marked → Table → Prop
  | .argument prose, a, G, t, G' => Arg prose a G t G'
  | .member, a, G, t, G' =>
    ∃ b : Marked, b.text = Symbol.substituteSetWords a.text ∧ a.Recasts b ∧ b.weight ≤ a.weight ∧
      Arg true b G t G'
  | .bound, a, G, t, G' => G' = G ∧ t.text = Bound.normalize a.text ∧ a.Recasts t
  | .verbatim, a, G, t, G' => G' = G ∧ t = a

/-- The fixed texts of a construct, in the source and in the LaTeX: what it starts with, and what
follows each of its parts. -/
structure Shape where
  lead : Text × Text
  slots : List (Slot × Text × Text)

/-- The parts of a construct with the texts behind them, from the source to the LaTeX. -/
inductive WeavesSlots (Arg : Treating) :
    List (Slot × Text × Text) → Marked → Table → Marked → Table → Prop
  | nil {G : Table} : WeavesSlots Arg [] [] G [] G
  | cons {slot : Slot} {l l' : Text} {slots : List (Slot × Text × Text)} {a s t x : Marked}
      {G G₁ G₂ : Table} (fills : slot.Fills Arg a G t G₁) (more : WeavesSlots Arg slots s G₁ x G₂) :
      WeavesSlots Arg ((slot, l, l') :: slots) (a ++ (Marked.plain l ++ s)) G
        (t ++ (Marked.plain l' ++ x)) G₂

/-- A construct of a shape, from the source to the LaTeX. -/
inductive Shape.Weaves (Arg : Treating) (shape : Shape) : Marked → Table → Marked → Table → Prop
  | mk {s x : Marked} {G G' : Table} (slots : WeavesSlots Arg shape.slots s G x G') :
      shape.Weaves Arg (Marked.plain shape.lead.1 ++ s) G (Marked.plain shape.lead.2 ++ x) G'

/-- **The catalogue of constructs.** A construct may depend on the character in front of it. -/
inductive Listed : Option Char → Shape → Prop
  | compoundFactorial {previous : Option Char} {blanks : Text} (hb : blanks.Blank) :
      Listed previous
        ⟨("factorial" ++ blanks ++ ['('], ['(']), [(.argument true, [')'], ")!".toList)]⟩
  | factorial {previous : Option Char} {blanks : Text} (hb : blanks.Blank)
      (hprev : ∀ c ∈ previous, isNameChar c = false) :
      Listed previous ⟨("factorial" ++ blanks ++ ['('], []), [(.argument true, [')'], ['!'])]⟩
  | command {previous : Option Char} {name blanks : Text} (hb : blanks.Blank)
      (hname : name ∈ ["sqrt".toList, "vec".toList]) :
      Listed previous ⟨(name ++ blanks ++ ['('], '\\' :: name ++ ['{']),
        [(.argument true, [')'], ['}'])]⟩
  | rounded {previous : Option Char} {name blanks : Text} (hb : blanks.Blank)
      (hname : name ∈ ["floor".toList, "ceil".toList]) :
      Listed previous ⟨(name ++ blanks ++ ['('], "\\l" ++ name ++ [' ']),
        [(.argument true, [')'], " \\r" ++ name)]⟩
  | function {previous : Option Char} {name blanks : Text} (hb : blanks.Blank)
      (hname : name ∈ Symbol.functionNames) :
      Listed previous ⟨(name ++ blanks ++ ['('], '\\' :: name ++ ['(']),
        [(.argument true, [')'], [')'])]⟩
  | binomial {previous : Option Char} {blanks : Text} (hb : blanks.Blank) :
      Listed previous ⟨("choose" ++ blanks ++ ['('], "\\binom\x7b".toList),
        [(.argument true, [','], "\x7d\x7b".toList), (.argument true, [')'], ['}'])]⟩
  | unbounded {previous : Option Char} {name command blanks mark blanks' inner : Text}
      (hop : (name, command) ∈ Bound.operators) (hb : blanks.Blank) (hb' : blanks'.Blank)
      (hmark : mark = [] ∨ mark = ['_']) (hinner : inner.Blank) :
      Listed previous
        ⟨(name ++ (blanks ++ (mark ++ (blanks' ++ ('(' :: (inner ++ [')']))))), command), []⟩
  | lowerBound {previous : Option Char} {name command blanks mark blanks' : Text}
      (hop : (name, command) ∈ Bound.operators) (hb : blanks.Blank) (hb' : blanks'.Blank)
      (hmark : mark = [] ∨ mark = ['_']) :
      Listed previous
        ⟨(name ++ (blanks ++ (mark ++ (blanks' ++ ['(']))), command ++ ['_', '{']),
          [(.bound, [')'], ['}'])]⟩
  | bothBounds {previous : Option Char} {name command blanks mark blanks' between : Text}
      (hop : (name, command) ∈ Bound.operators) (hb : blanks.Blank) (hb' : blanks'.Blank)
      (hmark : mark = [] ∨ mark = ['_'])
      (hbetween : between = " \\to ".toList ∨ between = "\x7d^\x7b".toList) :
      Listed previous
        ⟨(name ++ (blanks ++ (mark ++ (blanks' ++ ['(']))), command ++ ['_', '{']),
          [(.bound, ['-', '>'], between), (.bound, [')'], ['}'])]⟩
  | vector {previous : Option Char} (n : Nat) :
      Listed previous ⟨(['<'], "\\langle ".toList),
        List.replicate n (.argument true, [','], ",\\; ".toList) ++
          [(.argument true, ['>'], " \\rangle".toList)]⟩
  | set {previous : Option Char} :
      Listed previous ⟨(['{'], ['\\', '{']), [(.member, ['}'], ['\\', '}'])]⟩
  | conditionalSet {previous : Option Char} {separator : Char}
      (hs : separator = ':' ∨ separator = '|') :
      Listed previous ⟨(['{'], ['\\', '{']),
        [(.member, [separator], " \\mid ".toList), (.member, ['}'], ['\\', '}'])]⟩
  | absolute {previous : Option Char} :
      Listed previous ⟨(['|'], "\\left|".toList), [(.argument true, ['|'], "\\right|".toList)]⟩
  | fraction {previous : Option Char} {o c o' c' blanks blanks' : Text}
      (hleft : (o, c) = ([], []) ∨ (o, c) = (['('], [')']))
      (hright : (o', c') = ([], []) ∨ (o', c') = (['('], [')']))
      (hb : blanks.Blank) (hb' : blanks'.Blank) :
      Listed previous ⟨(o, "\\frac\x7b".toList),
        [(.argument true, c ++ blanks ++ '/' :: blanks' ++ o', "\x7d\x7b".toList),
          (.argument true, c', ['}'])]⟩
  | script {previous : Option Char} {mark : Char} (hmark : mark = '_' ∨ mark = '^') :
      Listed previous ⟨([], []),
        [(.verbatim, [mark, '('], [mark, '{']), (.argument false, [')'], ['}'])]⟩
  | bareScript {previous : Option Char} {mark : Char} (hmark : mark = '_' ∨ mark = '^') :
      Listed previous ⟨([], []), [(.verbatim, [mark], [mark, '{']), (.verbatim, [], ['}'])]⟩
  | power {previous : Option Char} {newline : Text} (hn : newline = [] ∨ newline = ['\n']) :
      Listed previous ⟨([], ['{']),
        [(.verbatim, newline ++ ['^', '('], "\x7d^\x7b".toList), (.argument false, [')'], ['}'])]⟩
  | barePower {previous : Option Char} {o c : Text}
      (hgroup : (o, c) = ([], []) ∨ (o, c) = (['{'], ['}'])) :
      Listed previous ⟨([], ['{']),
        [(.verbatim, '^' :: o, "\x7d^\x7b".toList), (.verbatim, c, ['}'])]⟩

/-- One thing that extraction does to a line: a construct is put aside and its marker takes its
place, or a brace that opens nothing is escaped. -/
inductive Advances (Arg : Treating) : Marked × Table → Marked × Table → Prop
  | store {before source after latex : Marked} {G G' : Table} {shape : Shape}
      (listed : Listed before.text.getLast? shape) (weaves : shape.Weaves Arg source G latex G') :
      Advances Arg (before ++ (source ++ after), G)
        (before ++ .hit G'.length :: after, G' ++ [latex])
  | escape {before after : Marked} {G : Table} :
      Advances Arg (before ++ .char '{' :: after, G) (before ++ .char '\\' :: .char '{' :: after, G)

/-- What extraction does to a line, step after step. -/
abbrev Run (Arg : Treating) : Marked × Table → Marked × Table → Prop :=
  Relation.ReflTransGen (Advances Arg)

/-- The treatment of arguments when constructs may nest so many levels deep in them: below the last
level an argument is kept, above it its own constructs are put aside first. -/
def Treated : Nat → Treating
  | 0, _, a, G, t, G' => a.Trims t ∧ G' = G
  | depth + 1, prose, a, G, t, G' =>
    ∃ b w : Marked, a.Trims b ∧ Run (Treated depth) (b, G) (w, G') ∧
      t.text = segmentLine prose w.text ∧ w.Recasts t

end MathNotes
