import MathNotes.Symbol.Table
import MathNotes.Proofs.Table

/-!
# Formulas of nested constructs

Formulas in which every construct may stand in every other: how they are written in notes
(`Formula.source`), and the LaTeX that each stands for (`Formula.latex`), both by recursion.

A construct around one part is a `Wrapper`, one of two parts a `Joiner`.  The leaves of a formula
are letters and numerals (`Atom`); in a line of which constructs are put aside, they are markers,
too (`Leaf`).
-/

namespace MathNotes

/-- A letter of ASCII. -/
abbrev Letter := { c : Char // c.isAlpha = true }

/-- A numeral: one or more digits of ASCII. -/
abbrev Numeral := { digits : Text // digits ≠ [] ∧ ∀ c ∈ digits, c.isDigit = true }

/-- A formula without constructs. -/
inductive Atom where
  | letter (v : Letter)
  | numeral (n : Numeral)

/-- The name that factorials are written with. -/
def factorialName : Text := "factorial"

/-- The name that binomials are written with. -/
def binomialName : Text := "choose"

/-- A construct around one part. -/
inductive Wrapper where
  | factorial
  | command (name : Text) (h : name ∈ ["sqrt".toList, "vec".toList])
  | rounding (name : Text) (h : name ∈ ["floor".toList, "ceil".toList])
  | function (name : Text) (h : name ∈ Symbol.functionNames)
  | absolute
  | subscript (base : Letter)
  | power (base : Letter)

/-- A construct of two parts. -/
inductive Joiner where
  | vector
  | binomial
  | fraction

/-- Formulas over leaves of some kind. -/
inductive Formula (α : Type) where
  | leaf (a : α)
  | wrap (wrapper : Wrapper) (part : Formula α)
  | join (joiner : Joiner) (first second : Formula α)

def Atom.text : Atom → Text
  | letter v => [v.val]
  | numeral n => n.val

/-! ## The source -/

namespace Wrapper

/-- The name that a construct starts with. -/
def word : Wrapper → Text
  | factorial => factorialName
  | command name _ | rounding name _ | function name _ => name
  | absolute => []
  | subscript base => [base.val, '_']
  | power base => [base.val]

/-- What opens the part of a construct. -/
def opening : Wrapper → Text
  | absolute => ['|']
  | power _ => ['^', '(']
  | _ => ['(']

/-- What closes the part of a construct. -/
def closing : Wrapper → Text
  | absolute => ['|']
  | _ => [')']

end Wrapper

namespace Joiner

def word : Joiner → Text
  | binomial => binomialName
  | _ => []

def opening : Joiner → Text
  | vector => ['<']
  | _ => ['(']

def middle : Joiner → Text
  | fraction => [')', '/', '(']
  | _ => [',', ' ']

def closing : Joiner → Text
  | vector => ['>']
  | _ => [')']

end Joiner

namespace Formula

variable {α : Type}

/-- A formula as it is written in notes. -/
def source (text : α → Text) : Formula α → Text
  | leaf a => text a
  | wrap wrapper part =>
    wrapper.word ++ (wrapper.opening ++ (part.source text ++ wrapper.closing))
  | join joiner first second =>
    joiner.word ++ (joiner.opening ++ (first.source text ++
      (joiner.middle ++ (second.source text ++ joiner.closing))))

end Formula

/-! ## The LaTeX -/

/-- Whether a part is compound by the way it is written: with white space or one of the signs
`+ - * / ^` in it. -/
def isCompoundSource (source : Text) : Bool :=
  source.any fun c => c.isWhitespace || ['+', '-', '*', '/', '^'].contains c

/-- What stands around the part of a construct; a factorial puts a compound part in brackets. -/
def Wrapper.frame (compound : Bool) : Wrapper → Text × Text
  | factorial => if compound then (['('], [')', '!']) else ([], ['!'])
  | command name _ => ('\\' :: name ++ ['{'], ['}'])
  | rounding name _ => ("\\l" ++ name ++ [' '], " \\r" ++ name)
  | function name _ => ('\\' :: name ++ ['('], [')'])
  | absolute => ("\\left|", "\\right|")
  | subscript base => ([base.val, '_', '{'], ['}'])
  | power base => ([base.val, '^', '{'], ['}'])

/-- What stands around and between the parts of a construct. -/
def Joiner.frame : Joiner → Text × Text × Text
  | vector => ("\\langle ", ",\\; ", " \\rangle")
  | binomial => ("\\binom\x7b", "\x7d\x7b", "\x7d")
  | fraction => ("\\frac\x7b", "\x7d\x7b", "\x7d")

theorem Joiner.frame_vector :
    vector.frame = ("\\langle ".toList, ",\\; ".toList, " \\rangle".toList) := rfl

theorem Joiner.frame_binomial :
    binomial.frame = ("\\binom\x7b".toList, "\x7d\x7b".toList, "\x7d".toList) := rfl

theorem Joiner.frame_fraction :
    fraction.frame = ("\\frac\x7b".toList, "\x7d\x7b".toList, "\x7d".toList) := rfl

namespace Formula

variable {α : Type}

/-- A formula as LaTeX, when each leaf stands for a value. -/
def latex (text value : α → Text) : Formula α → Text
  | leaf a => value a
  | wrap wrapper part =>
    let frame := wrapper.frame (isCompoundSource (part.source text))
    frame.1 ++ (part.latex text value ++ frame.2)
  | join joiner first second =>
    joiner.frame.1 ++ (first.latex text value ++
      (joiner.frame.2.1 ++ (second.latex text value ++ joiner.frame.2.2)))

/-! ## The size and the order of constructs -/

/-- How many nodes a formula has. -/
def nodes : Formula α → Nat
  | leaf _ => 1
  | wrap _ part => part.nodes + 1
  | join _ first second => first.nodes + second.nodes + 1

def isAbsolute : Formula α → Bool
  | wrap .absolute _ => true
  | _ => false

/-- No absolute value stands right inside another one. -/
def Proper : Formula α → Prop
  | leaf _ => True
  | wrap wrapper part => (wrapper = .absolute → part.isAbsolute = false) ∧ part.Proper
  | join _ first second => first.Proper ∧ second.Proper

/-- How many constructs a formula has. -/
def constructs : Formula α → Nat
  | leaf _ => 0
  | wrap _ part => part.constructs + 1
  | join _ first second => first.constructs + second.constructs + 1

theorem constructs_lt_nodes (e : Formula α) : e.constructs < e.nodes := by
  induction e with
  | leaf a => exact Nat.one_pos
  | wrap k e ih =>
    rw [constructs, nodes]
    omega
  | join k a b iha ihb =>
    rw [constructs, nodes]
    omega

end Formula

/-- Which step of the extraction puts a construct aside. -/
def Wrapper.rank : Wrapper → Nat
  | factorial => 1
  | command _ _ => 3
  | rounding _ _ => 4
  | function _ _ => 5
  | absolute => 9
  | subscript _ => 11
  | power _ => 12

def Joiner.rank : Joiner → Nat
  | vector => 6
  | binomial => 7
  | fraction => 10

/-- The steps that put constructs of formulas aside. -/
def ranks : List Nat := [1, 3, 4, 5, 6, 7, 9, 10, 11, 12]

theorem Wrapper.rank_mem (k : Wrapper) : k.rank ∈ ranks := by cases k <;> simp [rank, ranks]

theorem Joiner.rank_mem (j : Joiner) : j.rank ∈ ranks := by cases j <;> simp [rank, ranks]

namespace Formula

variable {α : Type}

/-- The step that puts the outermost construct aside, zero for a leaf. -/
def rank : Formula α → Nat
  | leaf _ => 0
  | wrap wrapper _ => wrapper.rank
  | join joiner _ _ => joiner.rank

/-- All constructs are left to steps behind the given one. -/
def Above (n : Nat) : Formula α → Prop
  | leaf _ => True
  | wrap wrapper part => n < wrapper.rank ∧ part.Above n
  | join joiner first second => n < joiner.rank ∧ first.Above n ∧ second.Above n

theorem above_zero (e : Formula α) : e.Above 0 := by
  have key : ∀ s ∈ ranks, 0 < s := by decide
  induction e with
  | leaf a => trivial
  | wrap k e ih => exact ⟨key _ k.rank_mem, ih⟩
  | join j a b iha ihb => exact ⟨key _ j.rank_mem, iha, ihb⟩

theorem Above.mono {m n : Nat} (hmn : m ≤ n) {e : Formula α} (h : e.Above n) : e.Above m := by
  induction e with
  | leaf a => trivial
  | wrap k e ih => exact ⟨hmn.trans_lt h.1, ih h.2⟩
  | join k a b iha ihb => exact ⟨hmn.trans_lt h.1, iha h.2.1, ihb h.2.2⟩

end Formula

/-! ## Leaves of lines -/

/-- A leaf of a line: an atom, or the marker of what was put aside. -/
inductive Leaf where
  | atom (a : Atom)
  | mark (n : Nat)

namespace Leaf

def text : Leaf → Text
  | atom a => a.text
  | mark n => Marker.ofNat n

/-- The leaf with its marker set apart. -/
def marked : Leaf → Marked
  | atom a => Marked.plain a.text
  | mark n => [.hit n]

@[simp] theorem text_marked (l : Leaf) : l.marked.text = l.text := by
  cases l <;> simp [marked, text]

end Leaf

namespace Formula

/-- A formula of notes, as the formula of a line. -/
def line : Formula Atom → Formula Leaf
  | leaf a => leaf (.atom a)
  | wrap k e => wrap k e.line
  | join k a b => join k a.line b.line

theorem source_line (e : Formula Atom) : e.line.source Leaf.text = e.source Atom.text := by
  induction e with
  | leaf a => rfl
  | wrap k e ih => rw [line, source, ih, source]
  | join k a b iha ihb => rw [line, source, iha, ihb, source]

theorem latex_line (e : Formula Atom) (G : Table) :
    e.line.latex Leaf.text (fun l => G.expand l.marked) = e.latex Atom.text Atom.text := by
  induction e with
  | leaf a => exact Table.expand_plain G a.text
  | wrap k e ih => rw [line, latex, source_line, ih, latex]
  | join k a b iha ihb => rw [line, latex, iha, ihb, latex]

theorem constructs_line (e : Formula Atom) : e.line.constructs = e.constructs := by
  induction e with
  | leaf a => rfl
  | wrap k e ih => rw [line, constructs, ih, constructs]
  | join k a b iha ihb => rw [line, constructs, iha, ihb, constructs]

theorem nodes_line (e : Formula Atom) : e.line.nodes = e.nodes := by
  induction e with
  | leaf a => rfl
  | wrap k e ih => rw [line, nodes, ih, nodes]
  | join k a b iha ihb => rw [line, nodes, iha, ihb, nodes]

theorem isAbsolute_line (e : Formula Atom) : e.line.isAbsolute = e.isAbsolute := by
  cases e with
  | leaf a => rfl
  | wrap k e => cases k <;> rfl
  | join k a b => rfl

theorem Proper.line {e : Formula Atom} (h : e.Proper) : e.line.Proper := by
  induction e with
  | leaf a => trivial
  | wrap k e ih => exact ⟨fun hk => (isAbsolute_line e).trans (h.1 hk), ih h.2⟩
  | join k a b iha ihb => exact ⟨iha h.1, ihb h.2⟩

end Formula

end MathNotes
