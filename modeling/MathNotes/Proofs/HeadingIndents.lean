import MathNotes.Page.Tex
import MathNotes.Proofs.LineKinds

/-!
# Headings behind any indentation

A document is indented by any text, but a page looks for headings behind steps of `\quad ` only.
So a heading is found exactly behind an indentation that is made of such steps, or that already
starts like a heading (`LineKind.HeaderIndent`).  Behind every other one the page takes the heading
for a formula: it counts among the numbered lines and becomes an equation of the LaTeX document
(`Scopes.heading_shown`).
-/

namespace MathNotes

/-! ## Copies of a step -/

namespace Text

variable {step unit : Text}

theorem copies_add (m n : Nat) (unit : Text) :
    copies (m + n) unit = copies m unit ++ copies n unit := by
  rw [copies, List.replicate_add, List.flatten_append]
  rfl

theorem copies_copies (m n : Nat) (unit : Text) :
    copies m (copies n unit) = copies (m * n) unit := by
  induction m with
  | zero => rw [Nat.zero_mul]; rfl
  | succ m ih => rw [copies_succ, ih, Nat.succ_mul, Nat.add_comm, copies_add]

theorem length_copies (count : Nat) (unit : Text) :
    (copies count unit).length = count * unit.length := by
  simp [copies]

theorem count_copies (c : Char) (count : Nat) (unit : Text) :
    (copies count unit).count c = count * unit.count c := by
  simp [copies, List.count_flatten]

/-- A text that is repeated is itself made of steps, if the whole is, and if some character tells
how many steps there are. -/
theorem eq_copies_of_copies_succ {n k : Nat} {c : Char} (hc : step.count c = 1)
    (h : copies (n + 1) unit = copies k step) : unit = copies (unit.count c) step := by
  have hcount : (n + 1) * unit.count c = k := by
    have := congrArg (List.count c) h
    rwa [count_copies, count_copies, hc, Nat.mul_one] at this
  have hlength : unit.length = (copies (unit.count c) step).length := by
    have := congrArg List.length h
    rw [length_copies, length_copies, ← hcount, Nat.mul_assoc] at this
    rw [length_copies]
    exact Nat.eq_of_mul_eq_mul_left n.succ_pos this
  rw [copies_succ, ← hcount, Nat.succ_mul, Nat.add_comm, copies_add] at h
  exact List.append_inj_left h hlength

theorem exists_copies_iff {count : Nat} {c : Char} (hc : step.count c = 1) :
    (∃ k, copies count unit = copies k step) ↔ count = 0 ∨ ∃ k, unit = copies k step := by
  constructor
  · rintro ⟨k, h⟩
    cases count with
    | zero => exact .inl rfl
    | succ n => exact .inr ⟨_, eq_copies_of_copies_succ hc h⟩
  · rintro (rfl | ⟨k, rfl⟩)
    · exact ⟨0, rfl⟩
    · exact ⟨count * k, copies_copies count k step⟩

end Text

/-! ## Indentation in front of headings -/

namespace LineKind

/-- An indentation that is made of the steps that a page knows. -/
def Stepwise (indent : Text) : Prop := ∃ count, indent = Text.copies count "\\quad "

/-- An indentation behind which a heading is found.  The brace of the heading may be the last one
of a start of a heading that the indentation has. -/
def HeaderIndent (indent : Text) : Prop :=
  Stepwise indent ∨
    ∃ count, ∃ lead ∈ headerLeads, Text.copies count "\\quad " ++ lead <+: indent ++ ['{']

/-- The start of a heading has a brace at both ends, and no other. -/
theorem headerLeads_braces : ∀ lead ∈ headerLeads,
    lead = '{' :: (lead.tail.dropLast ++ ['{']) ∧ '{' ∉ lead.tail.dropLast := by decide

theorem brace_not_mem_copies (count : Nat) : '{' ∉ Text.copies count "\\quad ".toList := by
  intro hmem
  obtain ⟨unit, hunit, hbrace⟩ := List.mem_flatten.mp hmem
  rw [List.eq_of_mem_replicate hunit] at hbrace
  exact absurd hbrace (by decide)

/-- Where the brace of a heading stands inside the start of a heading, it is the first brace. -/
theorem eq_copies_of_brace {indent lead rest : Text} {count : Nat} (hlead : lead ∈ headerLeads)
    (hrest : rest ≠ [])
    (h : indent ++ '{' :: rest = Text.copies count "\\quad " ++ lead) :
    indent = Text.copies count "\\quad " := by
  obtain ⟨hbraces, hinner⟩ := headerLeads_braces lead hlead
  generalize lead.tail.dropLast = inner at hbraces hinner
  subst hbraces
  rcases char_cases h.symm with ⟨front, hindent, hfront⟩ | ⟨front, hcopies, -⟩
  · cases front with
    | nil => simpa using hindent
    | cons c front =>
      -- The last character of `rest` is the closing one, so the brace is among the others.
      obtain ⟨rest, last, rfl⟩ := List.eq_nil_or_concat rest |>.resolve_left hrest
      have hsplit : inner ++ ['{'] = (front ++ '{' :: rest) ++ [last] := by
        simpa using (List.cons.inj hfront).2
      rw [(List.append_inj' hsplit rfl).1] at hinner
      simp at hinner
  · refine absurd ?_ (brace_not_mem_copies count)
    rw [hcopies]
    simp

/-- **Which indentation a heading is found behind.** -/
theorem startsHeader_append_iff {indent lead rest : Text} (hlead : lead ∈ headerLeads) :
    startsHeader (indent ++ (lead ++ rest)) = true ↔ HeaderIndent indent := by
  obtain ⟨hbraces, -⟩ := headerLeads_braces lead hlead
  have hbody : indent ++ (lead ++ rest) = (indent ++ ['{']) ++ (lead.tail ++ rest) := by
    rw [hbraces]
    simp
  rw [startsHeader_iff]
  constructor
  · rintro ⟨count, found, hfound, hprefix⟩
    rw [hbody] at hprefix
    rcases List.prefix_or_prefix_of_prefix hprefix (List.prefix_append _ _) with hle | ⟨more, hmore⟩
    · exact .inr ⟨count, found, hfound, hle⟩
    · by_cases hempty : more = []
      · rw [hempty, List.append_nil] at hmore
        exact .inr ⟨count, found, hfound, hmore ▸ List.prefix_rfl⟩
      · rw [List.append_assoc] at hmore
        exact .inl ⟨count, eq_copies_of_brace hfound hempty hmore⟩
  · rintro (⟨count, rfl⟩ | ⟨count, found, hfound, hprefix⟩)
    · exact ⟨count, lead, hlead, (List.prefix_append_right_inj _).mpr (List.prefix_append _ _)⟩
    · exact ⟨count, found, hfound, hbody ▸ hprefix.trans (List.prefix_append _ _)⟩

instance : DecidablePred HeaderIndent := fun indent =>
  decidable_of_iff (startsHeader (indent ++ ("\x7b\\huge \\textbf\x7b".toList ++ [])) = true)
    (startsHeader_append_iff (by decide))

theorem of_headingLatex_eq (index : Nat) (scopes : Scopes) (heading : Heading) :
    LineKind.of (Document.lineAt index (scopes.headingLatex heading)) =
      if HeaderIndent scopes.indent then header else math := by
  obtain ⟨lead, hlead, rest, hlatex⟩ := exists_lead_headingLatex scopes heading
  rw [of_headingLatex, hlatex]
  exact if_congr (startsHeader_append_iff hlead) rfl rfl

/-- The blocks of a document are indented by steps if each of them is. -/
theorem stepwise_indent_iff (scopes : Scopes) :
    Stepwise scopes.indent ↔ scopes.opened = [] ∨ Stepwise scopes.indentUnit := by
  have hcount : "\\quad ".toList.count '\\' = 1 := by decide
  rw [Stepwise, Scopes.indent, Text.exists_copies_iff hcount, Scopes.depth,
    List.length_eq_zero_iff]
  rfl

end LineKind

/-! ## Lines at their place -/

/-- How many formulas there are among lines. -/
def formulaCount (lines : List OutputLine) : Nat :=
  lines.countP fun line => LineKind.of line = .math

theorem numberFrom_append (count : Nat) (before after : List OutputLine) :
    numberFrom count (before ++ after) =
      numberFrom count before ++ numberFrom (count + formulaCount before) after := by
  induction before generalizing count with
  | nil => rfl
  | cons line before ih =>
    rw [List.cons_append, numberFrom, numberFrom, formulaCount, List.countP_cons]
    split
    · rename_i hmath
      rw [ih, List.cons_append, formulaCount, if_pos (by simpa using hmath), Nat.add_right_comm]
      rfl
    · rename_i hmath
      rw [ih, List.cons_append, formulaCount, if_neg (by simpa using hmath)]
      rfl

theorem length_numberFrom (count : Nat) (lines : List OutputLine) :
    (numberFrom count lines).length = lines.length := by
  have := congrArg List.length (numberFrom_lines count lines)
  rwa [List.length_map, List.length_map] at this

/-- A line on a page. -/
theorem getElem?_numberLines (before after : List OutputLine) (line : OutputLine) :
    (numberLines (before ++ line :: after))[before.length]? =
      some ⟨line.id, line.latex, LineKind.of line,
        if LineKind.of line = .math then some (formulaCount before + 1) else none⟩ := by
  rw [numberLines, numberFrom_append, List.getElem?_append_right (by rw [length_numberFrom]),
    length_numberFrom, Nat.sub_self, Nat.zero_add, numberFrom]
  split
  · rename_i hmath
    rw [hmath]
    rfl
  · rfl

namespace Scopes

/-- **A heading is found behind the steps of indentation that a page knows.**  It has no number and
is no equation there; behind another indentation it is the next formula of the page.  The steps are
those of the page if no block is open, or if each block is indented by some of them. -/
theorem heading_shown (scopes : Scopes) (heading : Heading) (index : Nat)
    (before after : List OutputLine) :
    let line := Document.lineAt index (scopes.headingLatex heading)
    let lines := before ++ line :: after
    LineKind.of line = (if LineKind.HeaderIndent scopes.indent then .header else .math) ∧
      (numberLines lines)[before.length]? =
        some (if LineKind.HeaderIndent scopes.indent then ⟨line.id, line.latex, .header, none⟩
          else ⟨line.id, line.latex, .math, some (formulaCount before + 1)⟩) ∧
      (Tex.blocks true lines)[before.length]? =
        some (if LineKind.HeaderIndent scopes.indent then Tex.display "\\[" line.latex "\\]"
          else Tex.display (Latex.command "begin" ["equation"]) line.latex
            (Latex.command "end" ["equation"])) ∧
      (LineKind.Stepwise scopes.indent ↔
        scopes.opened = [] ∨ LineKind.Stepwise scopes.indentUnit) := by
  intro line lines
  have hkind := LineKind.of_headingLatex_eq index scopes heading
  have hplace := getElem?_numberLines before after line
  refine ⟨hkind, ?_, ?_, LineKind.stepwise_indent_iff scopes⟩
  · rw [hplace, hkind]
    split <;> rfl
  · rw [Tex.blocks, List.getElem?_map, hplace, hkind]
    split <;> rfl

/-- A wider step is not one of the page's: the proof in a theorem is numbered. -/
theorem heading_shown_qquad :
    let scopes : Scopes := { indentUnit := "\\qquad ", opened := [⟨"Theorem", [], false⟩] }
    let line := Document.lineAt 1 (scopes.headingLatex ⟨"Proof", [], true⟩)
    ¬ LineKind.HeaderIndent scopes.indent ∧
      (numberLines [line])[0]? =
        some ⟨"line-1", "\\qquad \x7b\\Large \\textit\x7b\\text\x7bProof\x7d\x7d\x7d", .math,
          some 1⟩ := by
  intro scopes line
  have hindent : ¬ LineKind.HeaderIndent scopes.indent := by decide
  obtain ⟨-, hshown, -⟩ := heading_shown scopes ⟨"Proof", [], true⟩ 1 [] []
  rw [if_neg hindent] at hshown
  exact ⟨hindent, hshown⟩

end Scopes

end MathNotes
