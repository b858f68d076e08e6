import MathNotes.Proofs.Lines
import MathNotes.Proofs.SymbolPass

/-!
# Content is conserved

Digits, and whatever is written outside ASCII, come through a compilation as they are: they are
neither lost nor doubled nor moved.  Of the line with its constructs put aside and of its segments
this is part of what they carry along; here it is shown of the pass over the finished LaTeX, and put
together for the whole compilation (`Expression.compile_conserves_content`).
-/

namespace MathNotes

theorem Text.compositional_content : Text.Compositional fun a b => b.content = a.content where
  refl _ := rfl
  trans h h' := h'.trans h
  append h h' := by rw [content_append, content_append, h, h']

/-- **The pass over the finished LaTeX keeps its content.** -/
theorem Symbol.content_symbolPass (latex : Text) : (symbolPass latex).content = latex.content := by
  have hnames : ∀ p ∈ names, Text.content p.2 = Text.content p.1 := by decide
  have hoperators : ∀ p ∈ operators, Text.content p.2 = Text.content p.1 ∧
      Text.content (p.2 ++ [' ']) = Text.content p.1 := by decide
  exact symbolPass_related Text.compositional_content hnames hoperators latex

/-- **Content is conserved.** When a line is compiled and no marker is left, its digits and its
characters outside ASCII are those of the line, in their order. -/
theorem Expression.compile_conserves_content (settings : Settings) (line latex : Text)
    (h : ¬ "PH".toList <:+: line) (hcompile : compile settings line = .ok (latex, false)) :
    latex.content = line.content := by
  have hclear := Text.clear_iff_not_infix.mpr h
  obtain ⟨hcontent, hconstants, -⟩ := Symbol.substituteConstants_spec line
  obtain ⟨w, G, kept, hsegmented, hleaves⟩ := exists_segmented settings hclear
  have hready := hleaves.ready (hconstants hclear)
  rw [compile_eq, hsegmented] at hcompile
  cases hresolve : G.texts.resolve settings.passes w.text with
  | error fault =>
    rw [hresolve] at hcompile
    cases hcompile
  | ok resolution =>
    rw [hresolve] at hcompile
    obtain ⟨rfl, hunresolved⟩ := Prod.ext_iff.mp (Except.ok.inj hcompile)
    obtain ⟨-, hdecide, hlatex⟩ := Table.resolveFrom_spec hleaves.backward hready hresolve
    have hheight : G.texts.height w.text ≤ settings.passes.toNat :=
      Nat.le_of_not_lt (of_decide_eq_false (hdecide.symm.trans hunresolved))
    calc (Symbol.symbolPass resolution.latex).content
        = (G.expand w).content := by rw [Symbol.content_symbolPass, hlatex hheight]
      _ = (Symbol.substituteConstants line).content := by simpa using hleaves.carries.content
      _ = line.content := hcontent

theorem Expression.compile_conserves_content_power :
    (¬ "PH".toList <:+: "|x_1|^2 <= 30".toList ∧ compile {} "|x_1|^2 <= 30".toList =
      .ok ("\x7b\\left|x_\x7b1\x7d\\right|\x7d^\x7b2\x7d \\le 30".toList, false)) ∧
    Text.content "\x7b\\left|x_\x7b1\x7d\\right|\x7d^\x7b2\x7d \\le 30".toList =
      Text.content "|x_1|^2 <= 30".toList := by
  have hcompile : compile {} "|x_1|^2 <= 30".toList =
      .ok ("\x7b\\left|x_\x7b1\x7d\\right|\x7d^\x7b2\x7d \\le 30".toList, false) := by
    decide +kernel
  exact ⟨⟨by decide, hcompile⟩,
    compile_conserves_content {} "|x_1|^2 <= 30".toList
      "\x7b\\left|x_\x7b1\x7d\\right|\x7d^\x7b2\x7d \\le 30".toList (by decide) hcompile⟩

end MathNotes
