import MathNotes.Proofs.Hygiene
import MathNotes.Proofs.Idempotence
import MathNotes.Proofs.RewriteSteps

/-!
# When the passes are enough

Extraction and resolution have limits of their own, and no limit of extraction keeps fragments from
nesting deeper than the passes reach: an argument may be as deep as `Settings.depth`, and a chain
nests once in each round of one step.  So what matters is how deep the fragments of a line do nest
(`Expression.nesting`).  Passes are enough exactly for lines that nest no deeper than there are
passes, and exactly for these no marker is left in the LaTeX (`Expression.compile_nesting`).  A line
nests no deeper than it has characters that open a construct (`Expression.nesting_le`).

The names and operators that are replaced last neither make a marker nor break one
(`Symbol.clear_symbolPass`, `Symbol.marker_symbolPass`).
-/

namespace MathNotes

open Marked

/-! ## Texts without markers -/

/-- What may be written in place of a text without bringing a `P` next to an `H`. -/
structure Text.KeepsClear (a b : Text) : Prop where
  clear : a.Clear → b.Clear
  head : b.head? = some 'H' → a.head? = some 'H'
  last : b.getLast? = some 'P' → a.getLast? = some 'P'
  nil : b = [] → a = []

theorem Text.compositional_keepsClear : Compositional KeepsClear where
  refl _ := ⟨id, id, id, id⟩
  trans h h' := ⟨h'.clear ∘ h.clear, h.head ∘ h'.head, h.last ∘ h'.last, h.nil ∘ h'.nil⟩
  append {a b a' b'} h h' := by
    refine ⟨fun hclear => ?_, fun hhead => ?_, fun hlast => ?_, fun hnil => ?_⟩
    · obtain ⟨ha, ha', hapart⟩ := clear_append.mp hclear
      exact clear_append.mpr ⟨h.clear ha, h'.clear ha', fun hends =>
        hapart ⟨h.last hends.1, h'.head hends.2⟩⟩
    · rw [List.head?_append, Option.or_eq_some_iff] at hhead ⊢
      refine hhead.imp h.head fun ⟨hnone, hhead⟩ => ⟨?_, h'.head hhead⟩
      rw [h.nil (List.head?_eq_none_iff.mp hnone), List.head?_nil]
    · rw [List.getLast?_append, Option.or_eq_some_iff] at hlast ⊢
      refine hlast.imp h'.last fun ⟨hnone, hlast⟩ => ⟨?_, h.last hlast⟩
      rw [h'.nil (List.getLast?_eq_none_iff.mp hnone), List.getLast?_nil]
    · obtain ⟨hb, hb'⟩ := List.append_eq_nil_iff.mp hnil
      rw [h.nil hb, h'.nil hb', List.append_nil]

namespace Symbol

variable {latex : Text}

/-- No command starts with an `H`, ends in a `P` or has one before the other. -/
theorem commands_clear : ∀ p ∈ names ++ operators, ∀ command ∈ [p.2, p.2 ++ [' ']],
    ¬ "PH".toList <:+: command ∧ command.head? ≠ some 'H' ∧ command.getLast? ≠ some 'P' ∧
      command ≠ [] := by
  decide +kernel

theorem keepsClear_command {p : Text × Text} (hp : p ∈ names ++ operators) {command : Text}
    (hcommand : command ∈ [p.2, p.2 ++ [' ']]) : p.1.KeepsClear command := by
  obtain ⟨hclear, hhead, hlast, hne⟩ := commands_clear p hp command hcommand
  exact ⟨fun _ => Text.clear_iff_not_infix.mpr hclear, fun h => absurd h hhead,
    fun h => absurd h hlast, fun h => absurd h hne⟩

/-- **The pass makes no marker.** -/
theorem clear_symbolPass (h : latex.Clear) : (symbolPass latex).Clear := by
  have hkeeps : latex.KeepsClear (symbolPass latex) := by
    refine symbolPass_related Text.compositional_keepsClear (fun p hp => ?_) (fun p hp => ?_) latex
    · exact keepsClear_command (List.mem_append_left _ hp) List.mem_cons_self
    · have hmem := List.mem_append_right names hp
      exact ⟨keepsClear_command hmem List.mem_cons_self, keepsClear_command hmem (by simp)⟩
  exact hkeeps.clear h

end Symbol

/-! ## Texts with markers -/

namespace Pattern

variable {α : Type} {pattern : Pattern α} {f : α → Text} {previous : Option Char}
  {m b text out : Text}

/-- A text that is passed over is kept. -/
theorem Replaces.of_misses (h : pattern.Replaces f previous (m ++ b) out)
    (hmisses : pattern.Misses previous m b) : m <+: out := by
  induction m generalizing previous out with
  | nil => exact ⟨out, rfl⟩
  | cons c m ih =>
    generalize htext : c :: m ++ b = text at h
    cases h with
    | nil => cases htext
    | keep _ more =>
      obtain ⟨rfl, rfl⟩ := List.cons.inj htext
      exact List.cons_prefix_cons.mpr ⟨rfl, ih more hmisses.2⟩
    | hit hit _ =>
      have hnone := hmisses.1
      rw [← List.cons_append, htext, hit.1] at hnone
      cases hnone

/-- A text that is passed over wherever it stands, and of which no hit has the first character, is
kept. -/
theorem Replaces.kept {c : Char} (h : pattern.Replaces f previous text out)
    (hmisses : ∀ previous b, pattern.Misses previous (c :: m) b)
    (hhits : ∀ ⦃previous matched value after⦄, pattern.HitsAt previous matched value after →
      c ∉ matched) (hm : c :: m <:+: text) : c :: m <:+: out := by
  induction h with
  | nil => exact hm
  | @keep previous d text out miss more ih =>
    rcases List.infix_cons_iff.mp hm with ⟨b, hb⟩ | hm
    · have hkept : pattern.Replaces f previous (c :: m ++ b) (d :: out) := by
        rw [hb]
        exact .keep miss more
      exact (hkept.of_misses (hmisses previous b)).isInfix
    · exact (ih hm).trans (List.suffix_cons d out).isInfix
  | @hit previous matched after out value hit more ih =>
    have hafter : c :: m <:+: after := by
      rcases List.infix_append_iff.mp hm with hm | hm | ⟨t, t', ht, hsuffix, hahead⟩
      · exact absurd (hm.subset List.mem_cons_self) (hhits hit)
      · exact hm
      · cases t with
        | nil =>
          rw [List.nil_append] at ht
          exact ht ▸ hahead.isInfix
        | cons d t =>
          obtain ⟨rfl, -⟩ := List.cons.inj ht
          exact absurd (hsuffix.subset List.mem_cons_self) (hhits hit)
    exact (ih hafter).trans (List.suffix_append _ _).isInfix

end Pattern

/-- What stands in a text of two parts stands in one of them, if the parts meet at a character that
it does not have. -/
theorem Text.within_append {m p q : Text} (h : m <:+: p ++ q)
    (hseam : (∀ c ∈ q.head?, c ∉ m) ∨ ∀ c ∈ p.getLast?, c ∉ m) : m <:+: p ∨ m <:+: q := by
  rcases List.infix_append_iff.mp h with h | h | ⟨t, t', rfl, hp, hq⟩
  · exact .inl h
  · exact .inr h
  · rcases hseam with hseam | hseam
    · cases t' with
      | nil =>
        rw [List.append_nil]
        exact .inl hp.isInfix
      | cons d t' =>
        obtain ⟨rest, rfl⟩ := hq
        exact absurd (by simp) (hseam d rfl)
    · rcases List.eq_nil_or_concat t with rfl | ⟨t, d, rfl⟩
      · exact .inr hq.isInfix
      · obtain ⟨front, rfl⟩ := hp
        exact absurd (by simp) (hseam d (by simp))

namespace Symbol

variable {latex : Text}

theorem marker_substituteNames {n : Nat} (h : Marker.ofNat n <:+: latex) :
    Marker.ofNat n <:+: substituteNames latex := by
  have hwords : namePattern.Recognises _ := Pattern.recognises_wordPattern names_ne_nil
  have key : ∀ p ∈ names ++ operators, '_' ∉ p.1 := by decide
  have hnames := Pattern.replaces_replace hwords.proper id latex
  have hoperators := Pattern.replaces_replace recognises_operatorPattern.proper id
    (namePattern.replace id latex)
  have hmissed (previous : Option Char) (rest : Text) :
      namePattern.Misses previous (Marker.ofNat n) rest := (settled_marker previous n rest).names
  have hmissed' (previous : Option Char) (rest : Text) :
      operatorPattern.Misses previous (Marker.ofNat n) rest :=
    misses_operators_marker previous n rest
  rw [Marker.ofNat_eq] at h hmissed hmissed' ⊢
  refine hoperators.kept hmissed' (fun previous matched value after hat => ?_)
    (hnames.kept hmissed (fun previous matched value after hat => ?_) h)
  · obtain ⟨command, hmem, -⟩ := recognises_operatorPattern.spec hat
    exact key _ (List.mem_append_right _ hmem)
  · exact key _ (List.mem_append_left _ (hwords.spec hat).1)

/-- **The pass breaks no marker.** -/
theorem marker_symbolPass {n : Nat} (h : Marker.ofNat n <:+: latex) :
    Marker.ofNat n <:+: symbolPass latex := by
  induction hlength : latex.length using Nat.strongRecOn generalizing latex with
  | ind length ih =>
    cases hfind : prosePattern.find? none latex with
    | none =>
      rw [symbolPass_of_misses (Pattern.misses_of_find?_none hfind)]
      exact marker_substituteNames h
    | some cut =>
      have hp := recognises_prosePattern.proper
      obtain ⟨hlatex, hat⟩ := Pattern.find?_spec hp hfind
      obtain ⟨-, content, hspan⟩ := recognises_prosePattern.spec hat
      have hforeign : ∀ c ∈ ['\\', '}'], c ∉ Marker.ofNat n := fun c hc hmem => by
        have key : ∀ c ∈ ['\\', '}'], isNameChar c = false := by decide
        have hname := Marker.nameChar_of_mem_ofNat hmem
        rw [key c hc] at hname
        cases hname
      have hshorter : cut.after.length < length := by
        have hpos := List.length_pos_iff.mpr hat.2
        rw [← hlength, hlatex]
        simp only [List.length_append]
        omega
      rw [hlatex] at h
      rw [hlatex, symbolPass_behind (Pattern.misses_before hp hfind) hat]
      -- A span of prose starts with a backslash and ends with a brace.
      have hopens : ∀ c ∈ (cut.matched ++ cut.after).head?, c ∉ Marker.ofNat n := by
        rw [hspan]
        rintro c hc
        obtain rfl := Option.some.inj hc
        exact hforeign '\\' (by decide)
      have hcloses : ∀ c ∈ cut.matched.getLast?, c ∉ Marker.ofNat n := by
        rw [hspan]
        rintro c hc
        obtain rfl : '}' = c := by simpa [← List.append_assoc] using hc
        exact hforeign '}' (by decide)
      rcases Text.within_append h (.inl hopens) with h | h
      · exact (marker_substituteNames h).trans (List.prefix_append _ _).isInfix
      · rcases Text.within_append h (.inr hcloses) with h | h
        · exact h.trans ⟨substituteNames cut.before, symbolPass cut.after, by simp⟩
        · have hkept := ih _ hshorter h rfl
          exact hkept.trans ⟨substituteNames cut.before ++ cut.matched, [], by simp⟩

end Symbol

/-- A marker that stands in a text is found, or another one that starts before it. -/
theorem Marker.occursIn_of_within {n : Nat} {text : Text} (h : Marker.ofNat n <:+: text) :
    Marker.occursIn text = true := by
  obtain ⟨a, b, rfl⟩ := h
  cases hfind : Marker.pattern.find? none (a ++ Marker.ofNat n ++ b) with
  | none =>
    have hmisses := Pattern.misses_of_find?_none hfind
    rw [List.append_assoc] at hmisses
    obtain ⟨hhit, -⟩ := hitsAt_ofNat (a.getLast?.or none) n b
    have hright := hmisses.right
    rw [ofNat_eq, List.cons_append] at hhit hright
    have hnone := hright.1
    rw [List.append_nil, hhit] at hnone
    cases hnone
  | some cut =>
    rw [Marker.occursIn, Pattern.occursIn, Pattern.hits, Pattern.pieces,
      Pattern.piecesFrom_of_find?_some recognises_pattern.proper hfind]
    simp

/-! ## Passes -/

theorem Table.height_iterate_pass {G : Table} {w : Marked} (hG : G.Backward) (h : G.Ready w)
    (count : Nat) :
    G.texts.height (G.pass^[count] w).text = G.texts.height w.text - count := by
  induction count generalizing w with
  | zero => rfl
  | succ count ih =>
    rw [Function.iterate_succ_apply, ih (h.pass hG), height_pass hG h]
    omega

/-- What is left when the passes are used up: the full expansion, or a text with markers. -/
theorem Table.resolveFrom_cases {G : Table} {w : Marked} (hG : G.Backward) (h : G.Ready w)
    {passes budget : Nat} {r : Resolution}
    (hr : G.texts.resolveFrom passes budget w.text = .ok r) :
    r.latex.Clear ∧ G.texts.height w.text ≤ budget ∨
      (∃ n, Marker.ofNat n <:+: r.latex) ∧ budget < G.texts.height w.text := by
  by_cases hle : G.texts.height w.text ≤ budget
  · obtain ⟨-, -, hlatex⟩ := resolveFrom_spec hG h hr
    rw [hlatex hle]
    exact .inl ⟨h.clear, hle⟩
  · have hlt := Nat.lt_of_not_le hle
    have hheight := height_iterate_pass hG h budget
    rw [height_text (h.iterate_pass hG budget)] at hheight
    have hpos : 0 < Fragments.greatest
        ((G.pass^[budget] w).numbers.map fun n => G.rank n + 1) := by omega
    obtain ⟨n, hn⟩ := List.exists_mem_of_ne_nil _ (Fragments.greatest_map_pos.mp hpos)
    refine .inr ⟨⟨n, ?_⟩, hlt⟩
    rw [resolveFrom_eq hG h hr, Nat.min_eq_left hlt.le]
    exact fill_within Marker.ofNat hn

namespace Expression

/-- How deep the fragments of a line are nested. -/
def nesting (settings : Settings) (line : Text) : Nat :=
  (segmented settings line).2.fragments.height (segmented settings line).1

variable {line : Text}

/-- **A line nests no deeper than it has openers.** -/
theorem nesting_le (settings : Settings) (h : line.Clear) :
    nesting settings line ≤ (Symbol.substituteConstants line).countP isOpener := by
  obtain ⟨w, G, kept, hsegmented, hleaves⟩ := exists_segmented settings h
  have hready := hleaves.ready ((Symbol.substituteConstants_spec line).2.1 h)
  have hweight : weight (plain (Symbol.substituteConstants line)) =
      (Symbol.substituteConstants line).countP isOpener := List.countP_map
  rw [nesting, hsegmented, ← hweight]
  exact (Table.height_le hleaves.backward hready).trans hleaves.length_le

/-- **Passes are enough exactly when a line nests no deeper than there are passes**, and exactly
then no marker is left. -/
theorem compile_nesting (settings : Settings) (h : line.Clear)
    (hsize : line.length ≤ 10 ^ Fault.digitLimit) :
    ∃ latex, compile settings line =
        .ok (latex, decide (settings.passes.toNat < nesting settings line)) ∧
      Marker.occursIn latex = decide (settings.passes.toNat < nesting settings line) := by
  obtain ⟨w, G, kept, hsegmented, hleaves⟩ := exists_segmented settings h
  have hready := hleaves.ready ((Symbol.substituteConstants_spec line).2.1 h)
  have hlimit := (length_le_of_leaves hleaves).trans hsize
  obtain ⟨r, hr⟩ :=
    Table.exists_resolveFrom hleaves.backward hready hlimit 0 settings.passes.toNat
  obtain ⟨-, hunresolved, -⟩ := Table.resolveFrom_spec hleaves.backward hready hr
  refine ⟨Symbol.symbolPass r.latex, ?_, ?_⟩
  · rw [compile_eq, nesting, hsegmented, Fragments.resolve, hr, Except.map, hunresolved]
  · rw [nesting, hsegmented]
    rcases Table.resolveFrom_cases hleaves.backward hready hr with ⟨hclear, hle⟩ | ⟨⟨n, hn⟩, hlt⟩
    · rw [occursIn_of_clear (Symbol.clear_symbolPass hclear), decide_eq_false (Nat.not_lt.mpr hle)]
    · rw [Marker.occursIn_of_within (Symbol.marker_symbolPass hn), decide_eq_true hlt]

/-- **The default limits.**  A line is resolved, and no marker is left in its LaTeX, exactly when
its fragments nest at most twenty deep, which those of a line with at most twenty openers do.

That there are at most `10 ^ Fault.digitLimit` characters makes sure that the number of every marker
is short enough to be read. -/
theorem compile_default_limits (line : Text) (h : ¬ "PH".toList <:+: line)
    (hsize : line.length ≤ 10 ^ Fault.digitLimit) :
    ∃ source s T kept latex unresolved, Checked.substituteConstants line = .ok source ∧
      (segment {} line).run {} = (.ok s, ⟨T, kept⟩) ∧ compile {} line = .ok (latex, unresolved) ∧
      (unresolved = false ↔ T.height s ≤ 20) ∧
      (unresolved = false ↔ Marker.occursIn latex = false) ∧
      T.height s ≤ source.countP isOpener := by
  have hclear := Text.clear_iff_not_infix.mpr h
  obtain ⟨latex, hcompile, hoccurs⟩ := compile_nesting {} hclear hsize
  have hpasses : ({} : Settings).passes.toNat = 20 := rfl
  rw [hpasses] at hcompile hoccurs
  have hrun := run_segment {} line
  have hnesting := nesting_le {} hclear
  rw [nesting] at hcompile hoccurs hnesting
  generalize segmented {} line = segmentation at hrun hcompile hoccurs hnesting
  obtain ⟨s, T, kept⟩ := segmentation
  refine ⟨_, s, T, kept, latex, _, Checked.substituteConstants_eq line, hrun, hcompile, ?_, ?_,
    hnesting⟩
  · rw [decide_eq_false_iff_not, Nat.not_lt]
  · rw [hoccurs]

/-- A root of a root, and so on. -/
def nestedRoots (n : Nat) : Text :=
  (List.replicate n "sqrt(".toList).flatten ++ 'x' :: List.replicate n ')'

theorem compile_default_limits_twenty :
    (¬ "PH".toList <:+: nestedRoots 20 ∧ (nestedRoots 20).length ≤ 10 ^ Fault.digitLimit) ∧
    ∃ source s T kept latex unresolved, Checked.substituteConstants (nestedRoots 20) = .ok source ∧
      (segment {} (nestedRoots 20)).run {} = (.ok s, ⟨T, kept⟩) ∧
      compile {} (nestedRoots 20) = .ok (latex, unresolved) ∧
      (unresolved = false ↔ T.height s ≤ 20) ∧
      (unresolved = false ↔ Marker.occursIn latex = false) ∧
      T.height s ≤ source.countP isOpener := by
  have hclear : ¬ "PH".toList <:+: nestedRoots 20 := by decide +kernel
  have hsize : (nestedRoots 20).length ≤ 10 ^ Fault.digitLimit :=
    Fault.le_pow_digitLimit (by decide +kernel)
  exact ⟨⟨hclear, hsize⟩, compile_default_limits (nestedRoots 20) hclear hsize⟩

/-- One root more is too many: extraction goes deep enough for it, and the passes do not. -/
theorem compile_nestedRoots_unresolved :
    ¬ "PH".toList <:+: nestedRoots 21 ∧
      compile {} (nestedRoots 21) = .ok ((List.replicate 20 "\\sqrt\x7b".toList).flatten ++
        Marker.ofNat 0 ++ List.replicate 20 '}', true) := by
  decide +kernel

end Expression

end MathNotes
