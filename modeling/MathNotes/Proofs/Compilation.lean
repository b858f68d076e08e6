import MathNotes.Proofs.Conservation
import MathNotes.Proofs.Nesting

/-!
# Compiling nested formulas

A formula in which constructs nest in any way is compiled to its LaTeX
(`Expression.compile_source`).  Extraction makes a leaf of it, resolution puts back what the leaf
stands for, and the names and operators that are replaced in finished LaTeX do not occur there: all
words are commands, and every variable stands on its own.
-/

namespace MathNotes

open Extract Formula

namespace Symbol

/-! ## Finished LaTeX -/

/-- Neither prose nor names are found in a text that is followed by `rest`. -/
structure Settled (previous : Option Char) (text rest : Text) : Prop where
  prose : prosePattern.Misses previous text rest
  names : namePattern.Misses previous text rest

variable {previous : Option Char} {a b text rest : Text}

theorem Settled.append (ha : Settled previous a (b ++ rest))
    (hb : Settled (a.getLast?.or previous) b rest) : Settled previous (a ++ b) rest :=
  ⟨Pattern.misses_append ha.prose hb.prose, Pattern.misses_append ha.names hb.names⟩

theorem lead_of_prose {hit : Hit Text} (h : prosePattern previous text = some hit) :
    ∃ after, text = '\\' :: 't' :: 'e' :: after := by
  simp only [prosePattern, Option.bind_eq_bind, Option.bind_eq_some_iff] at h
  obtain ⟨rest, hrest, -⟩ := h
  exact ⟨_, isPrefixOf?_eq_some_iff.mp hrest⟩

theorem prose_eq_none {c : Char} (h : c ≠ '\\' ∨ ∃ d d' after, text = d :: d' :: after ∧
    ¬(d = 't' ∧ d' = 'e')) : prosePattern previous (c :: text) = none := by
  by_contra hne
  obtain ⟨hit, hhit⟩ := Option.ne_none_iff_exists'.mp hne
  obtain ⟨after, htext⟩ := lead_of_prose hhit
  obtain ⟨rfl, rfl⟩ := List.cons.inj htext
  rcases h with h | ⟨d, d', after', htext', h⟩
  · exact h rfl
  · obtain ⟨hd, htext'⟩ := List.cons.inj htext'
    exact h ⟨hd.symm, (List.cons.inj htext').1.symm⟩

theorem names_spec : ∀ p ∈ names, ∃ c d rest, p.1 = c :: d :: rest ∧ c.isAlpha = true ∧
    d.isAlpha = true := by
  have key : ∀ p ∈ names, 1 < p.1.length ∧ ∀ c ∈ p.1, c.isAlpha = true := by decide
  intro p hp
  obtain ⟨hlength, halpha⟩ := key p hp
  match hname : p.1, hlength, halpha with
  | c :: d :: rest, _, halpha => exact ⟨c, d, rest, rfl, halpha c (by simp), halpha d (by simp)⟩

/-- A name starts with two letters, and not behind a letter, a digit or a backslash. -/
theorem name_eq_none {c : Char} (h : c.isAlpha = false ∨
    (previous.any fun c => c.isAlphanum || c == '\\') = true ∨
      ∀ d ∈ text.head?, d.isAlpha = false) : namePattern previous (c :: text) = none := by
  by_contra hne
  obtain ⟨hit, hhit⟩ := Option.ne_none_iff_exists'.mp hne
  obtain ⟨matched, after, htext, -, -, hmem, hbars, -⟩ := Pattern.recognises_wordPattern
    names_ne_nil hhit
  obtain ⟨c', d, word, hword, hc, hd⟩ := names_spec _ hmem
  simp only at hword
  rw [hword] at htext
  obtain ⟨rfl, rfl⟩ := List.cons.inj htext
  rcases h with h | h | h
  · rw [h] at hc
    cases hc
  · obtain ⟨b, hb, hbar⟩ := (Option.any_eq_true _ _).mp h
    rw [hbars b hb] at hbar
    cases hbar
  · rw [h d rfl] at hd
    cases hd

/-- A letter on its own is settled. -/
theorem settled_letter (v : Letter) (h : ∀ c ∈ rest.head?, c.isAlpha = false) :
    Settled previous [v.val] rest :=
  ⟨⟨prose_eq_none (.inl (v.ne_of_not_isAlpha rfl)), Pattern.misses_nil⟩,
    ⟨name_eq_none (.inr (.inr h)), Pattern.misses_nil⟩⟩

theorem settled_numeral (n : Numeral) : Settled previous n.val rest := by
  constructor
  · refine Pattern.misses_of_forall fun c hc _ _ => prose_eq_none (.inl ?_)
    rintro rfl
    cases n.2.2 _ hc
  · exact Pattern.misses_of_forall fun c hc _ _ =>
      name_eq_none (.inl (isAlpha_of_isDigit (n.2.2 c hc)))

/-- All letters of a text belong to commands. -/
def lettersBarred (previous : Option Char) : Text → Bool
  | [] => true
  | c :: rest => (!c.isAlpha || previous.any fun c => c.isAlphanum || c == '\\') &&
      lettersBarred (some c) rest

/-- No prose starts in a text, whatever follows it. -/
def isProseless : Text → Bool
  | [] => true
  | c :: rest => (c != '\\' || (1 < rest.length && rest.take 2 != ['t', 'e'])) && isProseless rest

/-- The text between the parts of a construct: all of its letters belong to commands, and it holds
no sign of an operator. -/
def isFrame (text : Text) : Bool :=
  lettersBarred none text && isProseless text &&
    text.all fun c => !(['=', '-', 'P', 'H'].contains c)

theorem names_of_lettersBarred (h : lettersBarred previous text = true) :
    namePattern.Misses previous text rest := by
  induction text generalizing previous with
  | nil => exact Pattern.misses_nil
  | cons c text ih =>
    rw [lettersBarred, Bool.and_eq_true, Bool.or_eq_true, Bool.not_eq_true'] at h
    exact ⟨name_eq_none (h.1.imp_right .inl), ih h.2⟩

theorem prose_of_isProseless (h : isProseless text = true) :
    prosePattern.Misses previous text rest := by
  induction text generalizing previous with
  | nil => exact Pattern.misses_nil
  | cons c text ih =>
    rw [isProseless, Bool.and_eq_true, Bool.or_eq_true, bne_iff_ne] at h
    refine ⟨prose_eq_none (h.1.imp_right fun hnext => ?_), ih h.2⟩
    match text, hnext with
    | d :: d' :: text, hnext => exact ⟨d, d', text ++ rest, rfl, by simpa using hnext⟩

theorem head_of_isFrame (h : isFrame text = true) : ∀ c ∈ text.head?, c.isAlpha = false := by
  intro c hc
  cases text with
  | nil => cases hc
  | cons d text =>
    obtain rfl := Option.some.inj hc
    simp only [isFrame, lettersBarred, Bool.and_eq_true] at h
    simpa using h.1.1.1

theorem settled_frame (h : isFrame text = true) : Settled previous text rest := by
  have hhead := head_of_isFrame h
  simp only [isFrame, Bool.and_eq_true] at h
  refine ⟨prose_of_isProseless h.1.2, names_of_lettersBarred ?_⟩
  -- The first character is no letter, so the one before it does not matter.
  cases text with
  | nil => rfl
  | cons c text =>
    have hletters := h.1.1
    rw [lettersBarred, Bool.and_eq_true] at hletters ⊢
    exact ⟨by simp [hhead c rfl], hletters.2⟩

theorem not_mem_frame (h : isFrame text = true) : ∀ c ∈ ['=', '-', 'P', 'H'], c ∉ text := by
  simp only [isFrame, Bool.and_eq_true, List.all_eq_true, Bool.not_eq_true'] at h
  intro c hc hmem
  have := h.2 c hmem
  rw [List.contains_iff_mem.mpr hc] at this
  cases this

/-- Finished LaTeX: frames and atoms, with no letter behind an atom. -/
inductive Finished : Text → Prop
  | nil : Finished []
  | frame {text rest : Text} (h : isFrame text = true) (behind : Finished rest) :
      Finished (text ++ rest)
  | atom {a : Atom} {rest : Text} (apart : ∀ c ∈ rest.head?, c.isAlpha = false)
      (behind : Finished rest) : Finished (a.text ++ rest)

namespace Finished

theorem settled (h : Finished text) : Settled previous text [] := by
  induction h generalizing previous with
  | nil => exact ⟨Pattern.misses_nil, Pattern.misses_nil⟩
  | frame h _ ih => exact (settled_frame h).append ih
  | @atom a _ apart _ ih =>
    cases a with
    | letter v => exact (settled_letter v (by simpa using apart)).append ih
    | numeral n => exact (settled_numeral n).append ih

theorem not_mem_operator (h : Finished text) : ∀ c ∈ ['=', '-'], c ∉ text := by
  have hatom : ∀ (a : Atom), ∀ c ∈ ['=', '-'], c ∉ a.text := by
    intro a c hc hmem
    have hname : isNameChar c = true := Leaf.isNameChar_of_mem (l := .atom a) hmem
    rw [(by decide : ∀ c ∈ ['=', '-'], isNameChar c = false) c hc] at hname
    cases hname
  intro c hc
  induction h with
  | nil => exact List.not_mem_nil
  | frame h _ ih =>
    rw [List.mem_append, not_or]
    exact ⟨not_mem_frame h c (List.mem_append_left ['P', 'H'] hc), ih⟩
  | @atom a _ _ _ ih =>
    rw [List.mem_append, not_or]
    exact ⟨hatom a c hc, ih⟩

theorem clear (h : Finished text) : text.Clear := by
  have happend : ∀ {a b : Text}, 'P' ∉ a → Text.Clear b → Text.Clear (a ++ b) := fun ha hb =>
    Text.clear_append.mpr ⟨Text.clear_of_not_mem ha, hb, fun hends =>
      ha (List.mem_of_getLast? hends.1)⟩
  induction h with
  | nil => exact Text.clear_nil
  | frame h _ ih => exact happend (not_mem_frame h 'P' (by decide)) ih
  | @atom a _ apart _ ih =>
    cases a with
    | letter v =>
      refine Text.clear_append.mpr ⟨List.isChain_singleton _, ih, fun hends => ?_⟩
      cases apart 'H' hends.2
    | numeral n => exact happend (fun hmem => by cases n.2.2 _ hmem) ih

theorem operators_spec : ∀ p ∈ operators, ∃ c ∈ ['=', '-'], c ∈ p.1 := by decide

/-- **Nothing is replaced in finished LaTeX.** -/
theorem symbolPass_eq (h : Finished text) : symbolPass text = text := by
  have hprose : prosePattern.pieces text = text.map .char ++ [] := by
    have hmisses : prosePattern.Misses none text [] := h.settled.prose
    have hpass := Pattern.piecesFrom_pass hmisses
    rwa [List.append_nil, Pattern.piecesFrom] at hpass
  have hoperators : operatorPattern.Misses none text [] := by
    refine Pattern.misses_of_not_mem (fun previous text hit hhit => ?_) h.not_mem_operator
    obtain ⟨⟨operator, command⟩, hmem, hoperator⟩ := List.exists_of_findSome?_eq_some hhit
    simp only [Option.bind_eq_bind, Option.bind_eq_some_iff] at hoperator
    obtain ⟨rest, hrest, -⟩ := hoperator
    obtain ⟨c, hc, hin⟩ := operators_spec _ hmem
    rw [isPrefixOf?_eq_some_iff.mp hrest]
    exact ⟨c, hc, List.mem_append_left _ hin⟩
  rw [symbolPass, hprose, Piece.gaps_chars]
  simp only [Piece.gaps, List.flatMap_nil, List.append_nil]
  rw [substituteNames, Pattern.replace_of_misses h.settled.names,
    Pattern.replace_of_misses hoperators]

end Finished

end Symbol

/-! ## The LaTeX of a formula -/

open MathNotes.Symbol

theorem Wrapper.frame_spec (k : Wrapper) (compound : Bool) :
    isFrame (k.frame compound).2 = true ∧ (k.frame compound).2 ≠ [] ∧
      (isFrame (k.frame compound).1 = true ∨ ∃ (v : Letter) (text : Text),
        (k.frame compound).1 = v.val :: text ∧ isFrame text = true ∧ text ≠ []) := by
  cases k with
  | factorial => cases compound <;> exact ⟨rfl, List.cons_ne_nil _ _, .inl rfl⟩
  | command name h =>
    have key : ∀ name ∈ ["sqrt".toList, "vec".toList], isFrame ('\\' :: name ++ ['{']) = true := by
      decide
    exact ⟨rfl, List.cons_ne_nil _ _, .inl (key name h)⟩
  | rounding name h =>
    have key : ∀ name ∈ ["floor".toList, "ceil".toList],
        isFrame ("\\l" ++ name ++ [' ']) = true ∧ isFrame (" \\r" ++ name) = true := by decide
    exact ⟨(key name h).2, by simp [frame], .inl (key name h).1⟩
  | function name h =>
    have key : ∀ name ∈ Symbol.functionNames, isFrame ('\\' :: name ++ ['(']) = true := by decide
    exact ⟨rfl, List.cons_ne_nil _ _, .inl (key name h)⟩
  | absolute => exact ⟨rfl, by simp [frame], .inl rfl⟩
  | subscript v =>
    exact ⟨rfl, List.cons_ne_nil _ _, .inr ⟨v, ['_', '{'], rfl, rfl, List.cons_ne_nil _ _⟩⟩
  | power v =>
    exact ⟨rfl, List.cons_ne_nil _ _, .inr ⟨v, ['^', '{'], rfl, rfl, List.cons_ne_nil _ _⟩⟩

theorem Joiner.frame_spec (j : Joiner) :
    isFrame j.frame.1 = true ∧ (isFrame j.frame.2.1 = true ∧ j.frame.2.1 ≠ []) ∧
      isFrame j.frame.2.2 = true ∧ j.frame.2.2 ≠ [] := by
  cases j <;> decide

/-- **The LaTeX of a formula is finished.** -/
theorem Formula.finished_latex (e : Formula Atom) {rest : Text} (hrest : Finished rest)
    (hapart : ∀ c ∈ rest.head?, c.isAlpha = false) :
    Finished (e.latex Atom.text Atom.text ++ rest) := by
  have hhead : ∀ {text rest : Text}, isFrame text = true → text ≠ [] →
      ∀ c ∈ (text ++ rest).head?, c.isAlpha = false := by
    intro text rest htext hne c hc
    rw [List.head?_append_of_ne_nil _ hne] at hc
    exact head_of_isFrame htext c hc
  induction e generalizing rest with
  | leaf a => exact .atom hapart hrest
  | wrap k e ih =>
    obtain ⟨hclosing, hne, hopening⟩ := k.frame_spec (isCompoundSource (e.source Atom.text))
    have hpart := ih (.frame hclosing hrest) (hhead hclosing hne)
    rw [latex, List.append_assoc, List.append_assoc]
    rcases hopening with hopening | ⟨v, text, htext, hframe, htextne⟩
    · exact .frame hopening hpart
    · rw [htext]
      have hletter : Finished (Atom.text (.letter v) ++ (text ++ _)) :=
        .atom (hhead hframe htextne) (.frame hframe hpart)
      exact hletter
  | join j a b iha ihb =>
    obtain ⟨hopening, ⟨hmiddle, hmiddlene⟩, hclosing, hclosingne⟩ := j.frame_spec
    have hsecond := ihb (.frame hclosing hrest) (hhead hclosing hclosingne)
    have hfirst := iha (.frame hmiddle hsecond) (hhead hmiddle hmiddlene)
    have hall := Finished.frame hopening hfirst
    simpa only [latex, List.append_assoc] using hall

/-! ## Compilation -/

theorem Formula.covered_line (e : Formula Atom) (G : Table) : e.line.Covered G := by
  induction e with
  | leaf a => exact Becomes.covers_plain G a.text
  | wrap k e ih => exact ih
  | join j a b iha ihb => exact ⟨iha, ihb⟩

/-- There are no constants in a formula: each has a full stop in it. -/
theorem Symbol.substituteConstants_source (e : Formula Atom) :
    substituteConstants (e.source Atom.text) = e.source Atom.text := by
  have key : ∀ p ∈ constants, p.1 ≠ [] ∧ '.' ∈ p.1 := by decide
  have hsigns : ∀ c ∈ ['.'], c ∉ e.source Atom.text := by
    rw [← source_line]
    simpa using not_mem_source_of_foreign rfl (by decide) e.line
  refine Pattern.replace_of_misses (Pattern.misses_of_not_mem ?_ hsigns) id
  intro previous text hit hhit
  obtain ⟨matched, after, rfl, -, -, hmem, -⟩ :=
    Pattern.recognises_wordPattern (fun p hp => (key p hp).1) hhit
  exact ⟨'.', List.mem_cons_self, List.mem_append_left _ (key _ hmem).2⟩

namespace Expression

/-- A line is compiled to the expansion of what extraction leaves of it, if all fragments can be put
back. -/
theorem compile_eq_expand {settings : Settings} {line : Text} {w : Marked} {G : Table}
    {kept : List Text} (hsegmented : segmented settings line = (w.text, ⟨G.texts, kept⟩))
    (hG : G.Backward) (hready : G.Ready w) (hlimit : G.length ≤ 10 ^ Fault.digitLimit)
    (hpasses : G.length ≤ settings.passes.toNat) :
    compile settings line = .ok (Symbol.symbolPass (G.expand w), false) := by
  have hheight := (Table.height_le hG hready).trans hpasses
  obtain ⟨r, hr⟩ := Table.exists_resolveFrom hG hready hlimit 0 settings.passes.toNat
  obtain ⟨-, hunresolved, hlatex⟩ := Table.resolveFrom_spec hG hready hr
  rw [compile_eq, hsegmented, Fragments.resolve, hr, Except.map, hlatex hheight, hunresolved,
    decide_eq_false (Nat.not_lt.mpr hheight)]

/-- What extraction leaves of a formula. -/
theorem exists_segmented_source (e : Formula Atom) (h : e.Proper) (settings : Settings)
    (hdepth : e.nodes ≤ settings.depth.toNat) (hrounds : e.nodes ≤ settings.rounds.toNat) :
    ∃ (l : Leaf) (G : Table) (kept : List Text),
      segmented settings (e.source Atom.text) = (l.text, ⟨G.texts, kept⟩) ∧
        Becomes [] e.line G (.leaf l) := by
  obtain ⟨bound, hbound⟩ :=
    Nat.exists_eq_add_one_of_ne_zero (Nat.ne_zero_of_lt e.constructs_lt_nodes)
  obtain ⟨depth, hdepth'⟩ := Nat.exists_eq_add_one_of_ne_zero (n := settings.depth.toNat) (by omega)
  have hless : bound < settings.rounds.toNat := by omega
  have hsolves : (Construct.treatment settings.rounds.toNat depth).Solves bound :=
    Construct.solves_treatment (by omega) hless.le
  obtain ⟨l, G, hgives, hbecomes⟩ := Construct.gives_runSteps hsolves hless h.line
    (by rw [nodes_line, hbound]) (e.covered_line [])
  obtain ⟨kept, hextract⟩ := hgives []
  refine ⟨l, G, kept, ?_, hbecomes⟩
  rw [source_line, ← Construct.extract_succ, ← hdepth'] at hextract
  have hempty : ({} : Extraction) = ⟨Table.texts [], []⟩ := rfl
  rw [segmented, Symbol.substituteConstants_source, hempty, hextract]
  exact congrArg (·, _) (l.segmentLine_text true)

/-- **Compiler correctness.**  A formula in which constructs nest in any way, only not one absolute
value right in another, is compiled to its LaTeX, whenever the limits are at least the number of its
nodes.

That there are at most `10 ^ Fault.digitLimit` constructs makes sure that the number of every marker
is short enough to be read. -/
theorem compile_source (e : Formula Atom) (h : e.Proper) (settings : Settings)
    (hdepth : (e.nodes : Int) ≤ settings.depth) (hrounds : (e.nodes : Int) ≤ settings.rounds)
    (hpasses : (e.nodes : Int) ≤ settings.passes)
    (hsize : e.constructs ≤ 10 ^ Fault.digitLimit) :
    compile settings (e.source Atom.text) = .ok (e.latex Atom.text Atom.text, false) := by
  obtain ⟨l, G, kept, hsegmented, hbecomes⟩ :=
    exists_segmented_source e h settings (by omega) (by omega)
  have hfinished : Symbol.Finished (e.latex Atom.text Atom.text) := by
    simpa using e.finished_latex .nil (by simp)
  have hexpand : G.expand l.marked = e.latex Atom.text Atom.text :=
    hbecomes.value.trans (latex_line e [])
  have hlength : G.length ≤ e.constructs := by
    have hle := hbecomes.length
    rw [constructs_line] at hle
    simpa [constructs] using hle
  have hready : G.Ready l.marked := ⟨hbecomes.covered, hexpand ▸ hfinished.clear⟩
  have hbackward : G.Backward := hbecomes.backward fun k n hn => by simp at hn
  have hnodes := e.constructs_lt_nodes
  rw [← l.text_marked] at hsegmented
  rw [compile_eq_expand hsegmented hbackward hready (hlength.trans hsize) (by omega), hexpand,
    hfinished.symbolPass_eq]

/-- A formula with constructs of all kinds. -/
def nestedFormula : Formula Atom :=
  .wrap (.command "sqrt" (by decide)) (.wrap .absolute (.join .vector
    (.wrap (.rounding "floor" (by decide)) (.leaf (.letter ⟨'x', rfl⟩)))
    (.join .fraction
      (.wrap .factorial (.wrap (.power ⟨'a', rfl⟩) (.leaf (.numeral ⟨['1', '2'], by decide⟩))))
      (.join .binomial (.wrap (.function "sin" (by decide)) (.leaf (.letter ⟨'P', rfl⟩)))
        (.wrap (.subscript ⟨'k', rfl⟩) (.leaf (.letter ⟨'H', rfl⟩)))))))

theorem compile_source_nested :
    (nestedFormula.Proper ∧ (nestedFormula.nodes : Int) ≤ ({} : Settings).passes ∧
      nestedFormula.constructs ≤ 10 ^ Fault.digitLimit) ∧
    compile {} "sqrt(|<floor(x), (factorial(a^(12)))/(choose(sin(P), k_(H)))>|)".toList =
      .ok (("\\sqrt\x7b\\left|\\langle \\lfloor x \\rfloor,\\; " ++
        "\\frac\x7b(a^\x7b12\x7d)!\x7d\x7b\\binom\x7b\\sin(P)\x7d\x7bk_\x7bH\x7d\x7d\x7d " ++
        "\\rangle\\right|\x7d").toList, false) := by
  have hproper : nestedFormula.Proper := by simp [nestedFormula, Proper, isAbsolute]
  have hsize : nestedFormula.constructs ≤ 10 ^ Fault.digitLimit :=
    Fault.le_pow_digitLimit (by decide)
  refine ⟨⟨hproper, by decide, hsize⟩, ?_⟩
  exact compile_source nestedFormula hproper {} (by decide) (by decide) (by decide) hsize

end Expression

end MathNotes
