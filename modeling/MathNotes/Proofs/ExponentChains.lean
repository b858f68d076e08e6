import MathNotes.Proofs.Balance
import MathNotes.Proofs.CommandLines
import MathNotes.Proofs.Compilation
import MathNotes.Proofs.IdleSteps

/-!
# Chains of bare exponents

A chain `x^a^b^…` of bare exponents is taken apart in two passes.  The first takes every other
exponent together with the character in front of its mark, from left to right; the second puts what
is left behind a marker on that marker.  What is left is the exponent in the middle of two pairs,
less the last character, which the next pair took for its base.  If nothing is left of it, two
markers are joined by a mark that no pass looks at (`Script.pairedLatex`).

So a chain of at most two exponents folds to the left, and no longer one does
(`Expression.compile_exponentChain`).
-/

namespace MathNotes

open Extract Marked

namespace Atom

theorem text_ne_nil (a : Atom) : a.text ≠ [] := Leaf.text_ne_nil (.atom a)

theorem isAlphanum_of_mem {a : Atom} {c : Char} (h : c ∈ a.text) : c.isAlphanum = true := by
  cases a with
  | letter v =>
    obtain rfl := List.mem_singleton.mp h
    simp [Char.isAlphanum, v.2]
  | numeral n => simp [Char.isAlphanum, n.2.2 c h]

/-- The last character of an atom. -/
def lastChar (a : Atom) : Char := a.text.getLast a.text_ne_nil

/-- What stands in front of the last character of an atom. -/
def lead (a : Atom) : Text := a.text.dropLast

theorem lead_append (a : Atom) : a.lead ++ [a.lastChar] = a.text :=
  List.dropLast_append_getLast a.text_ne_nil

theorem isAlphanum_lastChar (a : Atom) : a.lastChar.isAlphanum = true :=
  isAlphanum_of_mem (List.getLast_mem a.text_ne_nil)

theorem isAlphanum_of_mem_lead {a : Atom} {c : Char} (h : c ∈ a.lead) : c.isAlphanum = true :=
  isAlphanum_of_mem (List.mem_of_mem_dropLast h)

/-- Every letter or digit is an atom. -/
theorem exists_text_eq {c : Char} (h : c.isAlphanum = true) : ∃ a : Atom, a.text = [c] := by
  rw [Char.isAlphanum, Bool.or_eq_true] at h
  rcases h with h | h
  · exact ⟨.letter ⟨c, h⟩, rfl⟩
  · exact ⟨.numeral ⟨[c], by simp, by simpa using h⟩, rfl⟩

/-- What stands in front of the last character of an atom is a numeral, if it is anything. -/
theorem exists_text_eq_lead {a : Atom} (h : a.lead ≠ []) : ∃ b : Atom, b.text = a.lead := by
  cases a with
  | letter v => exact absurd rfl h
  | numeral n => exact ⟨.numeral ⟨_, h, fun c hc => n.2.2 c (List.mem_of_mem_dropLast hc)⟩, rfl⟩

end Atom

namespace Script

/-! ## What chains stand for -/

/-- A character with exponents, each on the one before. -/
def chain (base : Char) (exponents : List Atom) : Text :=
  base :: exponents.flatMap fun a => '^' :: a.text

/-- A chain folded to the left: every exponent stands on all that is before it. -/
def foldedLatex (base : Char) (first : Atom) (more : List Atom) : Text :=
  more.foldl (fun latex a => Latex.withExponent (Latex.braced latex) a.text)
    (Latex.withExponent [base] first.text)

/-- The LaTeX of a pair, with what stands between it and the next pair as exponent; if that is
nothing, only its mark is left. -/
def beforePair (latex lead : Text) : Text :=
  if lead = [] then latex ++ ['^'] else Latex.withExponent (Latex.braced latex) lead

/-- A chain in pairs of a character and its exponent. An exponent between two pairs gives its last
character to the second and its other characters to the first. -/
def pairedLatex (base : Char) (first : Atom) : List Atom → Text
  | [] => Latex.withExponent [base] first.text
  | [last] => Latex.withExponent (Latex.braced (Latex.withExponent [base] first.text)) last.text
  | middle :: next :: more =>
    beforePair (Latex.withExponent [base] first.text) middle.lead ++
      pairedLatex middle.lastChar next more

variable {base : Char} {first : Atom} {more : List Atom} {previous : Option Char} {rest : Text}

theorem chain_cons (base : Char) (a : Atom) (exponents : List Atom) :
    chain base (a :: exponents) = (base :: '^' :: a.text) ++ (chain base exponents).tail := by
  simp [chain]

/-- Behind a pair, the chain goes on with what is left of an exponent and with the next pair. -/
theorem tail_chain (base : Char) (middle : Atom) (exponents : List Atom) :
    (chain base (middle :: exponents)).tail =
      ('^' :: middle.lead) ++ chain middle.lastChar exponents := by
  simp only [chain, List.tail_cons, List.flatMap_cons, List.cons_append, ← middle.lead_append]
  simp

/-- Two braces are open at the start of a folded chain of three exponents or more. -/
theorem foldedLatex_eq (base : Char) (first second third : Atom) (more : List Atom) :
    ∃ latex, foldedLatex base first (second :: third :: more) = '{' :: '{' :: latex := by
  suffices ∀ (more : List Atom) (latex : Text), ∃ latex',
      more.foldl (fun latex a => Latex.withExponent (Latex.braced latex) a.text)
        ('{' :: '{' :: latex) = '{' :: '{' :: latex' from this more _
  intro more
  induction more with
  | nil => exact fun latex => ⟨latex, rfl⟩
  | cons a more ih => exact fun latex => ih _

/-- A chain in pairs is a folded one only if there are no two pairs. -/
theorem pairedLatex_eq_foldedLatex_iff (hbase : base.isAlphanum = true) :
    pairedLatex base first more = foldedLatex base first more ↔ more.length ≤ 1 := by
  match more with
  | [] => exact iff_of_true rfl (by simp)
  | [last] => exact iff_of_true rfl (by simp)
  | middle :: next :: more =>
    refine iff_of_false (fun heq => ?_) (by simp)
    obtain ⟨latex, hfolded⟩ := foldedLatex_eq base first middle next more
    rw [hfolded, pairedLatex, beforePair] at heq
    have hne : base ≠ '{' := by
      rintro rfl
      cases hbase
    split at heq
    · exact hne (List.cons.inj heq).1
    · exact hne (List.cons.inj (List.cons.inj heq).2).1

/-! ## Bare exponents in pairs -/

theorem bareExponent_eq_none {c : Char} {text : Text}
    (h : isExponentBase c = false ∨ text.head? ≠ some '^') :
    bareExponent previous (c :: text) = none := by
  by_contra hne
  obtain ⟨hit, hhit⟩ := Option.ne_none_iff_exists'.mp hne
  obtain ⟨matched, after, htext, -, -, rfl, hbase, -⟩ := recognises_bareExponent hhit
  obtain ⟨rfl, rfl⟩ := List.cons.inj htext
  rcases h with h | h
  · rw [h] at hbase
    cases hbase
  · exact h rfl

/-- Characters without a mark behind them are passed over. -/
theorem misses_bareExponent_run {run : Text} (hrun : ∀ c ∈ run, c.isAlphanum = true)
    (hrest : rest.head? ≠ some '^') : bareExponent.Misses previous run rest := by
  induction run generalizing previous with
  | nil => exact Pattern.misses_nil
  | cons c run ih =>
    obtain ⟨-, hrun⟩ := List.forall_mem_cons.mp hrun
    refine ⟨bareExponent_eq_none (.inr fun hhead => ?_), ih hrun⟩
    cases run with
    | nil => exact hrest hhead
    | cons d run =>
      obtain rfl := Option.some.inj hhead
      cases hrun '^' List.mem_cons_self

theorem bareRun?_append {run : Text} (h : IsRun run rest) :
    bareRun? (run ++ rest) = some (run, rest) := by
  have htake : (run ++ rest).takeWhile Char.isAlphanum = run := takeWhile_append_stop h.all h.stops
  simp [bareRun?, htake, h.ne_nil]

theorem markerRun?_eq_none {run : Text} (h : IsRun run rest) : markerRun? (run ++ rest) = none := by
  obtain ⟨c, run, rfl⟩ := List.exists_cons_of_ne_nil h.ne_nil
  rw [markerRun?, Marker.read?_ne_lead fun text htext => ?_, Option.map_none]
  obtain ⟨rfl, -⟩ := List.cons.inj htext
  cases h.all '_' List.mem_cons_self

theorem hitsAt_bareExponent (hbase : base.isAlphanum = true) {run : Text} (h : IsRun run rest) :
    bareExponent.HitsAt previous (base :: '^' :: run) (base, run) rest := by
  refine ⟨?_, List.cons_ne_nil _ _⟩
  simp [bareExponent, isExponentBase, hbase, Text.after?, markerRun?_eq_none h, bareRun?_append h,
    Hit.leaving]
  omega

/-- An atom in front of a mark, or at the end, is a run. -/
theorem isRun_atom (a : Atom) (h : ∀ c ∈ rest.head?, c.isAlphanum = false) : IsRun a.text rest :=
  ⟨a.text_ne_nil, fun _ => Atom.isAlphanum_of_mem, h⟩

theorem isRun_caret (a : Atom) {text : Text} : IsRun a.text ('^' :: text) :=
  isRun_atom a fun c hc => by
    cases hc
    rfl

/-- Putting bare exponents aside. -/
def pairing : Scanner := Scanner.replacing bareExponent fun script => store (inBraces '^' script)

/-- The number is that of a pair that was put aside. -/
structure Holds (G : Table) (k : Nat) (base : Char) (first : Atom) : Prop where
  lt : k < G.length
  value : G.value k = Latex.withExponent [base] first.text

theorem Holds.grow {G : Table} {k : Nat} (h : Holds G k base first) (H : Table) :
    Holds (G ++ H) k base first :=
  ⟨by rw [List.length_append]; have := h.lt; omega, (Table.value_append h.lt).trans h.value⟩

/-- A chain whose pairs were put aside. -/
inductive Waiting (G : Table) : (base : Char) → (first : Atom) → (more : List Atom) → Marked → Prop
  | alone {base : Char} {first : Atom} {k : Nat} (h : Holds G k base first) :
      Waiting G base first [] [.hit k]
  | last {base : Char} {first last : Atom} {k : Nat} (h : Holds G k base first) :
      Waiting G base first [last] ([.hit k] ++ plain ('^' :: last.text))
  | pair {base : Char} {first middle next : Atom} {more : List Atom} {k : Nat} {w : Marked}
      (h : Holds G k base first) (rest : Waiting G middle.lastChar next more w) :
      Waiting G base first (middle :: next :: more) ([.hit k] ++ (plain ('^' :: middle.lead) ++ w))

theorem Waiting.grow {G : Table} {w : Marked} (h : Waiting G base first more w) (H : Table) :
    Waiting (G ++ H) base first more w := by
  induction h with
  | alone h => exact .alone (h.grow H)
  | last h => exact .last (h.grow H)
  | pair h _ ih => exact .pair (h.grow H) ih

theorem Waiting.text_eq {G : Table} {w : Marked} (h : Waiting G base first more w) :
    ∃ k text, w.text = Marker.ofNat k ++ text := by
  cases h with
  | @alone _ _ k h => exact ⟨k, [], by simp⟩
  | @last _ _ _ k h => exact ⟨k, _, text_hit k _⟩
  | @pair _ _ _ _ _ k _ h => exact ⟨k, _, text_hit k _⟩

/-- All but the last character of an exponent is a run in front of the pair that the last takes. -/
theorem Waiting.isRun_lead {G : Table} {w : Marked} (h : Waiting G base first more w) {a : Atom}
    (ha : a.lead ≠ []) : IsRun a.lead w.text := by
  obtain ⟨k, text, htext⟩ := h.text_eq
  refine ⟨ha, fun _ => Atom.isAlphanum_of_mem_lead, fun c hc => ?_⟩
  rw [htext] at hc
  cases hc
  rfl

/-- A pair is put aside, and the scan goes on behind it. -/
theorem gives_pair (previous : Option Char) (hbase : base.isAlphanum = true) {after text : Text}
    {G G' : Table} (hrun : IsRun first.text after)
    (hrest : (pairing 0 (List.getLast? (base :: '^' :: first.text)) after).Gives
      (G ++ [plain (Latex.withExponent [base] first.text)]) text G') :
    (pairing 0 previous ((base :: '^' :: first.text) ++ after)).Gives G
      (Marker.ofNat G.length ++ text) G' := by
  have hstore := gives_store (plain (Latex.withExponent [base] first.text)) G
  rw [text_plain] at hstore
  rw [pairing, Scanner.replacing_of_hitsAt _ (hitsAt_bareExponent hbase hrun) 0 0]
  exact hstore.bind (hrest.bind (gives_pure _ _))

theorem gives_passed {text : Text} (h : bareExponent.Misses previous text []) (G : Table) :
    (pairing 0 previous text).Gives G text G := by
  have hnil : (pairing 0 (text.getLast?.or previous) []).Gives G [] G := gives_pure _ _
  have hpassed : (pairing 0 previous (text ++ [])).Gives G (text ++ []) G :=
    (Scanner.passes_replacing h).gives hnil
  rwa [List.append_nil] at hpassed

/-- The mark of an exponent and a run behind it are passed over. -/
theorem misses_marked_run {run : Text} (hrun : ∀ c ∈ run, c.isAlphanum = true)
    (hrest : rest.head? ≠ some '^') : bareExponent.Misses previous ('^' :: run) rest :=
  ⟨bareExponent_eq_none (.inl rfl), misses_bareExponent_run hrun hrest⟩

theorem holds_concat (G : Table) (base : Char) (first : Atom) :
    Holds (G ++ [plain (Latex.withExponent [base] first.text)]) G.length base first :=
  ⟨by simp, (Table.value_concat (by simp [Table.Covers])).trans (Table.expand_plain _ _)⟩

theorem backward_pair (base : Char) (first : Atom) {G : Table} (hG : G.Backward) :
    Table.Backward (G ++ [plain (Latex.withExponent [base] first.text)]) :=
  Becomes.backward_concat hG (by simp [Table.Covers])

/-- **Every other exponent is put aside with its base.** -/
theorem exists_waiting (hbase : base.isAlphanum = true) (first : Atom) (more : List Atom)
    (previous : Option Char) {G : Table} (hG : G.Backward) :
    ∃ (w : Marked) (G' : Table),
      (pairing 0 previous (chain base (first :: more))).Gives G w.text G' ∧
        Waiting G' base first more w ∧ G'.Backward ∧
        G'.length = G.length + (more.length / 2 + 1) ∧ ∃ H, G' = G ++ H := by
  -- The induction takes an exponent and the next pair at a time.
  induction base, first, more using pairedLatex.induct generalizing previous G with
  | case1 base first =>
    have hrun : IsRun first.text [] := isRun_atom first (by simp)
    exact ⟨[.hit G.length], _, gives_pair previous hbase hrun (gives_passed Pattern.misses_nil _),
      .alone (holds_concat G base first), backward_pair base first hG, by simp, _, rfl⟩
  | case2 base first last =>
    have hmisses {previous : Option Char} : bareExponent.Misses previous ('^' :: last.text) [] :=
      misses_marked_run (fun _ => Atom.isAlphanum_of_mem) (by simp)
    have hchain : chain base [first, last] = (base :: '^' :: first.text) ++ '^' :: last.text := by
      simp [chain]
    have hgives := gives_pair previous hbase (isRun_caret first)
      (gives_passed hmisses (G ++ [plain (Latex.withExponent [base] first.text)]))
    refine ⟨_, _, ?_, .last (holds_concat G base first), backward_pair base first hG, by simp, _,
      rfl⟩
    rw [hchain]
    simpa using hgives
  | case3 base first middle next more ih =>
    obtain ⟨w, G', hgives, hwaiting, hG', hlength, H, rfl⟩ := ih middle.isAlphanum_lastChar
      ((List.getLast? ('^' :: middle.lead)).or (List.getLast? (base :: '^' :: first.text)))
      (backward_pair base first hG)
    have hmisses {previous : Option Char} : bareExponent.Misses previous ('^' :: middle.lead)
        (chain middle.lastChar (next :: more)) := by
      refine misses_marked_run (fun _ => Atom.isAlphanum_of_mem_lead) fun hhead => ?_
      have hlast := middle.isAlphanum_lastChar
      rw [show middle.lastChar = '^' from Option.some.inj hhead] at hlast
      cases hlast
    have hchain : chain base (first :: middle :: next :: more) = (base :: '^' :: first.text) ++
        '^' :: (middle.lead ++ chain middle.lastChar (next :: more)) := by
      rw [chain_cons, tail_chain]
      rfl
    have hpassed := gives_pair previous hbase (isRun_caret first)
      ((Scanner.passes_replacing hmisses).gives hgives)
    refine ⟨_, _, ?_, .pair ((holds_concat G base first).grow H) hwaiting, hG', ?_, _,
      List.append_assoc _ _ _⟩
    · rw [hchain]
      simpa using hpassed
    · rw [hlength]
      simp only [List.length_append, List.length_cons, List.length_nil]
      omega

/-! ## Exponents on markers -/

/-- What stands behind a marker without an exponent: nothing, a marker, or a mark with a marker. -/
inductive Unexponented : Text → Prop
  | nil : Unexponented []
  | marker (k : Nat) (text : Text) : Unexponented (Marker.ofNat k ++ text)
  | mark (k : Nat) (text : Text) : Unexponented ('^' :: (Marker.ofNat k ++ text))

theorem markerExponent_eq_none {text : Text} (h : ∀ rest, text ≠ '_' :: '_' :: 'P' :: 'H' :: rest) :
    markerExponent previous text = none := by
  simp [markerExponent, markerRun?, Marker.read?_ne_lead h]

theorem markerExponent_marker (n : Nat) (rest : Text) :
    markerExponent previous (Marker.ofNat n ++ rest) = (do
      let text ← Text.after? '^' rest
      let (exponent, after) ← (bracedRun? text).or (bareRun? text)
      return .leaving (Marker.ofNat n ++ rest) (Marker.ofNat n, exponent) after) := by
  rw [markerExponent, markerRun?, Marker.read?_ofNat]
  rfl

/-- A marker without an exponent is passed over. -/
theorem misses_marker (n : Nat) (h : Unexponented rest) :
    markerExponent.Misses previous (Marker.ofNat n) rest := by
  have hfront : markerExponent previous (Marker.ofNat n ++ rest) = none := by
    rw [markerExponent_marker]
    cases h with
    | nil => rfl
    | marker k text => rfl
    | mark k text => rfl
  have hletters (text : Text) : rest ≠ 'P' :: 'H' :: text := by
    cases h <;> simp [Marker.ofNat_eq]
  have hunderscore (text : Text) : rest ≠ '_' :: 'P' :: 'H' :: text := by
    cases h <;> simp [Marker.ofNat_eq]
  have hdigits {previous : Option Char} :
      markerExponent.Misses previous (Text.ofNat n) (['_', '_'] ++ rest) := by
    refine Pattern.misses_of_forall fun c hc _ text => markerExponent_eq_none fun rest heq => ?_
    obtain ⟨rfl, -⟩ := List.cons.inj heq
    cases Marker.digit_of_mem_ofNat hc
  rw [Marker.ofNat_eq] at hfront ⊢
  refine ⟨hfront, markerExponent_eq_none (by simp), markerExponent_eq_none (by simp),
    markerExponent_eq_none (by simp), Pattern.misses_append hdigits
      ⟨markerExponent_eq_none ?_, markerExponent_eq_none ?_, Pattern.misses_nil⟩⟩
  · simpa using hletters
  · simpa using hunderscore

/-- The part of a chain that both passes are done with: fragments of the table, perhaps joined by
marks. No marker in it has an exponent when a marker stands behind it. -/
structure Done (G : Table) (done : Marked) : Prop where
  items : ∀ x ∈ done, x = .char '^' ∨ ∃ n < G.length, x = .hit n
  quiet : ∀ (previous : Option Char) (k : Nat) (text : Text),
    markerExponent.Misses previous done.text (Marker.ofNat k ++ text)

namespace Done

variable {G : Table} {done : Marked} {n : Nat}

theorem nil (G : Table) : Done G [] := ⟨by simp, fun _ _ _ => Pattern.misses_nil⟩

theorem grow (h : Done G done) (H : Table) : Done (G ++ H) done where
  items x hx := (h.items x hx).imp_right fun ⟨n, hn, heq⟩ =>
    ⟨n, by rw [List.length_append]; omega, heq⟩
  quiet := h.quiet

theorem marker (h : Done G done) (hn : n < G.length) : Done G (done ++ [.hit n]) where
  items := by
    simp only [List.forall_mem_append, List.forall_mem_singleton]
    exact ⟨h.items, .inr ⟨n, hn, rfl⟩⟩
  quiet previous k text := by
    rw [text_append, text_hit, text_nil, List.append_nil]
    exact Pattern.misses_append (h.quiet previous n _) (misses_marker n (.marker k text))

theorem mark (h : Done G done) (hn : n < G.length) : Done G (done ++ [.hit n, .char '^']) where
  items := by
    simp only [List.forall_mem_append, List.forall_mem_cons]
    exact ⟨h.items, .inr ⟨n, hn, rfl⟩, .inl trivial, by simp⟩
  quiet previous k text := by
    have hmark {previous : Option Char} :
        markerExponent.Misses previous ['^'] (Marker.ofNat k ++ text) :=
      ⟨markerExponent_eq_none (by simp), Pattern.misses_nil⟩
    have htext : Marked.text (done ++ [.hit n, .char '^']) =
        done.text ++ (Marker.ofNat n ++ ['^']) := by simp
    rw [htext]
    exact Pattern.misses_append (by simpa using h.quiet previous n _)
      (Pattern.misses_append (misses_marker n (.mark k text)) hmark)

theorem covers (h : Done G done) : G.Covers done := by
  intro n hn
  obtain ⟨x, hx, heq⟩ := List.mem_filterMap.mp hn
  rcases h.items x hx with rfl | ⟨m, hm, rfl⟩
  · cases heq
  · exact Option.some.inj heq ▸ hm

end Done

theorem hitsAt_markerExponent (k : Nat) {run : Text} (h : IsRun run rest) :
    markerExponent.HitsAt previous (Marker.ofNat k ++ '^' :: run) (Marker.ofNat k, run) rest := by
  have hbraced : bracedRun? (run ++ rest) = none := by
    obtain ⟨c, run, rfl⟩ := List.exists_cons_of_ne_nil h.ne_nil
    have hc : '{' ≠ c := by
      rintro rfl
      cases h.all '{' List.mem_cons_self
    simp [bracedRun?, Text.after?, hc.symm]
  refine ⟨?_, by simp⟩
  rw [List.append_assoc, markerExponent_marker]
  simp [Text.after?, hbraced, bareRun?_append h, Hit.leaving]
  omega

/-- A marker in braces with an exponent. -/
def onMarker (k : Nat) (run : Text) : Marked :=
  .char '{' :: .hit k :: plain ('}' :: '^' :: Latex.braced run)

theorem text_onMarker (k : Nat) (run : Text) :
    (onMarker k run).text = Latex.withExponent (Latex.braced (Marker.ofNat k)) run := by
  simp [onMarker, Latex.withExponent, Latex.braced]

theorem expand_onMarker (G : Table) (k : Nat) (run : Text) :
    G.expand (onMarker k run) = Latex.withExponent (Latex.braced (G.value k)) run := by
  simp [onMarker, Latex.withExponent, Latex.braced]

/-- An exponent on a marker is put aside with it, and the search starts again. -/
theorem gives_onMarker {G G' : Table} {done : Marked} (hdone : Done G done) {k rounds : Nat}
    {run after text : Text} (hrun : IsRun run after)
    (hrest : (collectMarkerExponents rounds
      (done.text ++ Marker.ofNat G.length ++ after)).Gives (G ++ [onMarker k run]) text G') :
    (collectMarkerExponents (rounds + 1)
      (done.text ++ ((Marker.ofNat k ++ '^' :: run) ++ after))).Gives G text G' := by
  have hmisses :
      markerExponent.Misses none done.text ((Marker.ofNat k ++ '^' :: run) ++ after) := by
    rw [List.append_assoc]
    exact hdone.quiet none k _
  have hstore := gives_store (onMarker k run) G
  rw [text_onMarker] at hstore
  rw [collectMarkerExponents, Pattern.find?_pass hmisses,
    Pattern.find?_of_hitsAt (hitsAt_markerExponent k hrun)]
  simp only [Option.map_some, List.append_nil]
  exact hstore.bind hrest

/-- Nothing is left to do when a marker stands at the end. -/
theorem gives_done {G : Table} {done : Marked} (hdone : Done G done) (k rounds : Nat) :
    (collectMarkerExponents rounds (done.text ++ Marker.ofNat k)).Gives G
      (done.text ++ Marker.ofNat k) G := by
  have hquiet := hdone.quiet none k []
  have hmisses : markerExponent.Misses none (done.text ++ Marker.ofNat k) [] :=
    Pattern.misses_append hquiet (misses_marker k .nil)
  rw [collectMarkerExponents_of_find?_none (Pattern.find?_of_misses hmisses)]
  exact gives_pure _ _

theorem covers_onMarker {G : Table} {k : Nat} (hk : k < G.length) (run : Text) :
    G.Covers (onMarker k run) := by
  simpa [Table.Covers, onMarker] using hk

/-- The newest fragment, when an exponent was put on a pair. -/
theorem Holds.value_onMarker {G : Table} {k : Nat} (h : Holds G k base first) (run : Text) :
    Table.value (G ++ [onMarker k run]) G.length =
      Latex.withExponent (Latex.braced (Latex.withExponent [base] first.text)) run := by
  rw [Table.value_concat (covers_onMarker h.lt run), expand_onMarker, h.value]

/-- **What is left behind a marker is put on it.** -/
theorem exists_done {G : Table} {w done : Marked} (h : Waiting G base first more w)
    (hdone : Done G done) (hG : G.Backward) (rounds : Nat)
    (hrounds : (more.length + 1) / 2 ≤ rounds) :
    ∃ (done' : Marked) (k : Nat) (G' : Table),
      (collectMarkerExponents rounds (done.text ++ w.text)).Gives G
          (done'.text ++ Marker.ofNat k) G' ∧
        Done G' done' ∧ k < G'.length ∧ G'.Backward ∧
        G'.length ≤ G.length + (more.length + 1) / 2 ∧
        G'.expand done' ++ G'.value k = G.expand done ++ pairedLatex base first more := by
  induction base, first, more using pairedLatex.induct generalizing G w done rounds with
  | case1 base first =>
    cases h with
    | @alone _ _ k h =>
      refine ⟨done, k, G, ?_, hdone, h.lt, hG, by simp, by rw [h.value, pairedLatex]⟩
      simpa using gives_done hdone k rounds
  | case2 base first last =>
    cases h with
    | @last _ _ _ k h =>
      rw [List.length_singleton] at hrounds
      obtain ⟨rounds, rfl⟩ : ∃ m, rounds = m + 1 := Nat.exists_eq_add_one.mpr (by omega)
      have hgives := gives_done (hdone.grow [onMarker k last.text]) G.length rounds
      refine ⟨done, G.length, _, ?_, hdone.grow _, by simp,
        Becomes.backward_concat hG (covers_onMarker h.lt last.text), by simp, ?_⟩
      · have hrun : IsRun last.text [] := isRun_atom last (by simp)
        have hstep := gives_onMarker hdone hrun (by rwa [List.append_nil])
        simpa using hstep
      · rw [Table.expand_grow hdone.covers, h.value_onMarker, pairedLatex]
  | case3 base first middle next more ih =>
    cases h with
    | @pair _ _ _ _ _ k w h hrest =>
      rw [List.length_cons, List.length_cons] at hrounds
      by_cases hlead : middle.lead = []
      · -- Between two markers there is only a mark, which stays.
        obtain ⟨done', m, G', hgives, hdone', hm, hG', hlength, hexpand⟩ :=
          ih hrest (hdone.mark h.lt) hG rounds (by omega)
        refine ⟨done', m, G', ?_, hdone', hm, hG', by simp only [List.length_cons]; omega, ?_⟩
        · simpa [hlead] using hgives
        · rw [hexpand, pairedLatex, beforePair, if_pos hlead]
          simp [h.value]
      · obtain ⟨rounds, rfl⟩ : ∃ m, rounds = m + 1 := Nat.exists_eq_add_one.mpr (by omega)
        have hrun : IsRun middle.lead w.text := hrest.isRun_lead hlead
        have hlt : G.length < (G ++ [onMarker k middle.lead]).length := by simp
        obtain ⟨done', m, G', hgives, hdone', hm, hG', hlength, hexpand⟩ :=
          ih (hrest.grow [onMarker k middle.lead])
            ((hdone.grow [onMarker k middle.lead]).marker hlt)
            (Becomes.backward_concat hG (covers_onMarker h.lt middle.lead)) rounds (by omega)
        refine ⟨done', m, G', ?_, hdone', hm, hG', ?_, ?_⟩
        · have hstep := gives_onMarker hdone hrun (by simpa using hgives)
          simpa using hstep
        · simp only [List.length_append, List.length_cons, List.length_nil] at hlength ⊢
          omega
        · rw [hexpand, Table.expand_append, Table.expand_grow hdone.covers, Table.expand_hit,
            h.value_onMarker, pairedLatex, beforePair, if_neg hlead]
          simp

/-! ## Compilation -/

theorem isAlphanum_of_mem_chain (hbase : base.isAlphanum = true) {exponents : List Atom} {c : Char}
    (h : c ∈ chain base exponents) : c.isAlphanum = true ∨ c = '^' := by
  rcases List.mem_cons.mp h with rfl | h
  · exact .inl hbase
  · obtain ⟨a, -, hc⟩ := List.mem_flatMap.mp h
    exact (List.mem_cons.mp hc).symm.imp_left Atom.isAlphanum_of_mem

/-- A character that is neither a letter or digit nor a mark is not in a chain. -/
theorem not_mem_chain (hbase : base.isAlphanum = true) {exponents : List Atom} {c : Char}
    (hc : c.isAlphanum = false) (hmark : c ≠ '^') : c ∉ chain base exponents := by
  intro h
  rcases isAlphanum_of_mem_chain hbase h with h | h
  · rw [hc] at h
    cases h
  · exact hmark h

/-- **The two passes over a chain.** -/
theorem gives_runSteps_chain (hbase : base.isAlphanum = true) (first : Atom) (more : List Atom)
    (treat : Treatment) {rounds : Nat} (hrounds : (more.length + 1) / 2 ≤ rounds) :
    ∃ (done : Marked) (k : Nat) (G : Table),
      (Construct.runSteps rounds treat (chain base (first :: more))).Gives []
          (done.text ++ Marker.ofNat k) G ∧
        Done G done ∧ k < G.length ∧ G.Backward ∧ G.length ≤ more.length + 1 ∧
        G.expand done ++ G.value k = pairedLatex base first more := by
  have hsigns : ∀ c ∈ Construct.signs, c ∉ chain base (first :: more) := fun c hc => by
    have key : ∀ c ∈ Construct.signs, c.isAlphanum = false ∧ c ≠ '^' := by decide
    exact not_mem_chain hbase (key c hc).1 (key c hc).2
  have hgrouped : Text.breakOn? "^(" (chain base (first :: more)) = none :=
    Text.breakOn?_of_not_mem (by decide : '(' ∈ ['^', '(']) (hsigns '(' (by decide))
  have hempty : Table.Backward [] := fun k n hn => by simp at hn
  obtain ⟨w, G₁, hpairs, hwaiting, hG₁, hlength₁, -⟩ := exists_waiting hbase first more none hempty
  obtain ⟨done, k, G, hfolds, hdone, hk, hG, hlength, hexpand⟩ :=
    exists_done hwaiting (.nil G₁) hG₁ rounds hrounds
  refine ⟨done, k, G, ?_, hdone, hk, hG, ?_, hexpand⟩
  · rw [Construct.runSteps_of_no_sign hsigns, Construct.exponents,
      collectExponents_of_breakOn?_none hgrouped, pure_bind]
    exact hpairs.bind hfolds
  · rw [List.length_nil] at hlength₁
    omega

/-- A token of name characters and marks, with an underscore in it, is part of a formula. -/
theorem ofToken_script {text : Text} (hchars : ∀ c ∈ text, isNameChar c = true ∨ c = '^')
    (hmem : '_' ∈ text) (next : Option Text) : Segment.ofToken text next = .math text := by
  have hspecial : ∀ c ∈ text, c ∉ "%#&$".toList := fun c hc hspecial => by
    have key : ∀ c ∈ "%#&$".toList, isNameChar c = false ∧ c ≠ '^' := by decide
    rcases hchars c hc with hname | rfl
    · rw [(key c hspecial).1] at hname
      cases hname
    · exact (key '^' hspecial).2 rfl
  have hblank : ¬ Text.isBlankRun text = true := by
    obtain ⟨c, rest, rfl⟩ := List.exists_cons_of_ne_nil (List.ne_nil_of_mem hmem)
    have hc : isBlank c = false := by
      rcases hchars c List.mem_cons_self with hname | rfl
      · exact isBlank_of_isNameChar hname
      · decide
    simp [Text.isBlankRun, hc]
  have hcommand : ¬ (text.head? == some '\\') = true := by
    rw [beq_iff_eq]
    intro hhead
    rcases hchars '\\' (List.mem_of_mem_head? hhead) with hname | heq
    · cases hname
    · cases heq
  rw [Segment.ofToken, if_neg hblank, if_neg hcommand, if_pos (by simp [hmem]),
    Segment.escapeMath_eq_self hspecial]

/-- Markers and marks are one token of a formula. -/
theorem segmentLine_done {G : Table} {done : Marked} (h : Done G done) (k : Nat) (prose : Bool) :
    segmentLine prose (done.text ++ Marker.ofNat k) = done.text ++ Marker.ofNat k := by
  have hchars : ∀ c ∈ done.text ++ Marker.ofNat k, isNameChar c = true ∨ c = '^' := by
    intro c hc
    rcases List.mem_append.mp hc with hc | hc
    · obtain ⟨x, hx, hcx⟩ := List.mem_flatMap.mp hc
      rcases h.items x hx with rfl | ⟨n, -, rfl⟩
      · exact .inr (List.mem_singleton.mp hcx)
      · exact .inl (Marker.nameChar_of_mem_ofNat hcx)
    · exact .inl (Marker.nameChar_of_mem_ofNat hc)
  have hmem : '_' ∈ done.text ++ Marker.ofNat k := by simp [Marker.ofNat_eq]
  generalize done.text ++ Marker.ofNat k = text at hchars hmem ⊢
  have hkind : ∀ c ∈ text, CharKind.of c = .other := fun c hc => by
    rcases hchars c hc with hname | rfl
    · exact kind_of_isNameChar hname
    · decide
  have hsegments : Segment.ofTokens [text] = [.math text] :=
    congrArg ([·]) (ofToken_script hchars hmem none)
  have hrender : Segment.render [.math text] = text := by
    simp [Segment.render, Segment.renderBehind, Segment.renderOne, Segment.operatorGap]
  rw [segmentLine, Segment.ofLine,
    tokenize_eq_singleton_of_kind (List.ne_nil_of_mem hmem) hkind, hsegments]
  cases prose <;> exact hrender

theorem finished_power (hbase : base.isAlphanum = true) (first : Atom)
    (hrest : Symbol.Finished rest) :
    Symbol.Finished (Latex.withExponent [base] first.text ++ rest) := by
  obtain ⟨a, ha⟩ := Atom.exists_text_eq hbase
  have hexponent : Symbol.Finished (first.text ++ (['}'] ++ rest)) :=
    .atom (by simp) (.frame (by decide) hrest)
  have hpower : Symbol.Finished (a.text ++ (['^', '{'] ++ (first.text ++ (['}'] ++ rest)))) :=
    .atom (by simp) (.frame (by decide) hexponent)
  rw [ha] at hpower
  simpa [Latex.withExponent, Latex.braced] using hpower

theorem finished_onPower (hbase : base.isAlphanum = true) (first exponent : Atom)
    (hrest : Symbol.Finished rest) :
    Symbol.Finished (Latex.withExponent (Latex.braced (Latex.withExponent [base] first.text))
      exponent.text ++ rest) := by
  have hexponent : Symbol.Finished (exponent.text ++ (['}'] ++ rest)) :=
    .atom (by simp) (.frame (by decide) hrest)
  have hbraced : Symbol.Finished (['{'] ++ (Latex.withExponent [base] first.text ++
      (['}', '^', '{'] ++ (exponent.text ++ (['}'] ++ rest))))) :=
    .frame (by decide) (finished_power hbase first (.frame (by decide) hexponent))
  simpa [Latex.withExponent, Latex.braced] using hbraced

theorem finished_pairedLatex (hbase : base.isAlphanum = true) (first : Atom) (more : List Atom) :
    Symbol.Finished (pairedLatex base first more) := by
  induction base, first, more using pairedLatex.induct with
  | case1 base first =>
    rw [pairedLatex, ← List.append_nil (Latex.withExponent _ _)]
    exact finished_power hbase first .nil
  | case2 base first last =>
    rw [pairedLatex, ← List.append_nil (Latex.withExponent _ _)]
    exact finished_onPower hbase first last .nil
  | case3 base first middle next more ih =>
    have hmore := ih middle.isAlphanum_lastChar
    rw [pairedLatex, beforePair]
    split
    · have hmark : Symbol.Finished (['^'] ++ pairedLatex middle.lastChar next more) :=
        .frame (by decide) hmore
      simpa using finished_power hbase first hmark
    · rename_i hlead
      obtain ⟨b, hb⟩ := Atom.exists_text_eq_lead hlead
      rw [← hb]
      exact finished_onPower hbase first b hmore

end Script

namespace Expression

open Script

/-- What extraction leaves of a chain. -/
theorem exists_segmented_chain (base : Letter) (first : Atom) (more : List Atom)
    (settings : Settings) (hrounds : (more.length + 1) / 2 ≤ settings.rounds.toNat)
    (hdepth : 1 ≤ settings.depth) :
    ∃ (w : Marked) (G : Table) (kept : List Text),
      segmented settings (chain base.val (first :: more)) = (w.text, ⟨G.texts, kept⟩) ∧
        G.Covers w ∧ G.Backward ∧ G.length ≤ more.length + 1 ∧
        G.expand w = pairedLatex base.val first more := by
  have hbase : base.val.isAlphanum = true := by simp [Char.isAlphanum, base.2]
  obtain ⟨depth, hdepth'⟩ : ∃ depth, settings.depth.toNat = depth + 1 :=
    Nat.exists_eq_add_one.mpr (by omega)
  obtain ⟨done, k, G, hgives, hdone, hk, hG, hlength, hexpand⟩ := gives_runSteps_chain hbase first
    more (Construct.treatment settings.rounds.toNat depth) hrounds
  obtain ⟨kept, hextract⟩ := hgives []
  have hconstants : Symbol.substituteConstants (chain base.val (first :: more)) =
      chain base.val (first :: more) := by
    refine Symbol.substituteConstants_eq_self fun hmath => ?_
    exact not_mem_chain hbase (by decide) (by decide) (hmath.subset (by decide : '.' ∈ _))
  refine ⟨done ++ [.hit k], G, kept, ?_, (hdone.marker hk).covers, hG, hlength,
    by simpa using hexpand⟩
  rw [← Construct.extract_succ, ← hdepth'] at hextract
  have hempty : ({} : Extraction) = ⟨Table.texts [], []⟩ := rfl
  rw [segmented, hconstants, hempty, hextract]
  simpa using segmentLine_done hdone k true

/-- **Chains of bare exponents are paired.**  The first exponent is on the base; of every exponent
between two pairs, the last character carries the next one.  Up to two exponents that is the chain
folded to the left, and for three or more it is not.

That there are at most `10 ^ Fault.digitLimit` exponents makes sure that the number of every marker
is short enough to be read. -/
theorem compile_exponentChain (base : Letter) (first : Atom) (more : List Atom)
    (settings : Settings) (hpasses : (more.length + 1 : Int) ≤ settings.passes)
    (hrounds : (more.length + 1 : Int) ≤ settings.rounds) (hdepth : 1 ≤ settings.depth)
    (hsize : more.length + 1 ≤ 10 ^ Fault.digitLimit) :
    compile settings (chain base.val (first :: more)) =
        .ok (pairedLatex base.val first more, false) ∧
      (pairedLatex base.val first more = foldedLatex base.val first more ↔ more.length ≤ 1) := by
  have hbase : base.val.isAlphanum = true := by simp [Char.isAlphanum, base.2]
  have hfinished := finished_pairedLatex hbase first more
  obtain ⟨w, G, kept, hsegmented, hcovers, hG, hlength, hexpand⟩ :=
    exists_segmented_chain base first more settings (by omega) hdepth
  refine ⟨?_, pairedLatex_eq_foldedLatex_iff hbase⟩
  have hready : G.Ready w := ⟨hcovers, hexpand ▸ hfinished.clear⟩
  rw [compile_eq_expand hsegmented hG hready (hlength.trans hsize) (by omega), hexpand,
    hfinished.symbolPass_eq]

theorem compile_exponentChain_five :
    ((5 : Int) ≤ ({} : Settings).passes ∧ (5 : Int) ≤ ({} : Settings).rounds ∧
      1 ≤ ({} : Settings).depth ∧ 5 ≤ 10 ^ Fault.digitLimit) ∧
    compile {} "x^12^34^5^c^d".toList =
        .ok ("\x7bx^\x7b12\x7d\x7d^\x7b3\x7d4^\x7b5\x7d^c^\x7bd\x7d".toList, false) ∧
      ("\x7bx^\x7b12\x7d\x7d^\x7b3\x7d4^\x7b5\x7d^c^\x7bd\x7d".toList =
        ("\x7b\x7b\x7b\x7bx^\x7b12\x7d\x7d^\x7b34\x7d\x7d^\x7b5\x7d\x7d" ++
          "^\x7bc\x7d\x7d^\x7bd\x7d").toList ↔ 4 ≤ 1) := by
  have hsize : 5 ≤ 10 ^ Fault.digitLimit := Fault.le_pow_digitLimit (by decide)
  refine ⟨⟨by decide, by decide, by decide, hsize⟩, ?_⟩
  exact compile_exponentChain ⟨'x', rfl⟩ (.numeral ⟨['1', '2'], by decide⟩)
    [.numeral ⟨['3', '4'], by decide⟩, .numeral ⟨['5'], by decide⟩, .letter ⟨'c', rfl⟩,
      .letter ⟨'d', rfl⟩] {} (by decide) (by decide) (by decide) hsize

end Expression

end MathNotes
