import MathNotes.Page.Html
import MathNotes.Proofs.WrittenOut
import Mathlib.Algebra.Order.BigOperators.Group.List
import Mathlib.Algebra.Order.Ring.Nat

/-!
# Reading a page back

The LaTeX of a line stands in an attribute of its division.  A reader that knows no HTML cuts the
page at every `data-latex="`, takes what stands in front of the next quote, and turns the entities
back into characters (`readBack`).

Escaped text has no quotes, so nothing from the notes ends an attribute or starts a tag
(`quote_not_mem_escape`), and `unescape` is exact (`unescape_escape`).  What the notes can do is to
bring the name of the attribute in front of a quote of the page: an identifier or a LaTeX text that
ends in `data-latex=` looks like the start of another line.  Each of them adds one to what is read
(`length_readBack_page`), and without them exactly the LaTeX of the lines is read
(`readBack_blocks`).
-/

namespace MathNotes

namespace Html

/-! ## Entities -/

/-- HTML with its entities turned back into characters. -/
def unescape : Text → Text
  | '&' :: 'a' :: 'm' :: 'p' :: ';' :: rest => '&' :: unescape rest
  | '&' :: 'l' :: 't' :: ';' :: rest => '<' :: unescape rest
  | '&' :: 'g' :: 't' :: ';' :: rest => '>' :: unescape rest
  | '&' :: '#' :: '3' :: '4' :: ';' :: rest => '"' :: unescape rest
  | '&' :: '#' :: '3' :: '9' :: ';' :: rest => '\'' :: unescape rest
  | c :: rest => c :: unescape rest
  | [] => []

theorem unescape_cons {c : Char} (h : c ≠ '&') (rest : Text) :
    unescape (c :: rest) = c :: unescape rest := by
  rw [unescape] <;> simp [h]

/-- What is written for a character: itself, or an entity. -/
theorem escapeChar_cases (c : Char) :
    (escapeChar c = [c] ∧ c ≠ '&' ∧ c ≠ '"') ∨
      ((escapeChar c).getLast? = some ';' ∧ '"' ∉ escapeChar c ∧
        ∀ rest, unescape (escapeChar c ++ rest) = c :: unescape rest) := by
  unfold escapeChar
  by_cases hand : c = '&'
  · exact .inr (by subst hand; exact ⟨rfl, by decide, fun rest => by simp [unescape]⟩)
  by_cases hless : c = '<'
  · exact .inr (by subst hless; exact ⟨rfl, by decide, fun rest => by simp [unescape]⟩)
  by_cases hgreater : c = '>'
  · exact .inr (by subst hgreater; exact ⟨rfl, by decide, fun rest => by simp [unescape]⟩)
  by_cases hquote : c = '"'
  · exact .inr (by subst hquote; exact ⟨rfl, by decide, fun rest => by simp [unescape]⟩)
  by_cases happostrophe : c = '\''
  · exact .inr (by subst happostrophe; exact ⟨rfl, by decide, fun rest => by simp [unescape]⟩)
  · refine .inl ⟨?_, hand, hquote⟩
    simp [hand, hless, hgreater, hquote, happostrophe]

theorem unescape_escapeChar (c : Char) (rest : Text) :
    unescape (escapeChar c ++ rest) = c :: unescape rest := by
  rcases escapeChar_cases c with ⟨hplain, hand, -⟩ | ⟨-, -, h⟩
  · rw [hplain, List.singleton_append, unescape_cons hand]
  · exact h rest

/-- **Entities are undone exactly.** -/
theorem unescape_escape (text : Text) : unescape (escape text) = text := by
  induction text with
  | nil => rfl
  | cons c text ih =>
    rw [escape, List.flatMap_cons, unescape_escapeChar]
    exact congrArg (c :: ·) ih

/-- Escaped text ends no attribute. -/
theorem quote_not_mem_escape (text : Text) : '"' ∉ escape text := by
  intro h
  obtain ⟨c, -, hc⟩ := List.mem_flatMap.mp h
  rcases escapeChar_cases c with ⟨hplain, -, hquote⟩ | ⟨-, hquote, -⟩
  · rw [hplain, List.mem_singleton] at hc
    exact hquote hc.symm
  · exact hquote hc

/-- A character that is written as itself, and does not end an entity. -/
def IsPlain (c : Char) : Prop := escapeChar c = [c] ∧ c ≠ ';'

instance (c : Char) : Decidable (IsPlain c) := inferInstanceAs (Decidable (_ ∧ _))

theorem escape_append (a b : Text) : escape (a ++ b) = escape a ++ escape b := List.flatMap_append

theorem escape_of_isPlain {word : Text} (h : ∀ c ∈ word, IsPlain c) : escape word = word := by
  rw [escape, List.flatMap_congr fun c hc => (h c hc).1, List.flatMap_singleton']

/-- A plain word at the end of an escaped text was at the end of the text. -/
theorem suffix_escape_iff {word : Text} (h : ∀ c ∈ word, IsPlain c) (text : Text) :
    word <:+ escape text ↔ word <:+ text := by
  constructor
  · intro hsuffix
    induction word using List.reverseRecOn generalizing text with
    | nil => exact List.nil_suffix
    | append_singleton word c ih =>
      obtain ⟨front, hfront⟩ := hsuffix
      rcases List.eq_nil_or_concat text with rfl | ⟨text, d, rfl⟩
      · simp [escape] at hfront
      · rw [List.concat_eq_append] at hfront ⊢
        rw [escape_append, ← List.append_assoc] at hfront
        rcases escapeChar_cases d with ⟨hplain, -, -⟩ | ⟨hlast, -, -⟩
        · rw [show escape [d] = escapeChar d from List.flatMap_singleton _ _, hplain] at hfront
          obtain ⟨hword, hc⟩ := List.append_inj' hfront rfl
          obtain ⟨before, rfl⟩ := ih (fun c hc => h c (by simp [hc])) text ⟨front, hword⟩
          cases hc
          exact ⟨before, by simp⟩
        · -- The last character of an entity is not plain.
          have hend := congrArg List.getLast? hfront
          rw [show escape [d] = escapeChar d from List.flatMap_singleton _ _,
            List.getLast?_concat, List.getLast?_append, hlast] at hend
          exact absurd (Option.some.inj hend) (h c (by simp)).2
  · rintro ⟨front, rfl⟩
    rw [escape_append, escape_of_isPlain h]
    exact List.suffix_append _ _

/-! ## Reading -/

/-- The name of the attribute that holds the LaTeX of a line. -/
def attributeName : Text := "data-latex="

/-- The places in a page where the LaTeX of a line starts. -/
def attributePattern : Pattern Unit :=
  wordPattern (fun _ => false) (fun _ => false) [(attributeName ++ ['"'], ())]

/-- A page in front of the first attribute, and what follows each of them up to the next. -/
def attributes (page : Text) : Text × List (Unit × Text) :=
  Piece.gaps (attributePattern.pieces page)

/-- The value at the front of a text, which goes up to the next quote. -/
def valueOf (text : Text) : Text := unescape (text.takeWhile (· != '"'))

/-- **What is read from a page**: it is cut at every attribute, and what stands behind it is read up
to the next quote. -/
def readBack (page : Text) : List Text := (attributes page).2.map fun piece => valueOf piece.2

theorem quote_not_mem_attributeName : '"' ∉ attributeName := by decide

theorem attributePattern_eq (previous : Option Char) (text : Text) :
    attributePattern previous text = ((attributeName ++ ['"']).isPrefixOf? text).map fun _ =>
      ⟨(), (attributeName ++ ['"']).length⟩ := by
  simp only [attributePattern, wordPattern, Option.any_false, Bool.false_eq_true, if_false,
    List.findSome?_cons, List.findSome?_nil]
  cases (attributeName ++ ['"']).isPrefixOf? text <;> rfl

theorem all_of_quote_not_mem {text : Text} (h : '"' ∉ text) : ∀ c ∈ text, (c != '"') = true :=
  fun _ hc => bne_iff_ne.mpr fun heq => h (heq ▸ hc)

/-- The attribute is found in front of a quote where nothing but its name is. -/
theorem attributePattern_quote {text : Text} (h : '"' ∉ text) (hne : text ≠ attributeName)
    (previous : Option Char) (rest : Text) :
    attributePattern previous (text ++ '"' :: rest) = none := by
  rw [attributePattern_eq, Option.map_eq_none_iff, Option.eq_none_iff_forall_ne_some]
  intro after hafter
  have hparts := congrArg (List.takeWhile (· != '"')) (isPrefixOf?_eq_some_iff.mp hafter)
  rw [List.append_assoc, List.singleton_append,
    takeWhile_append_stop (all_of_quote_not_mem h) (by simp),
    takeWhile_append_stop (all_of_quote_not_mem quote_not_mem_attributeName) (by simp)] at hparts
  exact hne hparts

theorem attributePattern_of_not_mem {text : Text} (h : '"' ∉ text) (previous : Option Char) :
    attributePattern previous text = none := by
  rw [attributePattern_eq, Option.map_eq_none_iff, Option.eq_none_iff_forall_ne_some]
  intro after hafter
  rw [isPrefixOf?_eq_some_iff.mp hafter] at h
  simp at h

theorem piecesFrom_attribute (previous : Option Char) (text : Text) :
    attributePattern.piecesFrom previous 0 text = attributePattern.pieces text := by
  cases text with
  | nil => rfl
  | cons c text =>
    rw [Pattern.pieces, Pattern.piecesFrom, Pattern.piecesFrom, attributePattern_eq previous,
      attributePattern_eq none]

theorem pieces_cons_none {c : Char} {text : Text} (h : attributePattern none (c :: text) = none) :
    attributePattern.pieces (c :: text) = .char c :: attributePattern.pieces text := by
  rw [← piecesFrom_attribute (some c) text, Pattern.pieces, Pattern.piecesFrom, h]

theorem attributes_cons_none {c : Char} {text : Text}
    (h : attributePattern none (c :: text) = none) :
    attributes (c :: text) = (c :: (attributes text).1, (attributes text).2) := by
  rw [attributes, pieces_cons_none h]
  rfl

/-- Without quotes there are no attributes. -/
theorem attributes_of_not_mem {text : Text} (h : '"' ∉ text) : attributes text = (text, []) := by
  induction text with
  | nil => rfl
  | cons c text ih =>
    rw [attributes_cons_none (attributePattern_of_not_mem h none),
      ih fun hmem => h (List.mem_cons_of_mem _ hmem)]

/-- A quote that is not behind the name of the attribute. -/
theorem attributes_quote {text : Text} (h : '"' ∉ text) (hname : ¬attributeName <:+ text)
    (rest : Text) : attributes (text ++ '"' :: rest) =
      (text ++ '"' :: (attributes rest).1, (attributes rest).2) := by
  induction text with
  | nil => exact attributes_cons_none (attributePattern_quote h (by decide) none rest)
  | cons c text ih =>
    have hne : c :: text ≠ attributeName := fun heq => hname ⟨[], heq.symm⟩
    have hnone := attributePattern_quote h hne none rest
    rw [List.cons_append] at hnone ⊢
    rw [attributes_cons_none hnone, ih (fun hmem => h (List.mem_cons_of_mem _ hmem))
      fun hsuffix => hname (hsuffix.trans (List.suffix_cons _ _))]
    rfl

/-- A quote behind the name of the attribute. -/
theorem attributes_name {text : Text} (h : '"' ∉ text) (rest : Text) :
    attributes (text ++ (attributeName ++ '"' :: rest)) =
      (text, ((), (attributes rest).1) :: (attributes rest).2) := by
  induction text with
  | nil =>
    have hhit : attributePattern.HitsAt none (attributeName ++ ['"']) () rest := by
      refine ⟨?_, by simp⟩
      rw [attributePattern_eq, isPrefixOf?_append]
      rfl
    have hpieces := Pattern.piecesFrom_of_hitsAt hhit
    rw [List.append_assoc, List.singleton_append, piecesFrom_attribute, piecesFrom_attribute]
      at hpieces
    rw [List.nil_append, attributes, hpieces]
    rfl
  | cons c text ih =>
    have hmem : '"' ∉ c :: text ++ attributeName := by
      rw [List.mem_append, not_or]
      exact ⟨h, quote_not_mem_attributeName⟩
    have hne : c :: text ++ attributeName ≠ attributeName := by
      intro heq
      have hlength := congrArg List.length heq
      rw [List.length_append, List.length_cons] at hlength
      omega
    have hnone := attributePattern_quote hmem hne none rest
    rw [List.append_assoc, List.cons_append] at hnone
    rw [List.cons_append, attributes_cons_none hnone,
      ih fun hmem => h (List.mem_cons_of_mem _ hmem)]

theorem readBack_of_not_mem {text : Text} (h : '"' ∉ text) : readBack text = [] := by
  rw [readBack, attributes_of_not_mem h]
  rfl

theorem readBack_quote {text : Text} (h : '"' ∉ text) (hname : ¬attributeName <:+ text)
    (rest : Text) :
    readBack (text ++ '"' :: rest) = readBack rest := by
  rw [readBack, attributes_quote h hname]
  rfl

theorem readBack_name {text : Text} (h : '"' ∉ text) (rest : Text) :
    readBack (text ++ (attributeName ++ '"' :: rest)) =
      valueOf (attributes rest).1 :: readBack rest := by
  rw [readBack, attributes_name h]
  rfl

/-- The value of an attribute, when its end is not taken for another one. -/
theorem valueOf_escape {text : Text} (hname : ¬attributeName <:+ text) (rest : Text) :
    valueOf (attributes (escape text ++ '"' :: rest)).1 = text := by
  have hquote := quote_not_mem_escape text
  have hplain : ∀ c ∈ attributeName, IsPlain c := by decide
  rw [attributes_quote hquote (mt (suffix_escape_iff hplain text).mp hname), valueOf,
    takeWhile_append_stop (all_of_quote_not_mem hquote) (by simp), unescape_escape]

/-! ## The text of a page around its lines -/

/-- Whether no quote of a text can be taken for an attribute, whatever stands in front of the
text: between two quotes there is neither the attribute's name at the end, nor so little that the
rest of the name could come from in front. -/
def Settled (text : Text) : Prop :=
  ∀ part ∈ (text.splitOn '"').dropLast, ¬attributeName <:+ part ∧ ¬part <:+ attributeName

instance (text : Text) : Decidable (Settled text) := inferInstanceAs (Decidable (∀ _ ∈ _, _ ∧ _))

theorem not_suffix_append {front part : Text}
    (h : ¬attributeName <:+ part ∧ ¬part <:+ attributeName) : ¬attributeName <:+ front ++ part :=
  fun hsuffix => (List.suffix_or_suffix_of_suffix hsuffix (List.suffix_append front part)).elim
    h.1 h.2

/-- A settled text up to its last quote is passed over. -/
theorem readBack_settled {front text : Text} (hfront : '"' ∉ front)
    (h : Settled (text ++ ['"'])) (rest : Text) :
    readBack (front ++ (text ++ '"' :: rest)) = readBack rest := by
  induction hn : text.length using Nat.strongRecOn generalizing front text with
  | ind n ih =>
    by_cases hquote : '"' ∈ text
    · obtain ⟨part, text, rfl, hpart⟩ := List.eq_append_cons_of_mem hquote
      rw [Settled, List.append_assoc, List.cons_append, Text.splitOn_append hpart,
        List.dropLast_cons_of_ne_nil (Text.splitOn_ne_nil _), List.forall_mem_cons] at h
      have hmem : '"' ∉ front ++ part := by
        rw [List.mem_append, not_or]
        exact ⟨hfront, hpart⟩
      have hlt : text.length < n := by
        rw [← hn, List.length_append, List.length_cons]
        omega
      rw [List.append_assoc, List.cons_append, ← List.append_assoc front,
        readBack_quote hmem (not_suffix_append h.1)]
      exact ih text.length hlt List.not_mem_nil h.2 rfl
    · rw [Settled, Text.splitOn_append hquote] at h
      have hmem : '"' ∉ front ++ text := by
        rw [List.mem_append, not_or]
        exact ⟨hfront, hquote⟩
      rw [← List.append_assoc, readBack_quote hmem]
      exact not_suffix_append (h text (by simp [Text.splitOn]))

/-- A text that is passed over: behind it some text without quotes is left. -/
def Skips (text : Text) : Prop :=
  ∀ front, '"' ∉ front → ∃ left, '"' ∉ left ∧
    ∀ rest, readBack (front ++ (text ++ rest)) = readBack (left ++ rest)

theorem Skips.append {a b : Text} (ha : Skips a) (hb : Skips b) : Skips (a ++ b) := by
  intro front hfront
  obtain ⟨left, hleft, hskip⟩ := ha front hfront
  obtain ⟨left', hleft', hskip'⟩ := hb left hleft
  refine ⟨left', hleft', fun rest => ?_⟩
  rw [List.append_assoc, hskip, hskip']

theorem skips_of_not_mem {text : Text} (h : '"' ∉ text) : Skips text := by
  intro front hfront
  refine ⟨front ++ text, ?_, fun rest => by rw [List.append_assoc]⟩
  rw [List.mem_append, not_or]
  exact ⟨hfront, h⟩

theorem skips_escape (text : Text) : Skips (escape text) :=
  skips_of_not_mem (quote_not_mem_escape text)

theorem splitOn_append_cons (separator : Char) (a b : Text) :
    Text.splitOn separator (a ++ separator :: b) =
      Text.splitOn separator a ++ Text.splitOn separator b := by
  induction a with
  | nil =>
    rw [List.nil_append, Text.splitOn.eq_2, if_pos (beq_self_eq_true _)]
    rfl
  | cons c a ih =>
    rw [List.cons_append, Text.splitOn, Text.splitOn, ih]
    split
    · rfl
    · cases hparts : Text.splitOn separator a with
      | nil => exact absurd hparts (Text.splitOn_ne_nil a)
      | cons part parts => rfl

theorem Settled.skips {text : Text} (h : Settled text) : Skips text := by
  by_cases hquote : '"' ∈ text
  · -- The last quote is the first one from the end.
    obtain ⟨back, front, hreverse, hback⟩ :=
      List.eq_append_cons_of_mem (List.mem_reverse.mpr hquote)
    obtain rfl : text = front.reverse ++ '"' :: back.reverse := by
      rw [← List.reverse_reverse text, hreverse]
      simp
    have hlast : '"' ∉ back.reverse := mt List.mem_reverse.mp hback
    have hsettled : Settled (front.reverse ++ ['"']) := by
      rw [Settled, splitOn_append_cons, Text.splitOn_of_not_mem hlast, List.dropLast_concat] at h
      rwa [Settled, splitOn_append_cons, Text.splitOn, List.dropLast_concat]
    refine fun lead hlead => ⟨back.reverse, hlast, fun rest => ?_⟩
    rw [List.append_assoc, List.cons_append, readBack_settled hlead hsettled]
  · exact skips_of_not_mem hquote

/-! ## Lines -/

/-- Lines, each behind a line feed. -/
def lined (parts : List Text) : Text := parts.flatMap ('\n' :: ·)

theorem lined_append (a b : List Text) : lined (a ++ b) = lined a ++ lined b := List.flatMap_append

theorem lined_eq_cons_join {parts : List Text} (h : parts ≠ []) :
    lined parts = '\n' :: Text.join "\n" parts := by
  induction parts with
  | nil => exact absurd rfl h
  | cons part parts ih =>
    cases parts with
    | nil => simp [Text.join, lined]
    | cons next parts =>
      have hjoin : Text.join "\n" (part :: next :: parts) =
          part ++ '\n' :: Text.join "\n" (next :: parts) := by
        simp [Text.join, List.intercalate_cons_cons]
      rw [hjoin, ← ih (List.cons_ne_nil _ _)]
      rfl

/-- The text of a shown line in front of its identifier. -/
def lead (kind : LineKind) : Text :=
  '\n' :: "    <div class=\"math-line math-" ++ kind.name ++ "\" id="

/-- The number of a line, if numbers are shown. -/
def numeral (lineNumbers : Bool) (number : Option Nat) : Text :=
  if lineNumbers then "<span class=\"line-number\">" ++ number.elim [] Text.ofNat ++ "</span>"
  else []

/-- The text of a shown line between its identifier and its LaTeX. -/
def middle (lineNumbers : Bool) (number : Option Nat) : Text :=
  ">" ++ '\n' :: (numeral lineNumbers number ++ "      <div class=\"math-body\" ")

/-- The text of a shown line behind its LaTeX. -/
def tail : Text := "></div>" ++ '\n' :: "    </div>"

/-- The division of a line that is shown, however its literal parts are written. -/
theorem division_of_ne_empty {line : NumberedLine} (h : line.kind ≠ .empty) (lineNumbers : Bool)
    {id opened body closed : Text} (hid : id = "\" id=\"") (hopened : opened = "\">")
    (hbody : body = "      <div class=\"math-body\" data-latex=\"")
    (hclosed : closed = "\"></div>") :
    division lineNumbers line =
      ["    <div class=\"math-line math-" ++ line.kind.name ++ id ++ escape line.id ++ opened,
        numeral lineNumbers line.number ++ body ++ escape line.latex ++ closed, "    </div>"] := by
  subst hid hopened hbody hclosed
  obtain ⟨id, latex, kind, number⟩ := line
  cases kind with
  | empty => exact absurd rfl h
  | _ => rfl

theorem lined_division_shown {line : NumberedLine} (h : line.kind ≠ .empty) (lineNumbers : Bool) :
    lined (division lineNumbers line) =
      lead line.kind ++ '"' :: (escape line.id ++ '"' :: (middle lineNumbers line.number ++
        (attributeName ++ '"' :: (escape line.latex ++ '"' :: tail)))) := by
  have hid : ("\" id=" : Text) ++ ['"'] = "\" id=\"" := by decide
  have hopened : '"' :: (">" : Text) = "\">" := by decide
  have hbody : "      <div class=\"math-body\" " ++ (attributeName ++ ['"']) =
      ("      <div class=\"math-body\" data-latex=\"" : Text) := by decide
  have hclosed : '"' :: ("></div>" : Text) = "\"></div>" := by decide
  rw [division_of_ne_empty h lineNumbers hid hopened hbody hclosed]
  unfold lined lead middle tail
  generalize ("    <div class=\"math-line math-" : Text) = a, ("\" id=" : Text) = b,
    ("      <div class=\"math-body\" " : Text) = c, ("></div>" : Text) = d,
    ("    </div>" : Text) = e, (">" : Text) = f
  simp

/-- The text of a line without LaTeX in front of its identifier. -/
def gapLead : Text := '\n' :: "    <div class=\"math-gap\" id="

theorem division_of_empty {line : NumberedLine} (h : line.kind = .empty) (lineNumbers : Bool)
    {lead closed : Text} (hlead : lead = "    <div class=\"math-gap\" id=\"")
    (hclosed : closed = "\"></div>") :
    division lineNumbers line = [lead ++ escape line.id ++ closed] := by
  subst hlead hclosed
  rw [division, h]

theorem lined_division_gap {line : NumberedLine} (h : line.kind = .empty) (lineNumbers : Bool) :
    lined (division lineNumbers line) =
      gapLead ++ '"' :: (escape line.id ++ '"' :: "></div>".toList) := by
  have hlead : ("    <div class=\"math-gap\" id=" : Text) ++ ['"'] =
      "    <div class=\"math-gap\" id=\"" := by decide
  have hclosed : '"' :: ("></div>" : Text) = "\"></div>" := by decide
  rw [division_of_empty h lineNumbers hlead hclosed]
  unfold lined gapLead
  generalize ("    <div class=\"math-gap\" id=" : Text) = a, ("></div>" : Text) = b
  simp

theorem settled_lead (kind : LineKind) : Settled (lead kind ++ ['"']) := by
  cases kind <;> decide

theorem settled_gapLead : Settled (gapLead ++ ['"']) := by decide

theorem skips_numeral (lineNumbers : Bool) (number : Option Nat) :
    Skips (numeral lineNumbers number) := by
  have hopened : Settled "<span class=\"line-number\">" := by decide
  have hclosed : Settled "</span>" := by decide
  have hdigits : '"' ∉ number.elim [] Text.ofNat := by
    cases number with
    | none => exact List.not_mem_nil
    | some n => exact fun hmem => absurd (Marker.digit_of_mem_ofNat hmem) (by decide)
  rw [numeral]
  split
  · exact (hopened.skips.append (skips_of_not_mem hdigits)).append hclosed.skips
  · exact skips_of_not_mem List.not_mem_nil

theorem skips_middle (lineNumbers : Bool) (number : Option Nat) :
    Skips (middle lineNumbers number) := by
  have hopened : Settled (">" ++ ['\n']) := by decide
  have hbody : Settled "      <div class=\"math-body\" " := by decide
  rw [middle, List.append_cons]
  exact hopened.skips.append ((skips_numeral lineNumbers number).append hbody.skips)

/-! ## What the lines of a page give -/

/-- One for a text that looks like the name of the attribute where a quote follows it. -/
def misread (text : Text) : Nat := if attributeName <:+ text then 1 else 0

theorem readBack_escape {text : Text} (h : ¬attributeName <:+ text) (rest : Text) :
    readBack (escape text ++ '"' :: rest) = readBack rest :=
  readBack_quote (quote_not_mem_escape text) (mt (suffix_escape_iff (by decide) text).mp h) rest

theorem length_readBack_escape (text rest : Text) :
    (readBack (escape text ++ '"' :: rest)).length = misread text + (readBack rest).length := by
  rw [misread]
  split
  · rename_i hsuffix
    obtain ⟨front, rfl⟩ := hsuffix
    rw [escape_append, @escape_of_isPlain attributeName (by decide), List.append_assoc,
      readBack_name (quote_not_mem_escape front), List.length_cons, Nat.add_comm]
  · rename_i hsuffix
    rw [readBack_escape hsuffix, Nat.zero_add]

section Line

variable {front : Text} (hfront : '"' ∉ front) (lineNumbers : Bool) {line : NumberedLine}
include hfront

/-- A line without LaTeX: its identifier is passed over. -/
theorem readBack_gap (h : line.kind = .empty) (rest : Text) :
    readBack (front ++ (lined (division lineNumbers line) ++ rest)) =
      readBack (escape line.id ++ '"' :: ("></div>".toList ++ rest)) := by
  rw [lined_division_gap h, List.append_assoc, List.cons_append,
    readBack_settled hfront settled_gapLead, List.append_assoc, List.cons_append]

/-- A shown line: its LaTeX is found behind its identifier. -/
theorem readBack_shown (h : line.kind ≠ .empty) (rest : Text) : ∃ found : Text → Text,
    (∀ behind, readBack (found behind) =
      valueOf (attributes behind).1 :: readBack behind) ∧
    readBack (front ++ (lined (division lineNumbers line) ++ rest)) =
      readBack (escape line.id ++ '"' :: found (escape line.latex ++ '"' :: (tail ++ rest))) := by
  obtain ⟨left, hleft, hskip⟩ := skips_middle lineNumbers line.number [] List.not_mem_nil
  refine ⟨fun behind => middle lineNumbers line.number ++ (attributeName ++ '"' :: behind),
    fun behind => ?_, ?_⟩
  · have hmiddle := hskip (attributeName ++ '"' :: behind)
    rw [List.nil_append] at hmiddle
    rw [hmiddle, readBack_name hleft]
  · rw [lined_division_shown h, List.append_assoc, List.cons_append,
      readBack_settled hfront (settled_lead line.kind)]
    simp only [List.append_assoc, List.cons_append]

end Line

/-- A line from which its LaTeX is read, and nothing else: neither its identifier nor, if it is
shown, its LaTeX looks like the name of the attribute at its end. -/
def Readable (line : OutputLine) : Prop :=
  ¬attributeName <:+ line.id ∧ (LineKind.of line ≠ .empty → ¬attributeName <:+ line.latex)

/-- How much is read from a line beyond its LaTeX. -/
def excess (line : OutputLine) : Nat :=
  misread line.id + if LineKind.of line = .empty then 0 else misread line.latex

theorem excess_eq_zero_iff {line : OutputLine} : excess line = 0 ↔ Readable line := by
  unfold excess misread Readable
  by_cases hkind : LineKind.of line = .empty <;> by_cases hid : attributeName <:+ line.id <;>
    simp [hkind, hid]

/-- The LaTeX of the lines that are shown. -/
def shownLatex (lines : List OutputLine) : List Text :=
  (lines.filter (LineKind.of · ≠ .empty)).map (·.latex)

/-- A line with a number. -/
def numbered (line : OutputLine) (count : Nat) : NumberedLine :=
  ⟨line.id, line.latex, LineKind.of line,
    if LineKind.of line = .math then some (count + 1) else none⟩

theorem numbered_id (line : OutputLine) (count : Nat) : (numbered line count).id = line.id := rfl

theorem numbered_latex (line : OutputLine) (count : Nat) :
    (numbered line count).latex = line.latex := rfl

theorem numberFrom_cons (count : Nat) (line : OutputLine) (lines : List OutputLine) :
    ∃ next, numberFrom count (line :: lines) = numbered line count :: numberFrom next lines := by
  by_cases hmath : LineKind.of line = .math
  · exact ⟨count + 1, by simp [numberFrom, numbered, hmath]⟩
  · exact ⟨count, by simp [numberFrom, numbered, hmath]⟩

section Lines

variable {rest : Text} (hrest : ∀ left, '"' ∉ left → readBack (left ++ rest) = [])
  (lineNumbers : Bool)
include hrest

theorem length_readBack_blocks (lines : List OutputLine) (count : Nat) {front : Text}
    (hfront : '"' ∉ front) :
    (readBack (front ++
        (lined ((numberFrom count lines).flatMap (division lineNumbers)) ++ rest))).length =
      (shownLatex lines).length + (lines.map excess).sum := by
  induction lines generalizing count front with
  | nil => exact congrArg List.length (hrest front hfront)
  | cons line lines ih =>
    obtain ⟨next, hnumber⟩ := numberFrom_cons count line lines
    rw [hnumber, List.flatMap_cons, lined_append, List.append_assoc, List.map_cons, List.sum_cons,
      excess]
    by_cases hkind : LineKind.of line = .empty
    · have hnumbered : (numbered line count).kind = .empty := hkind
      have hshown : shownLatex (line :: lines) = shownLatex lines := by simp [shownLatex, hkind]
      rw [readBack_gap hfront lineNumbers hnumbered, length_readBack_escape,
        ih next (by decide), if_pos hkind, hshown, numbered_id]
      omega
    · have hshown : shownLatex (line :: lines) = line.latex :: shownLatex lines := by
        simp [shownLatex, hkind]
      have hnumbered : (numbered line count).kind ≠ .empty := hkind
      obtain ⟨found, hfound, hline⟩ := readBack_shown hfront lineNumbers hnumbered
        (lined ((numberFrom next lines).flatMap (division lineNumbers)) ++ rest)
      rw [hline, length_readBack_escape, hfound, List.length_cons, length_readBack_escape,
        ih next (by decide), if_neg hkind, hshown, List.length_cons, numbered_id, numbered_latex]
      omega

/-- **From readable lines exactly their LaTeX is read.** -/
theorem readBack_blocks {lines : List OutputLine} (h : ∀ line ∈ lines, Readable line) (count : Nat)
    {front : Text} (hfront : '"' ∉ front) :
    readBack (front ++
        (lined ((numberFrom count lines).flatMap (division lineNumbers)) ++ rest)) =
      shownLatex lines := by
  induction lines generalizing count front with
  | nil => exact hrest front hfront
  | cons line lines ih =>
    obtain ⟨⟨hid, hlatex⟩, hlines⟩ := List.forall_mem_cons.mp h
    obtain ⟨next, hnumber⟩ := numberFrom_cons count line lines
    rw [hnumber, List.flatMap_cons, lined_append, List.append_assoc]
    by_cases hkind : LineKind.of line = .empty
    · have hnumbered : (numbered line count).kind = .empty := hkind
      have hshown : shownLatex (line :: lines) = shownLatex lines := by simp [shownLatex, hkind]
      rw [readBack_gap hfront lineNumbers hnumbered, numbered_id, readBack_escape hid,
        ih hlines next (by decide), hshown]
    · have hshown : shownLatex (line :: lines) = line.latex :: shownLatex lines := by
        simp [shownLatex, hkind]
      have hnumbered : (numbered line count).kind ≠ .empty := hkind
      obtain ⟨found, hfound, hline⟩ := readBack_shown hfront lineNumbers hnumbered
        (lined ((numberFrom next lines).flatMap (division lineNumbers)) ++ rest)
      rw [hline, numbered_id, readBack_escape hid, hfound, numbered_latex,
        valueOf_escape (hlatex hkind), readBack_escape (hlatex hkind), ih hlines next (by decide),
        hshown]

end Lines

/-! ## Pages -/

theorem skips_lined {parts : List Text} (h : ∀ part ∈ parts, Skips ('\n' :: part)) :
    Skips (lined parts) := by
  induction parts with
  | nil => exact skips_of_not_mem List.not_mem_nil
  | cons part parts ih =>
    obtain ⟨hpart, hparts⟩ := List.forall_mem_cons.mp h
    exact hpart.append (ih hparts)

theorem skips_lined_append {a b : List Text} (ha : Skips (lined a)) (hb : Skips (lined b)) :
    Skips (lined (a ++ b)) := by
  rw [lined_append]
  exact ha.append hb

theorem skips_lined_of_settled {parts : List Text} (h : ∀ part ∈ parts, Settled ('\n' :: part)) :
    Skips (lined parts) :=
  skips_lined fun part hpart => (h part hpart).skips

/-- Literals are read as lists of characters. -/
theorem settled_literal {chars : List Char} (h : Settled ('\n' :: chars)) :
    Settled ('\n' :: (String.ofList chars).toList) := by
  rwa [String.toList_ofList]

/-- Escaped text between two settled ones. -/
theorem skips_between {a b : Text} (ha : Settled a) (text : Text) (hb : Settled b) :
    Skips (a ++ escape text ++ b) :=
  (ha.skips.append (skips_escape text)).append hb.skips

theorem skips_head (title : Text) : Skips (lined (head title)) := by
  have htitle : Skips (('\n' :: "  <title>".toList) ++ escape title ++ "</title>".toList) :=
    skips_between (by decide) title (by decide)
  refine skips_lined ?_
  unfold head
  refine List.forall_mem_cons.mpr ⟨Settled.skips (by decide), ?_⟩
  refine List.forall_mem_cons.mpr ⟨Settled.skips (by decide), ?_⟩
  refine List.forall_mem_cons.mpr ⟨Settled.skips (by decide), ?_⟩
  refine List.forall_mem_cons.mpr ⟨Settled.skips (by decide), ?_⟩
  refine List.forall_mem_cons.mpr ⟨Settled.skips (by decide), ?_⟩
  refine List.forall_mem_cons.mpr ⟨htitle, ?_⟩
  exact List.forall_mem_cons.mpr ⟨Settled.skips (by decide), List.forall_mem_singleton.mpr
    (Settled.skips (by decide))⟩

theorem skips_byline (today : Text) (details : PageDetails) :
    Skips (lined (byline today details)) := by
  have hdate : ∀ author : Text, Skips author → Skips ('\n' :: (author ++
      "      <time class=\"doc-date\">".toList ++ escape (details.shownDate today) ++
      "</time>".toList)) := by
    intro author hauthor
    have hfeed : Skips ['\n'] := skips_of_not_mem (by decide)
    have hdate : Skips ("      <time class=\"doc-date\">".toList ++
        escape (details.shownDate today) ++ "</time>".toList) :=
      skips_between (by decide) _ (by decide)
    simpa only [List.singleton_append, List.append_assoc] using hfeed.append (hauthor.append hdate)
  refine skips_lined ?_
  unfold byline
  refine List.forall_mem_cons.mpr ⟨Settled.skips (by decide), ?_⟩
  refine List.forall_mem_cons.mpr ⟨hdate _ ?_, List.forall_mem_singleton.mpr
    (Settled.skips (by decide))⟩
  cases PageDetails.given details.author with
  | none => exact skips_of_not_mem List.not_mem_nil
  | some author => exact skips_between (by decide) author (by decide +kernel)

set_option maxRecDepth 2000 in
theorem skips_styleSheet : Skips (lined styleSheet) := by
  refine skips_lined_of_settled ?_
  simp only [styleSheet, List.forall_mem_cons, List.not_mem_nil, false_implies, implies_true,
    and_true]
  and_intros <;> exact settled_literal (by decide)

theorem skips_top (darkMode : Bool) : Skips (lined (top darkMode)) :=
  skips_lined_of_settled (by cases darkMode <;> decide)

/-- The lines of a page in front of its notes. -/
def opening (today : Text) (details : PageDetails) : List Text :=
  head details.shownTitle ++ styleSheet ++ top details.darkMode ++
    ["    <h1>" ++ escape details.shownTitle ++ "</h1>"] ++ byline today details ++
    ["  </header>".toList, "  <main class=\"doc-body\">"]

/-- The lines of a page behind its notes. -/
def closing : List Text := "  </main>".toList :: script

theorem skips_opening (today : Text) (details : PageDetails) :
    Skips (lined (opening today details)) := by
  have htitle : Skips (('\n' :: "    <h1>".toList) ++ escape details.shownTitle ++
      "</h1>".toList) :=
    skips_between (by decide) details.shownTitle (by decide)
  refine skips_lined_append (skips_lined_append (skips_lined_append (skips_lined_append
    (skips_lined_append (skips_head _) skips_styleSheet) (skips_top _)) ?_)
    (skips_byline today details)) (skips_lined_of_settled (by decide))
  exact skips_lined (List.forall_mem_singleton.mpr htitle)

theorem readBack_closing {left : Text} (h : '"' ∉ left) :
    readBack (left ++ lined closing) = [] := by
  have hsettled : ∀ part ∈ closing, Settled ('\n' :: part) := by
    simp only [closing, script, List.forall_mem_cons, List.not_mem_nil, false_implies,
      implies_true, and_true]
    and_intros <;> exact settled_literal (by decide)
  obtain ⟨left', hleft', hskip⟩ := skips_lined_of_settled hsettled left h
  have hend := hskip []
  rwa [List.append_nil, List.append_nil, readBack_of_not_mem hleft'] at hend

theorem readBack_feed (text : Text) : readBack ('\n' :: text) = readBack text := by
  have hnone : attributePattern none ('\n' :: text) = none := by
    rw [attributePattern_eq, Option.map_eq_none_iff, Option.eq_none_iff_forall_ne_some]
    intro after hafter
    have hhead := congrArg List.head? (isPrefixOf?_eq_some_iff.mp hafter)
    rw [List.append_assoc, List.head?_append_of_ne_nil _ (by decide), List.head?_cons] at hhead
    exact absurd hhead (by decide)
  rw [readBack, attributes_cons_none hnone]
  rfl

/-- A page is read behind its opening. -/
theorem readBack_page (today : Text) (details : PageDetails) (lines : List OutputLine) :
    ∃ front, '"' ∉ front ∧ readBack (page today details lines) = readBack (front ++
      (lined ((numberFrom 0 lines).flatMap (division details.lineNumbers)) ++ lined closing)) := by
  obtain ⟨front, hfront, hskip⟩ := skips_opening today details [] List.not_mem_nil
  refine ⟨front, hfront, ?_⟩
  have hpage : page today details lines = Text.join "\n" (opening today details ++
      ((numberFrom 0 lines).flatMap (division details.lineNumbers) ++ closing)) := by
    simp only [page, opening, closing, numberLines, List.append_assoc, List.singleton_append]
  have hne : opening today details ++
      ((numberFrom 0 lines).flatMap (division details.lineNumbers) ++ closing) ≠ [] := by
    simp [closing]
  rw [← hskip, List.nil_append, ← lined_append, ← lined_append, lined_eq_cons_join hne,
    readBack_feed, hpage]

/-- **How much is read from a page.** -/
theorem length_readBack_page (today : Text) (details : PageDetails) (lines : List OutputLine) :
    (readBack (page today details lines)).length =
      (shownLatex lines).length + (lines.map excess).sum := by
  obtain ⟨front, hfront, hpage⟩ := readBack_page today details lines
  rw [hpage, length_readBack_blocks (fun _ => readBack_closing) _ _ _ hfront]

/-- **A page holds the LaTeX of its lines.** Cut at every `data-latex="` and read up to the next
quote, a page gives the LaTeX of the lines that are shown, in their order, whatever its title,
author and date are: this is so exactly if no identifier and no shown LaTeX ends in
`data-latex=`. -/
theorem readBack_page_iff (today : Text) (details : PageDetails) (lines : List OutputLine) :
    readBack (page today details lines) = shownLatex lines ↔ ∀ line ∈ lines, Readable line := by
  constructor
  · intro heq line hline
    have hlength := length_readBack_page today details lines
    rw [heq] at hlength
    have hexcess : (lines.map excess).sum = 0 := by omega
    exact excess_eq_zero_iff.mp
      (List.sum_eq_zero_iff.mp hexcess _ (List.mem_map_of_mem hline))
  · intro h
    obtain ⟨front, hfront, hpage⟩ := readBack_page today details lines
    rw [hpage, readBack_blocks (fun _ => readBack_closing) _ h _ hfront]

/-- An identifier can fake a line. -/
theorem readBack_page_identifier :
    readBack (page "2025-01-02" {} [⟨"data-latex=", "x", 1⟩]) ≠
      shownLatex [⟨"data-latex=", "x", 1⟩] := by
  intro heq
  have hlength := length_readBack_page "2025-01-02" {} [⟨"data-latex=", "x", 1⟩]
  rw [heq] at hlength
  exact absurd hlength (by decide)

end Html

end MathNotes
