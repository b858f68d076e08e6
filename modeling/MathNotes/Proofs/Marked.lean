import MathNotes.Fragment.Basic
import MathNotes.Proofs.Scan
import Mathlib.Data.List.Chain
import Mathlib.Data.Option.Basic

/-!
# Marked texts

A line that is being worked on is a text, but it is meant as a sequence of characters and markers.
`Marked` is that sequence and `Marked.text` writes it out.  Two facts make it safe to reason about
sequences while the functions work on texts:

* a text is cut like the sequence it is written from, unless the cut goes through a marker
  (`Marked.split`); where it cannot do so there is a `Seam`;
* if no `P` stands right before an `H` (`Marked.Tidy`), then a marker is found in the text exactly
  where the sequence has one (`Marked.pieces_text`, `Marked.marker_in_text`).
-/

namespace MathNotes

/-! ## Markers -/

namespace Marker

theorem ofNat_eq (n : Nat) :
    Marker.ofNat n = '_' :: '_' :: 'P' :: 'H' :: (Text.ofNat n ++ ['_', '_']) := rfl

theorem digit_of_mem_ofNat {n : Nat} {c : Char} (h : c ∈ Text.ofNat n) : c.isDigit = true :=
  Nat.isDigit_of_mem_toDigits (by decide) (by decide) h

theorem textOfNat_ne_nil (n : Nat) : Text.ofNat n ≠ [] := Nat.toDigits_ne_nil

end Marker

/-- What holds of the first 128 characters by their numbers holds of the characters of ASCII. -/
theorem ascii_forall {P : Char → Prop} (h : ∀ n < 128, P (Char.ofNat n)) {c : Char}
    (hc : c.toNat < 128) : P c := by
  have hP := h c.toNat hc
  rwa [Char.ofNat_toNat] at hP

theorem digit_range {c : Char} (h : c.isDigit = true) : 0x30 ≤ c.toNat ∧ c.toNat < 0x3a := by
  simp only [Char.isDigit, Bool.and_eq_true, decide_eq_true_eq] at h
  obtain ⟨h1, h2⟩ := h
  have h1' : (48 : UInt32).toNat ≤ c.val.toNat := h1
  have h2' : c.val.toNat ≤ (57 : UInt32).toNat := h2
  change 48 ≤ c.val.toNat at h1'
  change c.val.toNat ≤ 57 at h2'
  show 48 ≤ c.val.toNat ∧ c.val.toNat < 58
  omega

theorem alpha_range {c : Char} (h : c.isAlpha = true) :
    (0x41 ≤ c.toNat ∧ c.toNat ≤ 0x5a) ∨ (0x61 ≤ c.toNat ∧ c.toNat ≤ 0x7a) := by
  have hdef : c.isAlpha = (decide (c.val ≥ 'A'.val ∧ c.val ≤ 'Z'.val) ||
    (decide (c.val ≥ 'a'.val) && decide (c.val ≤ 'z'.val))) := rfl
  rw [hdef] at h
  simp only [Bool.or_eq_true, Bool.and_eq_true, decide_eq_true_eq, ge_iff_le,
    UInt32.le_iff_toNat_le] at h
  exact h

theorem isDigit_of_isAlpha {c : Char} (h : c.isAlpha = true) : c.isDigit = false := by
  by_contra hdigit
  have hdigits := digit_range (by simpa using hdigit)
  have hletters := alpha_range h
  omega

theorem isAlpha_of_isDigit {c : Char} (h : c.isDigit = true) : c.isAlpha = false := by
  by_contra halpha
  rw [isDigit_of_isAlpha (by simpa using halpha)] at h
  cases h

theorem decimalValue?_of_isDigit {c : Char} (h : c.isDigit = true) :
    decimalValue? c = some (c.toNat - 0x30) := by
  obtain ⟨h1, h2⟩ := digit_range h
  have hc : (decide (0x30 ≤ c.toNat) && decide (c.toNat < 0x30 + 10)) = true := by
    simp only [Bool.and_eq_true, decide_eq_true_eq]
    omega
  rw [decimalValue?, decimalZeros, List.find?_cons, hc]
  rfl

theorem isDecimal_of_isDigit {c : Char} (h : c.isDigit = true) : isDecimal c = true := by
  rw [isDecimal, decimalValue?_of_isDigit h]
  rfl

theorem isDecimal_underscore : isDecimal '_' = false := by decide +kernel

/-- The number of a fragment is read back from its marker. -/
theorem decimalNumber_ofNat (n : Nat) : decimalNumber (Text.ofNat n) = n := by
  have key : ∀ (digits : List Char) (start : Nat), (∀ c ∈ digits, c.isDigit = true) →
      digits.foldl (fun n c => 10 * n + (decimalValue? c).getD 0) start =
        Nat.ofDigitChars 10 digits start := by
    intro digits
    induction digits with
    | nil => intro start _; rfl
    | cons c digits ih =>
      intro start hd
      have hc := decimalValue?_of_isDigit (hd c List.mem_cons_self)
      rw [List.foldl_cons, Nat.ofDigitChars_cons, ih _ fun d hm => hd d (List.mem_cons_of_mem _ hm),
        hc]
      rfl
  rw [decimalNumber, key _ _ fun c hc => Marker.digit_of_mem_ofNat hc, Text.ofNat]
  exact Nat.ofDigitChars_ten_toDigits

theorem Text.ofNat_injective {m n : Nat} (h : Text.ofNat m = Text.ofNat n) : m = n := by
  rw [← decimalNumber_ofNat m, h, decimalNumber_ofNat]

namespace Marker

/-- Reading a marker: its digits are decimal digits, and it is what its digits write. -/
theorem read?_eq_some_iff {text digits rest : Text} :
    read? text = some (digits, rest) ↔
      text = ofDigits digits ++ rest ∧ digits ≠ [] ∧ ∀ c ∈ digits, isDecimal c = true := by
  constructor
  · intro h
    simp only [read?, Option.bind_eq_bind, Option.bind_eq_some_iff, Option.guard_eq_some',
      Option.pure_def, Option.some.injEq, Prod.mk.injEq] at h
    obtain ⟨body, hbody, -, hne, tail', htail, hdigits, rfl⟩ := h
    rw [isPrefixOf?_eq_some_iff] at hbody htail
    have hsplit := List.takeWhile_append_dropWhile (p := isDecimal) (l := body)
    rw [drop_takeWhile] at htail
    refine ⟨?_, ?_, ?_⟩
    · rw [hbody, ← hsplit, htail, ← hdigits]
      simp [ofDigits]
    · rw [← hdigits]
      simpa using hne
    · intro c hc
      rw [← hdigits] at hc
      exact List.mem_takeWhile_imp hc
  · rintro ⟨rfl, hne, hall⟩
    have hstop : ∀ c ∈ (tail ++ rest).head?, isDecimal c = false := by
      intro c hc
      cases hc
      exact isDecimal_underscore
    have hrun : (digits ++ (tail ++ rest)).takeWhile isDecimal = digits :=
      takeWhile_append_stop hall hstop
    simp only [read?, ofDigits, List.append_assoc, isPrefixOf?_append, Option.bind_eq_bind,
      Option.bind_some, hrun, List.drop_left, Option.pure_def]
    simp [hne]

theorem read?_ofNat (n : Nat) (rest : Text) :
    read? (Marker.ofNat n ++ rest) = some (Text.ofNat n, rest) :=
  read?_eq_some_iff.mpr ⟨rfl, textOfNat_ne_nil n,
    fun _ hc => isDecimal_of_isDigit (digit_of_mem_ofNat hc)⟩

theorem read?_ne_lead {text : Text} (h : ∀ rest, text ≠ '_' :: '_' :: 'P' :: 'H' :: rest) :
    read? text = none := by
  cases hr : read? text with
  | none => rfl
  | some found =>
    obtain ⟨htext, -, -⟩ := read?_eq_some_iff.mp hr
    exact absurd htext (h _)

theorem pattern_eq_none {previous : Option Char} {text : Text} (h : read? text = none) :
    pattern previous text = none := by
  simp [pattern, h]

theorem hitsAt_ofNat (previous : Option Char) (n : Nat) (rest : Text) :
    pattern.HitsAt previous (Marker.ofNat n) (Text.ofNat n) rest := by
  refine ⟨?_, by simp [ofNat_eq]⟩
  rw [pattern, read?_ofNat]
  rfl

theorem nameChar_of_mem_ofNat {n : Nat} {c : Char} (h : c ∈ Marker.ofNat n) :
    isNameChar c = true := by
  rw [ofNat_eq] at h
  simp only [List.mem_cons, List.mem_append, List.not_mem_nil, or_false] at h
  rcases h with rfl | rfl | rfl | rfl | h | rfl | rfl <;> try rfl
  simp [isNameChar, Char.isAlphanum, digit_of_mem_ofNat h]

end Marker

/-! ## Sequences of characters and markers -/

/-- A text whose markers stand apart as items of their own, by their numbers. -/
abbrev Marked := List (Piece Nat)

namespace Marked

/-- A text without markers. -/
def plain (text : Text) : Marked := text.map .char

/-- The text in which each marker is replaced by a value. -/
def fill (value : Nat → Text) (marked : Marked) : Text :=
  marked.flatMap fun
    | .char c => [c]
    | .hit n => value n

/-- The text with its markers written out. -/
def text (marked : Marked) : Text := marked.fill Marker.ofNat

/-- The numbers of the markers, from left to right. -/
def numbers (marked : Marked) : List Nat :=
  marked.filterMap fun
    | .char _ => none
    | .hit n => some n

section Fill

variable (value : Nat → Text)

@[simp] theorem fill_nil : fill value [] = [] := rfl

@[simp] theorem fill_char (c : Char) (w : Marked) :
    fill value (.char c :: w) = c :: fill value w := rfl

@[simp] theorem fill_hit (n : Nat) (w : Marked) :
    fill value (.hit n :: w) = value n ++ fill value w := rfl

@[simp] theorem fill_append (u v : Marked) : fill value (u ++ v) = fill value u ++ fill value v :=
  List.flatMap_append

@[simp] theorem fill_plain (t : Text) : fill value (plain t) = t := by
  induction t with
  | nil => rfl
  | cons c t ih => rw [plain, List.map_cons, fill_char, ← plain, ih]

theorem fill_congr {value' : Nat → Text} {w : Marked}
    (h : ∀ n ∈ w.numbers, value n = value' n) : fill value w = fill value' w := by
  induction w with
  | nil => rfl
  | cons x w ih =>
    cases x with
    | char c => rw [fill_char, fill_char, ih h]
    | hit n =>
      rw [fill_hit, fill_hit, h n List.mem_cons_self,
        ih fun m hm => h m (List.mem_cons_of_mem _ hm)]

end Fill

@[simp] theorem text_nil : text [] = [] := rfl

@[simp] theorem text_char (c : Char) (w : Marked) : text (.char c :: w) = c :: text w := rfl

@[simp] theorem text_hit (n : Nat) (w : Marked) :
    text (.hit n :: w) = Marker.ofNat n ++ text w := rfl

@[simp] theorem text_append (u v : Marked) : text (u ++ v) = text u ++ text v :=
  fill_append _ u v

@[simp] theorem text_plain (t : Text) : text (plain t) = t := fill_plain _ t

@[simp] theorem plain_nil : plain [] = [] := rfl

@[simp] theorem plain_cons (c : Char) (t : Text) : plain (c :: t) = .char c :: plain t := rfl

@[simp] theorem plain_append (s t : Text) : plain (s ++ t) = plain s ++ plain t :=
  List.map_append

@[simp] theorem numbers_nil : numbers [] = [] := rfl

@[simp] theorem numbers_char (c : Char) (w : Marked) : numbers (.char c :: w) = numbers w := rfl

@[simp] theorem numbers_hit (n : Nat) (w : Marked) :
    numbers (.hit n :: w) = n :: numbers w := rfl

@[simp] theorem numbers_append (u v : Marked) : numbers (u ++ v) = numbers u ++ numbers v :=
  List.filterMap_append

@[simp] theorem numbers_plain (t : Text) : numbers (plain t) = [] := by
  induction t with
  | nil => rfl
  | cons c t ih => rw [plain_cons, numbers_char, ih]

/-- What a marker of a text is replaced by stands in the text then. -/
theorem fill_within (value : Nat → Text) {w : Marked} {n : Nat} (hn : n ∈ w.numbers) :
    value n <:+: w.fill value := by
  induction w with
  | nil => cases hn
  | cons x w ih =>
    cases x with
    | char c => exact (ih hn).trans (List.suffix_cons _ _).isInfix
    | hit m =>
      rw [numbers_hit, List.mem_cons] at hn
      rw [fill_hit]
      rcases hn with rfl | hn
      · exact (List.prefix_append _ _).isInfix
      · exact (ih hn).trans (List.suffix_append _ _).isInfix

theorem eq_plain_of_numbers {w : Marked} (h : w.numbers = []) : w = plain w.text := by
  induction w with
  | nil => rfl
  | cons x w ih =>
    cases x with
    | char c => rw [text_char, plain_cons, ← ih h]
    | hit n => simp at h

/-! ## Cutting -/

/-- No marker stands across the place where two texts meet. -/
def Seam (a b : Text) : Prop :=
  ∀ n p s, p ++ s = Marker.ofNat n → p ≠ [] → s ≠ [] → p <:+ a → ¬ s <+: b

/-- **A text is cut like the sequence that it is written from**, where there is a seam. -/
theorem split {w : Marked} {a b : Text} (h : w.text = a ++ b) (hseam : Seam a b) :
    ∃ u v, w = u ++ v ∧ u.text = a ∧ v.text = b := by
  induction w generalizing a with
  | nil =>
    obtain ⟨rfl, rfl⟩ := List.append_eq_nil_iff.mp h.symm
    exact ⟨[], [], rfl, rfl, rfl⟩
  | cons x w ih =>
    -- Past a nonempty item, a seam stays a seam: a suffix of the rest is a suffix of the whole.
    have later : ∀ {t a' : Text}, a = t ++ a' → Seam a' b := by
      rintro t a' rfl n p s hps hp hs hpa hsb
      exact hseam n p s hps hp hs (hpa.trans (List.suffix_append t a')) hsb
    cases a with
    | nil => exact ⟨[], x :: w, rfl, rfl, h⟩
    | cons d a =>
      cases x with
      | char c =>
        rw [text_char, List.cons_append, List.cons.injEq] at h
        obtain ⟨rfl, h⟩ := h
        obtain ⟨u, v, rfl, hu, hv⟩ := ih h (later (t := [c]) rfl)
        exact ⟨.char c :: u, v, rfl, by rw [text_char, hu], hv⟩
      | hit n =>
        rw [text_hit] at h
        rcases List.append_eq_append_iff.mp h with ⟨a', ha, hw⟩ | ⟨s, hn, hb⟩
        · obtain ⟨u, v, rfl, hu, hv⟩ := ih hw (later ha)
          exact ⟨.hit n :: u, v, rfl, by rw [text_hit, hu, ha], hv⟩
        · cases s with
          | nil =>
            rw [List.append_nil] at hn
            exact ⟨[.hit n], w, rfl, by simp [hn], by simpa using hb.symm⟩
          | cons e s =>
            refine absurd ?_ (hseam n (d :: a) (e :: s) hn.symm (by simp) (by simp)
              List.suffix_rfl)
            rw [hb]
            exact List.prefix_append _ _

/-- Where digits with two underscores behind them can be cut in two. -/
theorem digits_split {p s digits : Text} (h : p ++ s = digits ++ ['_', '_']) (hs : s ≠ [])
    (hne : digits ≠ []) (hdigits : ∀ c ∈ digits, c.isDigit = true) :
    (∃ c d t, s = c :: d :: t ∧ c.isDigit = true ∧ isNameChar d = true) ∨
    (p ≠ [] ∧ (∀ c ∈ p, c.isDigit = true) ∧ s = ['_', '_']) ∨
    (∃ t, p = t ++ ['_'] ∧ t ≠ [] ∧ (∀ c ∈ t, c.isDigit = true) ∧ s = ['_']) := by
  rcases List.append_eq_append_iff.mp h with ⟨d, rfl, rfl⟩ | ⟨t, rfl, ht⟩
  · -- The cut stands among the digits or right behind them.
    cases d with
    | nil =>
      rw [List.append_nil] at hne hdigits
      exact .inr (.inl ⟨hne, hdigits, rfl⟩)
    | cons c d =>
      have hc : c.isDigit = true := hdigits c (by simp)
      have hd : ∀ e ∈ d, e.isDigit = true := fun e he => hdigits e (by simp [he])
      refine .inl ⟨c, ?_⟩
      cases d with
      | nil => exact ⟨'_', ['_'], rfl, hc, rfl⟩
      | cons e d =>
        exact ⟨e, _, rfl, hc, by simp [isNameChar, Char.isAlphanum, hd e List.mem_cons_self]⟩
  · -- The cut stands behind the digits, between the two underscores or around them.
    rcases t with _ | ⟨e, _ | ⟨f, t⟩⟩
    · rw [List.append_nil]
      exact .inr (.inl ⟨hne, hdigits, by simpa using ht.symm⟩)
    · simp only [List.cons_append, List.nil_append, List.cons.injEq] at ht
      obtain ⟨rfl, rfl⟩ := ht
      exact .inr (.inr ⟨digits, rfl, hne, hdigits, rfl⟩)
    · simp only [List.cons_append, List.cons.injEq] at ht
      exact absurd (List.append_eq_nil_iff.mp ht.2.2.symm).2 hs

/-- Where a marker can be cut in two. -/
theorem ofNat_split {n : Nat} {p s : Text} (h : p ++ s = Marker.ofNat n) (hp : p ≠ [])
    (hs : s ≠ []) :
    (p = ['_'] ∧ ∃ t, s = '_' :: 'P' :: 'H' :: t) ∨
    (p = ['_', '_'] ∧ ∃ t, s = 'P' :: 'H' :: t) ∨
    (p = ['_', '_', 'P'] ∧ ∃ d t, s = 'H' :: d :: t ∧ d.isDigit = true) ∨
    (∃ c d t, s = c :: d :: t ∧ c.isDigit = true ∧ isNameChar d = true) ∨
    (∃ t, p = '_' :: '_' :: 'P' :: 'H' :: t ∧ t ≠ [] ∧ (∀ c ∈ t, c.isDigit = true) ∧
      s = ['_', '_']) ∨
    (∃ t, p = '_' :: '_' :: 'P' :: 'H' :: (t ++ ['_']) ∧ t ≠ [] ∧ (∀ c ∈ t, c.isDigit = true) ∧
      s = ['_']) := by
  have hdigits : ∀ c ∈ Text.ofNat n, c.isDigit = true := fun _ hc => Marker.digit_of_mem_ofNat hc
  have hne := Marker.textOfNat_ne_nil n
  rw [Marker.ofNat_eq] at h
  generalize Text.ofNat n = digits at h hdigits hne
  rcases p with _ | ⟨a, _ | ⟨b, _ | ⟨c, _ | ⟨d, p⟩⟩⟩⟩
  · exact absurd rfl hp
  · simp only [List.cons_append, List.nil_append, List.cons.injEq] at h
    exact .inl ⟨by simp [h.1], _, h.2⟩
  · simp only [List.cons_append, List.nil_append, List.cons.injEq] at h
    exact .inr (.inl ⟨by simp [h.1, h.2.1], _, h.2.2⟩)
  · simp only [List.cons_append, List.nil_append, List.cons.injEq] at h
    obtain ⟨rfl, rfl, rfl, rfl⟩ := h
    cases digits with
    | nil => exact absurd rfl hne
    | cons d digits =>
      exact .inr (.inr (.inl ⟨rfl, d, _, rfl, hdigits d List.mem_cons_self⟩))
  · simp only [List.cons_append, List.cons.injEq] at h
    obtain ⟨rfl, rfl, rfl, rfl, h⟩ := h
    refine .inr (.inr (.inr ?_))
    rcases digits_split h hs hne hdigits with hinside | ⟨hpne, hp, rfl⟩ | ⟨t, rfl, ht⟩
    · exact .inl hinside
    · exact .inr (.inl ⟨p, rfl, hpne, hp, rfl⟩)
    · exact .inr (.inr ⟨t, rfl, ht⟩)

theorem seam_of_head {a b : Text} (h : ∀ c ∈ b.head?, isNameChar c = false) : Seam a b := by
  intro n p s hps _ hs _ hsb
  cases s with
  | nil => exact absurd rfl hs
  | cons c s =>
    obtain ⟨t, rfl⟩ := hsb
    have hc : isNameChar c = true := Marker.nameChar_of_mem_ofNat (n := n) (by rw [← hps]; simp)
    rw [h c rfl] at hc
    cases hc

theorem seam_of_last {a b : Text} (h : ∀ c ∈ a.getLast?, isNameChar c = false) : Seam a b := by
  intro n p s hps hp _ hpa _
  obtain ⟨t, rfl⟩ := hpa
  obtain ⟨p, c, rfl⟩ := List.eq_nil_or_concat p |>.resolve_left hp
  have hc : isNameChar c = true := Marker.nameChar_of_mem_ofNat (n := n) (by rw [← hps]; simp)
  rw [h c (by simp)] at hc
  cases hc

/-- In front of a letter or digit that a character of no name follows. -/
theorem seam_of_second {a b : Text} {c d : Char} (hc : c ≠ '_') (hd : isNameChar d = false) :
    Seam a (c :: d :: b) := by
  intro n p s hps hp hs _ hsb
  obtain ⟨t, ht⟩ := hsb
  rcases ofNat_split hps hp hs with ⟨-, u, rfl⟩ | ⟨-, u, rfl⟩ | ⟨-, e, u, rfl, he⟩ |
    ⟨e, f, u, rfl, -, hf⟩ | ⟨u, -, -, -, rfl⟩ | ⟨u, -, -, -, rfl⟩ <;>
    simp only [List.cons_append, List.nil_append, List.cons.injEq] at ht
  · exact hc ht.1.symm
  · rw [← ht.2.1] at hd
    cases hd
  · rw [← ht.2.1] at hd
    simp [isNameChar, Char.isAlphanum, he] at hd
  · rw [← ht.2.1, hf] at hd
    cases hd
  · exact hc ht.1.symm
  · exact hc ht.1.symm

/-- In front of a letter that an underscore follows. -/
theorem seam_of_letter_underscore {a b : Text} {c : Char} (hc : c.isAlpha = true) :
    Seam a (c :: '_' :: b) := by
  intro n p s hps hp hs _ hsb
  obtain ⟨t, ht⟩ := hsb
  have hc' : c ≠ '_' := by
    rintro rfl
    cases hc
  rcases ofNat_split hps hp hs with ⟨-, u, rfl⟩ | ⟨-, u, rfl⟩ | ⟨-, e, u, rfl, he⟩ |
    ⟨e, f, u, rfl, he, -⟩ | ⟨u, -, -, -, rfl⟩ | ⟨u, -, -, -, rfl⟩ <;>
    simp only [List.cons_append, List.nil_append, List.cons.injEq] at ht
  · exact hc' ht.1.symm
  · exact absurd ht.2.1 (by decide)
  · rw [ht.2.1] at he
    cases he
  · rw [← ht.1] at hc
    rw [isDigit_of_isAlpha hc] at he
    cases he
  · exact hc' ht.1.symm
  · exact hc' ht.1.symm

/-- Behind a run of letters and digits that something else than the start of a marker precedes. -/
theorem seam_of_run {a run b : Text} {x : Char} (hrun : run ≠ [])
    (hall : ∀ c ∈ run, c.isAlphanum = true) (hx : x.isAlphanum = false)
    (hbefore : x ≠ '_' ∨ a.getLast? ≠ some '_') (hb : ∀ c ∈ b.head?, c.isAlphanum = false) :
    Seam (a ++ x :: run) b := by
  intro n p s hps hp hs hpa hsb
  obtain ⟨t, ht⟩ := hsb
  obtain ⟨u, hu⟩ := hpa
  have hlast : ∀ c ∈ p.getLast?, c.isAlphanum = true := by
    intro c hc
    obtain ⟨p, rfl⟩ := List.getLast?_eq_some_iff.mp hc
    obtain ⟨run, d, rfl⟩ := List.eq_nil_or_concat run |>.resolve_left hrun
    have : c = d := by
      have := congrArg List.getLast? hu
      simpa [List.getLast?_append, List.getLast?_cons] using this
    exact hall c (by simp [this])
  have hhead : ∀ c ∈ s.head?, c.isAlphanum = false := by
    intro c hc
    obtain ⟨s, rfl⟩ := List.head?_eq_some_iff.mp hc
    exact hb c (by rw [← ht]; rfl)
  rcases ofNat_split hps hp hs with ⟨rfl, -⟩ | ⟨-, r, rfl⟩ | ⟨-, e, r, rfl, -⟩ |
    ⟨e, f, r, rfl, he, -⟩ | ⟨r, rfl, hr, hdigits, -⟩ | ⟨r, rfl, -⟩
  · cases hlast '_' rfl
  · cases hhead 'P' rfl
  · cases hhead 'H' rfl
  · have := hhead e rfl
    simp [Char.isAlphanum, he] at this
  · -- Two runs end here, the marker's digits with its letters and the run itself: they are one.
    have hu' : (u ++ ['_']) ++ '_' :: ('P' :: 'H' :: r) = a ++ x :: run := by simpa using hu
    obtain ⟨ha, hx', -⟩ := last_run_unique hu' rfl hx (p := Char.isAlphanum) (by
      intro c hc
      rcases List.mem_cons.mp hc with rfl | hc
      · rfl
      · rcases List.mem_cons.mp hc with rfl | hc
        · rfl
        · simp [Char.isAlphanum, hdigits c hc]) hall
    rcases hbefore with h | h
    · exact h hx'.symm
    · rw [← ha] at h
      simp at h
  · have := hlast '_' (by simp [List.getLast?_cons])
    cases this

/-- In front of an underscore with a bracket, unless the underscore ends a marker. -/
theorem seam_of_underscore_bracket {a b : Text}
    (h : ∀ lead digits, digits ≠ [] → (∀ c ∈ digits, c.isDigit = true) →
      a ++ ['_'] ≠ lead ++ Marker.ofDigits digits) : Seam a ('_' :: '(' :: b) := by
  intro n p s hps hp hs hpa hsb
  obtain ⟨t, ht⟩ := hsb
  obtain ⟨u, rfl⟩ := hpa
  rcases ofNat_split hps hp hs with ⟨-, r, rfl⟩ | ⟨-, r, rfl⟩ | ⟨-, e, r, rfl, -⟩ |
    ⟨e, f, r, rfl, he, -⟩ | ⟨r, -, -, -, rfl⟩ | ⟨r, rfl, hr, hdigits, -⟩
  · simp at ht
  · simp at ht
  · simp at ht
  · simp only [List.cons_append, List.cons.injEq] at ht
    rw [ht.1] at he
    cases he
  · simp at ht
  · exact h u r hr hdigits (by simp [Marker.ofDigits, Marker.lead, Marker.tail])

/-! ## Finding markers -/

/-- No `P` stands right before an `H`, except inside a marker. -/
def Tidy (w : Marked) : Prop := w.IsChain fun x y => ¬(x = .char 'P' ∧ y = .char 'H')

theorem Tidy.tail {x : Piece Nat} {w : Marked} (h : Tidy (x :: w)) : Tidy w := List.IsChain.tail h

theorem Tidy.text_ne_letters {w : Marked} (h : Tidy w) (rest : Text) :
    w.text ≠ 'P' :: 'H' :: rest := by
  intro he
  rcases w with _ | ⟨_ | _, _ | ⟨_ | _, w⟩⟩ <;> simp [Marker.ofNat_eq] at he
  obtain ⟨rfl, rfl, -⟩ := he
  exact (List.isChain_cons_cons.mp h).1 ⟨rfl, rfl⟩

theorem Tidy.text_ne_underscore_letters {w : Marked} (h : Tidy w) (rest : Text) :
    w.text ≠ '_' :: 'P' :: 'H' :: rest := by
  intro he
  rcases w with _ | ⟨_ | _, w⟩ <;> simp [Marker.ofNat_eq] at he
  exact h.tail.text_ne_letters rest he.2

theorem Tidy.char_text_ne_lead {c : Char} {w : Marked} (h : Tidy (.char c :: w)) (rest : Text) :
    c :: w.text ≠ '_' :: '_' :: 'P' :: 'H' :: rest := by
  intro he
  exact h.tail.text_ne_underscore_letters rest (List.cons.inj he).2

/-- A tidy sequence is read back from its text. -/
theorem piecesFrom_text {w : Marked} (h : Tidy w) (previous : Option Char) :
    Pattern.piecesFrom Marker.pattern previous 0 w.text =
      w.map fun
        | .char c => .char c
        | .hit n => .hit (Text.ofNat n) := by
  induction w generalizing previous with
  | nil => rfl
  | cons x w ih =>
    cases x with
    | char c =>
      have hnone : Marker.pattern previous (c :: text w) = none :=
        Marker.pattern_eq_none (Marker.read?_ne_lead h.char_text_ne_lead)
      rw [text_char, Pattern.piecesFrom, hnone, List.map_cons, ← ih h.tail (some c)]
    | hit n =>
      rw [text_hit, Pattern.piecesFrom_of_hitsAt (Marker.hitsAt_ofNat previous n _), List.map_cons,
        ← ih h.tail]

theorem pieces_text {w : Marked} (h : Tidy w) :
    Marker.pattern.pieces w.text =
      w.map fun
        | .char c => .char c
        | .hit n => .hit (Text.ofNat n) :=
  piecesFrom_text h none

/-- The markers of a tidy sequence are those that are found in its text. -/
theorem hits_text {w : Marked} (h : Tidy w) :
    Marker.pattern.hits w.text = w.numbers.map Text.ofNat := by
  rw [Pattern.hits, pieces_text h]
  clear h
  induction w with
  | nil => rfl
  | cons x w ih => cases x <;> simp_all

theorem replace_text {w : Marked} (h : Tidy w) (replacement : Text → Text) :
    Marker.pattern.replace replacement w.text = w.fill fun n => replacement (Text.ofNat n) := by
  rw [Pattern.replace, pieces_text h]
  clear h
  induction w with
  | nil => rfl
  | cons x w ih => cases x <;> simp_all

/-- No marker starts inside another one: its letters would stand behind it. -/
theorem Tidy.not_lead_inside {w : Marked} (h : Tidy w) {n : Nat} {p s : Text}
    (hn : p ++ s = Marker.ofNat n) (hp : p ≠ []) (hs : s ≠ []) (rest : Text) :
    s ++ w.text ≠ '_' :: '_' :: 'P' :: 'H' :: rest := by
  intro heq
  rcases ofNat_split hn hp hs with ⟨-, t, rfl⟩ | ⟨-, t, rfl⟩ | ⟨-, e, t, rfl, -⟩ |
    ⟨e, f, t, rfl, he, -⟩ | ⟨t, -, -, -, rfl⟩ | ⟨t, -, -, -, rfl⟩
  · simp at heq
  · simp at heq
  · simp at heq
  · simp only [List.cons_append, List.cons.injEq] at heq
    rw [heq.1] at he
    cases he
  · simp only [List.cons_append, List.nil_append, List.cons.injEq, true_and] at heq
    exact h.text_ne_letters _ heq
  · simp only [List.cons_append, List.nil_append, List.cons.injEq, true_and] at heq
    exact h.text_ne_underscore_letters _ heq

/-- **A marker that stands in the text of a tidy sequence is one of its items.** -/
theorem marker_in_text {w : Marked} (h : Tidy w) {a digits b : Text}
    (htext : w.text = a ++ (Marker.ofDigits digits ++ b)) (hne : digits ≠ [])
    (hdigits : ∀ c ∈ digits, isDecimal c = true) :
    ∃ (u : Marked) (n : Nat) (v : Marked), w = u ++ .hit n :: v ∧ u.text = a ∧ v.text = b ∧
      digits = Text.ofNat n := by
  induction w generalizing a with
  | nil => simp [Marker.ofDigits, Marker.lead] at htext
  | cons x w ih =>
    cases x with
    | char c =>
      cases a with
      | nil => exact absurd htext (h.char_text_ne_lead _)
      | cons d a =>
        rw [text_char, List.cons_append, List.cons.injEq] at htext
        obtain ⟨rfl, htext⟩ := htext
        obtain ⟨u, n, v, rfl, rfl, rfl, hn⟩ := ih h.tail htext
        exact ⟨.char c :: u, n, v, rfl, rfl, rfl, hn⟩
    | hit n =>
      rw [text_hit] at htext
      rcases List.append_eq_append_iff.mp htext with ⟨a', rfl, hw⟩ | ⟨s, hn, hs⟩
      · obtain ⟨u, m, v, rfl, rfl, rfl, hm⟩ := ih h.tail hw
        exact ⟨.hit n :: u, m, v, rfl, rfl, rfl, hm⟩
      · by_cases ha : a = []
        · -- Both markers start here, so they are the same.
          subst ha
          have hread := Marker.read?_ofNat n (text w)
          rw [htext] at hread
          have hread' := Marker.read?_eq_some_iff.mpr
            ⟨(rfl : Marker.ofDigits digits ++ b = _), hne, hdigits⟩
          rw [List.nil_append, hread', Option.some.injEq, Prod.mk.injEq] at hread
          exact ⟨[], n, w, rfl, rfl, hread.2.symm, hread.1⟩
        · by_cases hsnil : s = []
          · subst hsnil
            rw [List.append_nil] at hn
            rw [List.nil_append] at hs
            obtain ⟨u, m, v, rfl, hu, rfl, hm⟩ := ih (a := []) h.tail (by simpa using hs.symm)
            exact ⟨.hit n :: u, m, v, rfl, by rw [text_hit, hu, hn, List.append_nil], rfl, hm⟩
          · refine absurd ?_ (h.tail.not_lead_inside hn.symm ha hsnil (digits ++ ['_', '_'] ++ b))
            simpa [Marker.ofDigits, Marker.lead, Marker.tail] using hs.symm

end Marked

end MathNotes
