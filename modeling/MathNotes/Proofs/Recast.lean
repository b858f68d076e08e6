import MathNotes.Proofs.Table
import MathNotes.Text.Blank

/-!
# Rewriting between the markers

Many functions change a line without touching what it says: they trim it, put words into commands,
escape characters.  What such a function must keep is the *trace* of a line: its markers, its digits
and its characters outside ASCII, white space apart.  `Recasts` says that the trace is kept and that
no `P` gets next to an `H`.
-/

namespace MathNotes

/-! ## Content -/

/-- Whether a character carries content that no command stands for: a digit of ASCII, or a
character outside ASCII that is not white space. -/
def isContent (c : Char) : Bool := c.isDigit || (127 < c.toNat && !isBlank c)

theorem isBlank_of_isDigit {c : Char} (h : c.isDigit = true) : isBlank c = false := by
  obtain ⟨h1, h2⟩ := digit_range h
  simp only [isBlank, blankTable, RangeTable.contains]
  grind

theorem isContent_of_isBlank {c : Char} (h : isBlank c = true) : isContent c = false := by
  have hd : c.isDigit = false := by
    by_contra hd
    rw [isBlank_of_isDigit (by simpa using hd)] at h
    cases h
  simp [isContent, h, hd]

theorem isBlank_of_isAlpha {c : Char} (h : c.isAlpha = true) : isBlank c = false := by
  have hrange := alpha_range h
  simp only [isBlank, blankTable, RangeTable.contains]
  grind

theorem isNameChar_of_isBlank {c : Char} (h : isBlank c = true) : isNameChar c = false := by
  by_contra hn
  rw [Bool.not_eq_false, isNameChar, Char.isAlphanum, Bool.or_eq_true, Bool.or_eq_true,
    beq_iff_eq] at hn
  rcases hn with (hn | hn) | rfl
  · rw [isBlank_of_isAlpha hn] at h
    cases h
  · rw [isBlank_of_isDigit hn] at h
    cases h
  · exact absurd h (by decide)

/-- The content of a text. -/
def Text.content (text : Text) : Text := text.filter isContent

@[simp] theorem Text.content_append (a b : Text) : Text.content (a ++ b) = a.content ++ b.content :=
  List.filter_append ..

@[simp] theorem Text.content_nil : Text.content [] = [] := rfl

theorem Text.content_eq_nil {text : Text} (h : ∀ c ∈ text, isContent c = false) :
    text.content = [] := by
  rw [Text.content, List.filter_eq_nil_iff]
  intro c hc
  simp [h c hc]

theorem Text.content_of_blank {text : Text} (h : ∀ c ∈ text, isBlank c = true) :
    text.content = [] :=
  Text.content_eq_nil fun c hc => isContent_of_isBlank (h c hc)

/-! ## Fixed texts -/

namespace Text

/-- White space only. -/
def Blank (text : Text) : Prop := ∀ c ∈ text, isBlank c = true

theorem isBlankRun_iff {text : Text} : text.isBlankRun = true ↔ text ≠ [] ∧ text.Blank := by
  rw [isBlankRun, Bool.and_eq_true, List.all_eq_true]
  simp [Blank]

/-- No content, and neither letter of a marker. -/
def Inert (text : Text) : Prop := ∀ c ∈ text, isContent c = false ∧ c ≠ 'P' ∧ c ≠ 'H'

theorem inert_append {a b : Text} : Inert (a ++ b) ↔ a.Inert ∧ b.Inert := by
  simp only [Inert, List.mem_append, or_imp]
  exact forall_and

theorem inert_cons {c : Char} {t : Text} :
    Inert (c :: t) ↔ (isContent c = false ∧ c ≠ 'P' ∧ c ≠ 'H') ∧ t.Inert :=
  List.forall_mem_cons

theorem inert_nil : Inert [] := fun _ hc => absurd hc List.not_mem_nil

theorem Blank.inert {t : Text} (h : t.Blank) : t.Inert := by
  intro c hc
  have hb := h c hc
  refine ⟨isContent_of_isBlank hb, ?_, ?_⟩
  · rintro rfl
    exact absurd hb (by decide)
  · rintro rfl
    exact absurd hb (by decide)

theorem Inert.content {t : Text} (h : t.Inert) : t.content = [] :=
  content_eq_nil fun c hc => (h c hc).1

theorem Inert.clear {t : Text} (h : t.Inert) : t.Clear :=
  clear_of_not_mem fun hmem => (h 'P' hmem).2.1 rfl

theorem Inert.head {t : Text} (h : t.Inert) : t.head? ≠ some 'H' :=
  fun he => (h 'H' (List.mem_of_head? he)).2.2 rfl

theorem Inert.last {t : Text} (h : t.Inert) : t.getLast? ≠ some 'P' :=
  fun he => (h 'P' (List.mem_of_getLast? he)).2.1 rfl

instance (t : Text) : Decidable t.Inert := inferInstanceAs (Decidable (∀ c ∈ t, _))

end Text

namespace Marked

/-- The markers of a text and its content. -/
def trace (w : Marked) : Marked :=
  w.filter fun
    | .char c => isContent c
    | .hit _ => true

@[simp] theorem trace_nil : trace [] = [] := rfl

@[simp] theorem trace_append (u v : Marked) : trace (u ++ v) = trace u ++ trace v :=
  List.filter_append ..

@[simp] theorem trace_hit (n : Nat) (w : Marked) : trace (.hit n :: w) = .hit n :: trace w := rfl

theorem trace_char (c : Char) (w : Marked) :
    trace (.char c :: w) = plain (Text.content [c]) ++ trace w := by
  by_cases h : isContent c = true <;> simp [trace, Text.content, h]

@[simp] theorem trace_plain (t : Text) : trace (plain t) = plain t.content := by
  induction t with
  | nil => rfl
  | cons c t ih =>
    rw [plain_cons, trace_char, ih, ← plain_append, ← Text.content_append]
    rfl

theorem numbers_trace (w : Marked) : (trace w).numbers = w.numbers := by
  induction w with
  | nil => rfl
  | cons x w ih =>
    cases x with
    | char c => rw [trace_char, numbers_append, numbers_plain, ih]; rfl
    | hit n => rw [trace_hit, numbers_hit, numbers_hit, ih]

/-- The content of a filled-in text depends on its trace only. -/
theorem content_fill_trace (value : Nat → Text) (w : Marked) :
    (fill value (trace w)).content = (w.fill value).content := by
  induction w with
  | nil => rfl
  | cons x w ih =>
    cases x with
    | char c =>
      rw [trace_char, fill_append, fill_plain, Text.content_append, ih, fill_char]
      by_cases h : isContent c = true <;> simp [Text.content, h]
    | hit n => rw [trace_hit, fill_hit, fill_hit, Text.content_append, ih, Text.content_append]

/-- `w'` says the same as `w` in other words: it has the same markers and content, in the same
order, and no `P` got next to an `H`. -/
structure Recasts (w w' : Marked) : Prop where
  trace : w'.trace = w.trace
  clear : ∀ value : Nat → Text, (w.fill value).Clear → (w'.fill value).Clear

theorem Recasts.refl (w : Marked) : Recasts w w := ⟨rfl, fun _ h => h⟩

theorem Recasts.trans {u v w : Marked} (h₁ : Recasts u v) (h₂ : Recasts v w) : Recasts u w :=
  ⟨h₂.trace.trans h₁.trace, fun value h => h₂.clear value (h₁.clear value h)⟩

theorem Recasts.numbers {w w' : Marked} (h : Recasts w w') : w'.numbers = w.numbers := by
  rw [← numbers_trace w', h.trace, numbers_trace]

theorem Recasts.content {w w' : Marked} (h : Recasts w w') (value : Nat → Text) :
    (w'.fill value).content = (w.fill value).content := by
  rw [← content_fill_trace, h.trace, content_fill_trace]

/-- Whether a character can open a construct or a script, or divide. -/
def isOpener (c : Char) : Bool := "(/<|\x7b^_".toList.contains c

/-- How many characters of a text can open a construct or a script, or divide. -/
def weight (w : Marked) : Nat :=
  w.countP fun
    | .char c => isOpener c
    | .hit _ => false

@[simp] theorem weight_append (u v : Marked) : weight (u ++ v) = weight u + weight v :=
  List.countP_append

@[simp] theorem weight_nil : weight [] = 0 := rfl

theorem weight_pos {t : Text} {c : Char} (hc : c ∈ t) (ho : isOpener c = true) :
    0 < weight (plain t) :=
  List.countP_pos_iff.mpr ⟨.char c, List.mem_map_of_mem hc, ho⟩

/-! ## Trimming -/

/-- A text without the white space at its ends. -/
def Trims (w w' : Marked) : Prop :=
  w'.text = Text.trim w.text ∧
    ∃ x y : Text, w = plain x ++ w' ++ plain y ∧ (∀ c ∈ x, isBlank c = true) ∧
      ∀ c ∈ y, isBlank c = true

theorem Trims.recasts {w w' : Marked} (h : Trims w w') : Recasts w w' := by
  obtain ⟨-, x, y, rfl, hx, hy⟩ := h
  refine ⟨?_, fun value hc => ?_⟩
  · simp [Text.content_of_blank hx, Text.content_of_blank hy]
  · rw [fill_append, fill_append] at hc
    exact hc.left.right

theorem Trims.weight_le {w w' : Marked} (h : Trims w w') : w'.weight ≤ w.weight := by
  obtain ⟨-, x, y, rfl, -, -⟩ := h
  simp only [weight_append]
  omega

end Marked

/-- The white space at the end of a text, cut off. -/
theorem Text.trimRight_append (text : Text) :
    ∃ blanks, text = text.trimRight ++ blanks ∧ ∀ c ∈ blanks, isBlank c = true := by
  refine ⟨(text.reverse.takeWhile isBlank).reverse, ?_, ?_⟩
  · rw [Text.trimRight, ← List.reverse_append, List.takeWhile_append_dropWhile,
      List.reverse_reverse]
  · intro c hc
    exact List.mem_takeWhile_imp (List.mem_reverse.mp hc)

theorem Text.getLast?_trimRight {text : Text} :
    ∀ c ∈ text.trimRight.getLast?, isBlank c = false := by
  rw [trimRight, List.getLast?_reverse]
  exact head?_dropWhile_stops

theorem Text.trimLeft_append (text : Text) :
    ∃ blanks, text = blanks ++ text.trimLeft ∧ ∀ c ∈ blanks, isBlank c = true :=
  ⟨text.takeWhile isBlank, List.takeWhile_append_dropWhile.symm,
    fun _ hc => List.mem_takeWhile_imp hc⟩

theorem Text.trim_infix (text : Text) : Text.trim text <:+: text := by
  obtain ⟨front, hleft, -⟩ := Text.trimLeft_append text
  obtain ⟨back, hright, -⟩ := Text.trimRight_append text.trimLeft
  exact ⟨front, back, by rw [List.append_assoc, Text.trim, ← hright, ← hleft]⟩

namespace Marked

theorem seam_of_blanks_left {a b : Text} (h : ∀ c ∈ a, isBlank c = true) : Seam a b :=
  seam_of_last fun c hc => isNameChar_of_isBlank (h c (List.mem_of_getLast? hc))

theorem seam_of_blanks_right {a b : Text} (h : ∀ c ∈ b, isBlank c = true) : Seam a b :=
  seam_of_head fun c hc => isNameChar_of_isBlank (h c (List.mem_of_head? hc))

/-- A sequence that writes no name characters is a plain text. -/
theorem eq_plain_of_not_name {w : Marked} (h : ∀ c ∈ w.text, c ≠ '_') : w = plain w.text := by
  refine eq_plain_of_numbers ?_
  by_contra hne
  obtain ⟨n, hn⟩ := List.exists_mem_of_ne_nil _ hne
  simp only [numbers, List.mem_filterMap] at hn
  obtain ⟨x, hx, hxn⟩ := hn
  cases x with
  | char c => cases hxn
  | hit m =>
    refine h '_' ?_ rfl
    rw [text, fill, List.mem_flatMap]
    exact ⟨.hit m, hx, by simp [Marker.ofNat_eq]⟩

theorem eq_plain_of_blank {w : Marked} (h : ∀ c ∈ w.text, isBlank c = true) : w = plain w.text :=
  eq_plain_of_not_name fun c hc he => by
    have := h c hc
    rw [he] at this
    exact absurd this (by decide)

theorem exists_trims (w : Marked) : ∃ w', Trims w w' := by
  obtain ⟨x, hx, hxb⟩ := Text.trimLeft_append w.text
  obtain ⟨y, hy, hyb⟩ := Text.trimRight_append w.text.trimLeft
  obtain ⟨u, v, rfl, hu, hv⟩ := split hx (seam_of_blanks_left hxb)
  obtain ⟨b, z, rfl, hb, hz⟩ := split (hv.trans hy) (seam_of_blanks_right hyb)
  refine ⟨b, hb, x, y, ?_, hxb, hyb⟩
  rw [eq_plain_of_blank (w := u) (by rw [hu]; exact hxb), hu,
    eq_plain_of_blank (w := z) (by rw [hz]; exact hyb), hz, List.append_assoc]

end Marked

end MathNotes
