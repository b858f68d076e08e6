import MathNotes.Latex
import MathNotes.Proofs.Marked
import MathNotes.Proofs.SymbolPass

/-!
# Braces

The braces of a text that no backslash escapes form a word (`Text.braces`), and a text is `Balanced`
when this word is.

To follow the braces through a text that is put together from parts, `Text.climb` reads it at any
depth of braces and gives the depth behind it.  A text is `Level` when it leads back to the depth
that it is read at; level texts are balanced (`Text.Level.balanced`).  Where one text may stand for
another without a difference for the depth (`Text.Exchanges`), a line stays level: names and their
commands in finished LaTeX (`Symbol.level_symbolPass`), and markers and level fragments
(`Marked.level_fill`).
-/

namespace MathNotes

namespace Text

/-- The braces of a text that are not escaped. A backslash escapes the character behind it. -/
def braces : Text → Text
  | [] => []
  | '\\' :: _ :: rest => braces rest
  | c :: rest => if c = '{' ∨ c = '}' then c :: braces rest else braces rest

/-- The braces that are not escaped form a balanced word: no prefix of it closes more than it opens,
and the whole closes as many as it opens. -/
structure Balanced (text : Text) : Prop where
  closing_le : ∀ read, read <+: text.braces → read.count '}' ≤ read.count '{'
  closing_eq : text.braces.count '}' = text.braces.count '{'

/-- No brace and no backslash. -/
def Bare (text : Text) : Prop := ∀ c ∈ text, c ≠ '{' ∧ c ≠ '}' ∧ c ≠ '\\'

instance (text : Text) : Decidable text.Bare := inferInstanceAs (Decidable (∀ c ∈ text, _))

theorem bare_append {a b : Text} : Bare (a ++ b) ↔ a.Bare ∧ b.Bare := List.forall_mem_append

theorem bare_cons {c : Char} {text : Text} :
    Bare (c :: text) ↔ (c ≠ '{' ∧ c ≠ '}' ∧ c ≠ '\\') ∧ text.Bare := List.forall_mem_cons

theorem bare_of_isNameChar {text : Text} (h : ∀ c ∈ text, isNameChar c = true) : text.Bare := by
  intro c hc
  refine ⟨?_, ?_, ?_⟩ <;>
  · rintro rfl
    exact absurd (h _ hc) (by decide)

theorem braces_cons {c : Char} (hc : c ≠ '\\') (rest : Text) :
    braces (c :: rest) = if c = '{' ∨ c = '}' then c :: braces rest else braces rest := by
  rw [braces]
  exact fun _ _ h => absurd h hc

/-! ## Depth -/

/-- The depth of braces behind a text that is read at some depth. There is none if a brace closes
nothing, if a backslash ends the text, or if it escapes an underscore, with which a marker could
start. -/
def climb : Nat → Text → Option Nat
  | depth, [] => some depth
  | depth, '\\' :: c :: rest => if c = '_' then none else climb depth rest
  | depth, c :: rest =>
    if c = '\\' then none
    else if c = '{' then climb (depth + 1) rest
    else if c = '}' then if depth = 0 then none else climb (depth - 1) rest
    else climb depth rest

/-- A text that leads back to the depth it is read at, and not below it in between. -/
def Level (text : Text) : Prop := text.climb 0 = some 0

instance (text : Text) : Decidable text.Level := inferInstanceAs (Decidable (_ = _))

theorem climb_escape {c : Char} (hc : c ≠ '_') (depth : Nat) (rest : Text) :
    climb depth ('\\' :: c :: rest) = climb depth rest := if_neg hc

@[simp] theorem climb_opening (depth : Nat) (rest : Text) :
    climb depth ('{' :: rest) = climb (depth + 1) rest := rfl

@[simp] theorem climb_closing (depth : Nat) (rest : Text) :
    climb (depth + 1) ('}' :: rest) = climb depth rest := rfl

theorem climb_char {c : Char} (hc : c ≠ '{' ∧ c ≠ '}' ∧ c ≠ '\\') (depth : Nat) (rest : Text) :
    climb depth (c :: rest) = climb depth rest := by
  rw [climb, if_neg hc.2.2, if_neg hc.1, if_neg hc.2.1]
  exact fun _ _ h => absurd h hc.2.2

variable {a b text : Text} {depth top : Nat}

/-- Texts are read one after the other. -/
theorem climb_append (h : climb depth a = some top) (b : Text) :
    climb depth (a ++ b) = climb top b := by
  fun_induction climb depth a with
  | case1 =>
    cases h
    rfl
  | case2 => cases h
  | case3 depth c rest hc ih => exact (climb_escape hc depth _).trans (ih h)
  | case4 => cases h
  | case5 depth rest _ _ ih => exact ih h
  | case6 => cases h
  | case7 depth rest hpos _ _ _ ih =>
    obtain ⟨below, rfl⟩ := Nat.exists_eq_succ_of_ne_zero hpos
    exact ih h
  | case8 depth c rest _ hescape hopen hclose ih =>
    exact (climb_char ⟨hopen, hclose, hescape⟩ depth _).trans (ih h)

/-- A text that can be read at some depth can be read at any greater depth. -/
theorem climb_add (h : climb depth a = some top) (more : Nat) :
    climb (depth + more) a = some (top + more) := by
  fun_induction climb depth a with
  | case1 =>
    cases h
    rfl
  | case2 => cases h
  | case3 depth c rest hc ih => exact (climb_escape hc _ rest).trans (ih h)
  | case4 => cases h
  | case5 depth rest _ _ ih =>
    rw [climb_opening, Nat.add_right_comm]
    exact ih h
  | case6 => cases h
  | case7 depth rest hpos _ _ _ ih =>
    obtain ⟨below, rfl⟩ := Nat.exists_eq_succ_of_ne_zero hpos
    rw [Nat.succ_add, climb_closing]
    exact ih h
  | case8 depth c rest _ hescape hopen hclose ih =>
    exact (climb_char ⟨hopen, hclose, hescape⟩ _ rest).trans (ih h)

theorem forall_prefix_cons {P : Text → Prop} {c : Char} {word : Text} (hnil : P [])
    (hcons : ∀ read, read <+: word → P (c :: read)) : ∀ read, read <+: c :: word → P read := by
  intro read hread
  rcases List.prefix_cons_iff.mp hread with rfl | ⟨rest, rfl, hrest⟩
  · exact hnil
  · exact hcons rest hrest

/-- What the depths say about the braces: a prefix of the word closes at most as many as it opens
and as were open before, and the whole accounts for the difference of the depths. -/
theorem count_braces_of_climb (h : climb depth a = some top) :
    (∀ read, read <+: a.braces → read.count '}' ≤ read.count '{' + depth) ∧
      a.braces.count '}' + top = a.braces.count '{' + depth := by
  fun_induction climb depth a with
  | case1 =>
    cases h
    simp [braces]
  | case2 => cases h
  | case3 depth c rest hc ih => exact ih h
  | case4 => cases h
  | case5 depth rest _ _ ih =>
    obtain ⟨hread, htotal⟩ := ih h
    rw [braces_cons (by decide), if_pos (.inl rfl)]
    refine ⟨forall_prefix_cons (Nat.zero_le _) fun read hprefix => ?_, ?_⟩
    · have := hread read hprefix
      simp only [List.count_cons_self, List.count_cons_of_ne (show '{' ≠ '}' by decide)]
      omega
    · simp only [List.count_cons_self, List.count_cons_of_ne (show '{' ≠ '}' by decide)]
      omega
  | case6 => cases h
  | case7 depth rest hpos _ _ _ ih =>
    obtain ⟨hread, htotal⟩ := ih h
    rw [braces_cons (by decide), if_pos (.inr rfl)]
    refine ⟨forall_prefix_cons (Nat.zero_le _) fun read hprefix => ?_, ?_⟩
    · have := hread read hprefix
      simp only [List.count_cons_self, List.count_cons_of_ne (show '}' ≠ '{' by decide)]
      omega
    · simp only [List.count_cons_self, List.count_cons_of_ne (show '}' ≠ '{' by decide)]
      omega
  | case8 depth c rest _ hescape hopen hclose ih =>
    rw [braces_cons hescape, if_neg (by simp [hopen, hclose])]
    exact ih h

theorem Level.climb (h : a.Level) (depth : Nat) : a.climb depth = some depth := by
  simpa using climb_add h depth

theorem level_nil : Level [] := rfl

theorem Level.append (ha : a.Level) (hb : b.Level) : Level (a ++ b) :=
  (climb_append ha b).trans hb

theorem Bare.level (h : a.Bare) : a.Level := by
  induction a with
  | nil => rfl
  | cons c a ih =>
    obtain ⟨hc, ha⟩ := bare_cons.mp h
    exact (climb_char hc 0 a).trans (ih ha)

theorem Level.braced (h : a.Level) : Level (Latex.braced a) := by
  show Text.climb 0 ('{' :: (a ++ ['}'])) = some 0
  rw [climb_opening, climb_append (h.climb _)]
  rfl

/-- **Level texts are balanced.** -/
theorem Level.balanced (h : a.Level) : a.Balanced where
  closing_le := (count_braces_of_climb h).1
  closing_eq := (count_braces_of_climb h).2

/-! ## One text for another -/

/-- Wherever the first text can be read, the second one can be, and leads to the same depth: outside
of an escape, and behind a backslash. -/
structure Tracks (s t : Text) : Prop where
  plain : ∀ {depth top}, climb depth s = some top → climb depth t = some top
  escaped : ∀ {depth top}, climb depth ('\\' :: s) = some top → climb depth ('\\' :: t) = some top

theorem Tracks.refl (s : Text) : Tracks s s := ⟨id, id⟩

theorem Tracks.trans {s t u : Text} (h : Tracks s t) (h' : Tracks t u) : Tracks s u :=
  ⟨h'.plain ∘ h.plain, h'.escaped ∘ h.escaped⟩

theorem Tracks.cons {s t : Text} (h : Tracks s t) (c : Char) : Tracks (c :: s) (c :: t) where
  plain {depth top} hread := by
    -- Behind a backslash the texts are read as escaped, which `Tracks` accounts for.
    by_cases hescape : c = '\\'
    · subst hescape
      exact h.escaped hread
    by_cases hopen : c = '{'
    · subst hopen
      exact h.plain hread
    by_cases hclose : c = '}'
    · subst hclose
      cases depth with
      | zero => cases hread
      | succ depth => exact h.plain hread
    rw [climb_char ⟨hopen, hclose, hescape⟩] at hread ⊢
    exact h.plain hread
  escaped {depth top} hread := by
    by_cases hunder : c = '_'
    · subst hunder
      cases hread
    rw [climb_escape hunder] at hread ⊢
    exact h.plain hread

/-- The second text may stand for the first one in front of anything. -/
def Exchanges (a b : Text) : Prop := ∀ ⦃s t : Text⦄, Tracks s t → Tracks (a ++ s) (b ++ t)

theorem Exchanges.refl (a : Text) : Exchanges a a := by
  intro s t h
  induction a with
  | nil => exact h
  | cons c a ih => exact ih.cons c

theorem compositional_exchanges : Compositional Exchanges where
  refl := .refl
  trans h h' _ t hst := (h hst).trans (h' (.refl t))
  append {a b a' b'} h h' s t hst := by
    rw [List.append_assoc, List.append_assoc]
    exact h (h' hst)

theorem Exchanges.level (h : Exchanges a b) (ha : a.Level) : b.Level := by
  have hab : Tracks (a ++ []) (b ++ []) := h (.refl [])
  rw [List.append_nil, List.append_nil] at hab
  exact hab.plain ha

/-- A text that leaves no trace, be it read outside of an escape or behind a backslash. -/
structure Silent (text : Text) : Prop where
  plain : ∀ depth back, climb depth (text ++ back) = climb depth back
  escaped : ∀ depth back, climb depth ('\\' :: (text ++ back)) = climb depth back

theorem Silent.exchanges (ha : a.Silent) (hb : b.Silent) : Exchanges a b := by
  refine fun s t hst => ⟨fun {depth top} hread => ?_, fun {depth top} hread => ?_⟩
  · rw [ha.plain] at hread
    rw [hb.plain, hst.plain hread]
  · rw [ha.escaped] at hread
    rw [hb.escaped, hst.plain hread]

/-- A text without braces, backslashes and underscores. -/
def IsWord (text : Text) : Prop := text ≠ [] ∧ text.Bare ∧ '_' ∉ text

instance (text : Text) : Decidable text.IsWord := inferInstanceAs (Decidable (_ ∧ _))

theorem IsWord.silent (h : text.IsWord) : text.Silent := by
  obtain ⟨hne, hbare, hunder⟩ := h
  refine ⟨fun depth back => climb_append (hbare.level.climb depth) back, fun depth back => ?_⟩
  obtain ⟨c, rest, rfl⟩ := List.exists_cons_of_ne_nil hne
  have hc : c ≠ '_' := fun he => hunder (he ▸ List.mem_cons_self)
  rw [List.cons_append, climb_escape hc]
  exact climb_append ((bare_cons.mp hbare).2.level.climb depth) back

theorem Silent.command (h : text.Silent) : Silent ('\\' :: text) where
  plain := h.escaped
  escaped depth back := (climb_escape (by decide) depth (text ++ back)).trans (h.plain depth back)

/-- A word may be replaced by a command. -/
theorem IsWord.exchanges {command : Text} (h : text.IsWord) (h' : command.IsWord) :
    Exchanges text ('\\' :: command) := h.silent.exchanges h'.silent.command

end Text

/-- **The pass over finished LaTeX keeps texts level.** -/
theorem Symbol.level_symbolPass {latex : Text} (h : latex.Level) : (symbolPass latex).Level := by
  have hcommands : ∀ p ∈ names ++ operators, p.1.IsWord ∧ p.2 = '\\' :: p.2.tail ∧
      Text.IsWord p.2.tail ∧ Text.IsWord (p.2.tail ++ [' ']) := by decide
  refine (symbolPass_related Text.compositional_exchanges (fun p hp => ?_) (fun p hp => ?_)
    latex).level h
  · obtain ⟨hname, hlead, hcommand, -⟩ := hcommands p (List.mem_append_left _ hp)
    rw [hlead]
    exact hname.exchanges hcommand
  · obtain ⟨hname, hlead, hcommand, hspaced⟩ := hcommands p (List.mem_append_right _ hp)
    rw [hlead]
    exact ⟨hname.exchanges hcommand, hname.exchanges hspaced⟩

namespace Marked

theorem bare_marker (n : Nat) : Text.Bare (Marker.ofNat n) :=
  Text.bare_of_isNameChar fun _ => Marker.nameChar_of_mem_ofNat

/-- A level text may stand for a marker. The marker is not behind a backslash, where its underscore
would be escaped. -/
theorem exchanges_marker {value : Text} (h : value.Level) (n : Nat) :
    Text.Exchanges (Marker.ofNat n) value := by
  refine fun s t hst => ⟨fun {depth top} hread => ?_, fun {depth top} hread => ?_⟩
  · rw [Text.climb_append ((bare_marker n).level.climb depth)] at hread
    rw [Text.climb_append (h.climb depth), hst.plain hread]
  · -- The escaped underscore cannot be read.
    rw [Marker.ofNat_eq] at hread
    cases hread

/-- **A level text stays level** when level texts are put in the place of its markers. -/
theorem level_fill {value : Nat → Text} (hvalue : ∀ n, (value n).Level) {w : Marked}
    (h : w.text.Level) : (w.fill value).Level := by
  have hexchanges : Text.Exchanges w.text (w.fill value) := by
    clear h
    induction w with
    | nil => exact .refl []
    | cons x w ih =>
      cases x with
      | char c => exact Text.compositional_exchanges.append (.refl [c]) ih
      | hit n => exact Text.compositional_exchanges.append (exchanges_marker (hvalue n) n) ih
  exact hexchanges.level h

end Marked

end MathNotes
