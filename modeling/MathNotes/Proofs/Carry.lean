import MathNotes.Proofs.Shape
import Mathlib.Data.List.Perm.Basic

/-!
# What extraction carries along

Whatever extraction does to a line, it loses and doubles nothing.  `Carries` says so about a line
and the fragments that were added on the way: every marker is in one place, the fragments point
backward, the content of the line is the content of what it writes out, and that stays clear.

It is shown of the parts of a construct (`WeavesSlots.carries`), of one step (`Advances.carries`),
of a run (`Run.carries`), and then of the treatment of arguments at every depth
(`treated_carries`).  All that these proofs know about the constructs is that their fixed texts are
`Inert` (`Listed.sound`).
-/

namespace MathNotes

/-! ## Fixed texts -/

/-- What the proofs about constructs know of a shape: its fixed texts are inert, something in the
source opens it, and its LaTeX starts with a fixed text or with what stood there before. -/
structure Shape.Sound (previous : Option Char) (shape : Shape) : Prop where
  source : shape.lead.1.Inert
  latex : shape.lead.2.Inert
  slots : ∀ s ∈ shape.slots, s.2.1.Inert ∧ s.2.2.Inert ∧ s.2.2 ≠ []
  opens : (∃ c ∈ shape.lead.1, Marked.isOpener c = true) ∨
    ∃ s ∈ shape.slots, ∃ c ∈ s.2.1, Marked.isOpener c = true
  front : shape.lead.2 ≠ [] ∨
    (shape.slots ≠ [] ∧ ∀ c ∈ previous, isNameChar c = false) ∨
    (shape.lead.1 = [] ∧ ∃ l l' rest, shape.slots = (.verbatim, l, l') :: rest)

section Sound

variable {previous : Option Char} {name command blanks mark blanks' source latex : Text}
  {slots : List (Slot × Text × Text)}

theorem sound_call (hname : name.Inert) (hb : blanks.Blank) (hlatex : latex.Inert)
    (hslots : ∀ s ∈ slots, s.2.1.Inert ∧ s.2.2.Inert ∧ s.2.2 ≠ [])
    (hfront : latex ≠ [] ∨ (slots ≠ [] ∧ ∀ c ∈ previous, isNameChar c = false)) :
    Shape.Sound previous ⟨(name ++ blanks ++ ['('], latex), slots⟩ where
  source := Text.inert_append.mpr ⟨Text.inert_append.mpr ⟨hname, hb.inert⟩, by decide⟩
  latex := hlatex
  slots := hslots
  opens := .inl ⟨'(', by simp, by decide⟩
  front := hfront.imp id .inl

theorem inert_operator (h : (name, command) ∈ Bound.operators) :
    name.Inert ∧ command.Inert ∧ command ≠ [] := by
  have key : ∀ o ∈ Bound.operators, o.1.Inert ∧ o.2.Inert ∧ o.2 ≠ [] := by decide
  exact key _ h

theorem sound_boundedCall {rest : Text} (hop : (name, command) ∈ Bound.operators)
    (hb : blanks.Blank) (hb' : blanks'.Blank) (hmark : mark = [] ∨ mark = ['_'])
    (hrest : rest.Inert) (hlatex : latex.Inert) (hne : latex ≠ [])
    (hslots : ∀ s ∈ slots, s.2.1.Inert ∧ s.2.2.Inert ∧ s.2.2 ≠ []) :
    Shape.Sound previous
      ⟨(name ++ (blanks ++ (mark ++ (blanks' ++ '(' :: rest))), latex), slots⟩ where
  source := by
    have hm : mark.Inert := by
      rcases hmark with rfl | rfl <;> decide
    exact Text.inert_append.mpr ⟨(inert_operator hop).1, Text.inert_append.mpr ⟨hb.inert,
      Text.inert_append.mpr ⟨hm, Text.inert_append.mpr ⟨hb'.inert,
        Text.inert_cons.mpr ⟨by decide, hrest⟩⟩⟩⟩⟩
  latex := hlatex
  slots := hslots
  opens := .inl ⟨'(', by simp, by decide⟩
  front := .inl hne

theorem sound_fixed (hsource : source.Inert) (hlatex : latex.Inert) (hne : latex ≠ [])
    (hslots : ∀ s ∈ slots, s.2.1.Inert ∧ s.2.2.Inert ∧ s.2.2 ≠ [])
    (hopens : (∃ c ∈ source, Marked.isOpener c = true) ∨
      ∃ s ∈ slots, ∃ c ∈ s.2.1, Marked.isOpener c = true) :
    Shape.Sound previous ⟨(source, latex), slots⟩ :=
  ⟨hsource, hlatex, hslots, hopens, .inl hne⟩

theorem sound_script {l l' : Text}
    (hslots : ∀ s ∈ (Slot.verbatim, l, l') :: slots, s.2.1.Inert ∧ s.2.2.Inert ∧ s.2.2 ≠ [])
    (hopens : ∃ c ∈ l, Marked.isOpener c = true) :
    Shape.Sound previous ⟨([], []), (Slot.verbatim, l, l') :: slots⟩ :=
  ⟨Text.inert_nil, Text.inert_nil, hslots, .inr ⟨_, List.mem_cons_self, hopens⟩,
    .inr (.inr ⟨rfl, l, l', slots, rfl⟩)⟩

end Sound

/-- **Every construct of the catalogue is sound.** -/
theorem Listed.sound {previous : Option Char} {shape : Shape} (h : Listed previous shape) :
    shape.Sound previous := by
  cases h with
  | compoundFactorial hb =>
    exact sound_call (by decide) hb (by decide) (by decide) (.inl (by decide))
  | factorial hb hprev =>
    exact sound_call (by decide) hb (by decide) (by decide) (.inr ⟨by simp, hprev⟩)
  | command hb hname =>
    simp only [List.mem_cons, List.not_mem_nil, or_false] at hname
    rcases hname with rfl | rfl <;>
      exact sound_call (by decide) hb (by decide) (by decide) (.inl (by decide))
  | rounded hb hname =>
    simp only [List.mem_cons, List.not_mem_nil, or_false] at hname
    rcases hname with rfl | rfl <;>
      exact sound_call (by decide) hb (by decide) (by decide) (.inl (by decide))
  | function hb hname =>
    have key : ∀ name ∈ Symbol.functionNames, name.Inert := by decide
    have hinert := key _ hname
    exact sound_call hinert hb
      (Text.inert_append.mpr ⟨Text.inert_cons.mpr ⟨by decide, hinert⟩, by decide⟩) (by decide)
      (.inl (by simp))
  | binomial hb => exact sound_call (by decide) hb (by decide) (by decide) (.inl (by decide))
  | unbounded hop hb hb' hmark hinner =>
    obtain ⟨-, hcommand, hne⟩ := inert_operator hop
    exact sound_boundedCall hop hb hb' hmark (Text.inert_append.mpr ⟨hinner.inert, by decide⟩)
      hcommand hne (by decide)
  | lowerBound hop hb hb' hmark =>
    obtain ⟨-, hcommand, -⟩ := inert_operator hop
    exact sound_boundedCall hop hb hb' hmark Text.inert_nil
      (Text.inert_append.mpr ⟨hcommand, by decide⟩) (by simp) (by decide)
  | bothBounds hop hb hb' hmark hbetween =>
    obtain ⟨-, hcommand, -⟩ := inert_operator hop
    rcases hbetween with rfl | rfl <;>
      exact sound_boundedCall hop hb hb' hmark Text.inert_nil
        (Text.inert_append.mpr ⟨hcommand, by decide⟩) (by simp) (by decide)
  | vector n =>
    refine sound_fixed (by decide) (by decide) (by decide) ?_ (.inl (by decide))
    intro s hs
    rcases List.mem_append.mp hs with hs | hs
    · rw [List.eq_of_mem_replicate hs]
      decide
    · rw [List.mem_singleton.mp hs]
      decide
  | set => exact sound_fixed (by decide) (by decide) (by decide) (by decide) (.inl (by decide))
  | conditionalSet hs =>
    rcases hs with rfl | rfl <;>
      exact sound_fixed (by decide) (by decide) (by decide) (by decide) (.inl (by decide))
  | absolute => exact sound_fixed (by decide) (by decide) (by decide) (by decide) (.inl (by decide))
  | fraction hleft hright hb hb' =>
    have group : ∀ {o c : Text}, (o, c) = ([], []) ∨ (o, c) = (['('], [')']) →
        o.Inert ∧ c.Inert := by
      rintro o c (h | h) <;> cases h <;> decide
    obtain ⟨ho, hc⟩ := group hleft
    obtain ⟨ho', hc'⟩ := group hright
    have hbar := Text.inert_append.mpr ⟨Text.inert_append.mpr ⟨Text.inert_append.mpr
      ⟨hc, hb.inert⟩, Text.inert_cons.mpr ⟨(by decide : isContent '/' = false ∧ _), hb'.inert⟩⟩,
      ho'⟩
    refine sound_fixed ho (by decide) (by decide) ?_
      (.inr ⟨_, List.mem_cons_self, '/', by simp, by decide⟩)
    intro s hs
    simp only [List.mem_cons, List.not_mem_nil, or_false] at hs
    rcases hs with rfl | rfl
    · exact ⟨hbar, (by decide : Text.Inert "\x7d\x7b".toList ∧ "\x7d\x7b".toList ≠ [])⟩
    · exact ⟨hc', (by decide : Text.Inert ['}'] ∧ ['}'] ≠ [])⟩
  | script hmark => rcases hmark with rfl | rfl <;> exact sound_script (by decide) (by decide)
  | bareScript hmark => rcases hmark with rfl | rfl <;> exact sound_script (by decide) (by decide)
  | power hn =>
    rcases hn with rfl | rfl <;>
      exact sound_fixed (by decide) (by decide) (by decide) (by decide) (.inr (by decide))
  | barePower hgroup =>
    rcases hgroup with h | h <;> cases h <;>
      exact sound_fixed (by decide) (by decide) (by decide) (by decide) (.inr (by decide))

/-! ## Carrying -/

/-- `w`, over the fragments `G`, was worked into `w'` while the fragments `H` were added: each
marker is kept and each new fragment has its marker in one place, new fragments point backward, and
what the line writes out keeps its content and stays clear. -/
structure Carries (G : Table) (w : Marked) (H : Table) (w' : Marked) : Prop where
  numbers : (w'.numbers ++ H.flatMap Marked.numbers).Perm
    (w.numbers ++ List.range' G.length H.length)
  backward : ∀ k, ∀ n ∈ (H.getD k []).numbers, n < G.length + k
  content : (Table.expand (G ++ H) w').content = (G.expand w).content
  clear : (G.expand w).Clear → (Table.expand (G ++ H) w').Clear

namespace Carries

variable {G H H₁ H₂ : Table} {u v w w' a s t x : Marked} {l l' : Text}

theorem of_recasts (G : Table) (h : w.Recasts w') : Carries G w [] w' where
  numbers := by simp [h.numbers]
  backward := by simp
  content := by rw [List.append_nil]; exact h.content _
  clear := by rw [List.append_nil]; exact h.clear _

theorem refl (G : Table) (w : Marked) : Carries G w [] w := of_recasts G (.refl w)

/-- All markers stand for fragments, also the new ones. -/
theorem covers (h : Carries G w H w') (hw : G.Covers w) : Table.Covers (G ++ H) w' := by
  intro n hn
  rw [List.length_append]
  rcases List.mem_append.mp (h.numbers.mem_iff.mp (List.mem_append_left _ hn)) with hn | hn
  · have := hw n hn
    omega
  · have := List.mem_range'_1.mp hn
    omega

theorem backward_append (h₁ : ∀ k, ∀ n ∈ (H₁.getD k []).numbers, n < G.length + k)
    (h₂ : ∀ k, ∀ n ∈ (H₂.getD k []).numbers, n < (G ++ H₁).length + k) :
    ∀ k, ∀ n ∈ ((H₁ ++ H₂).getD k []).numbers, n < G.length + k := by
  intro k n hn
  simp only [List.getD_eq_getElem?_getD] at hn h₁ h₂
  by_cases hk : k < H₁.length
  · rw [List.getElem?_append_left hk] at hn
    exact h₁ k n hn
  · rw [List.getElem?_append_right (by omega)] at hn
    have := h₂ _ n hn
    rw [List.length_append] at this
    omega

theorem trans (h₁ : Carries G u H₁ v) (h₂ : Carries (G ++ H₁) v H₂ w) :
    Carries G u (H₁ ++ H₂) w where
  numbers := by
    refine List.perm_iff_count.mpr fun n => ?_
    have e₁ := List.perm_iff_count.mp h₁.numbers n
    have e₂ := List.perm_iff_count.mp h₂.numbers n
    rw [List.length_append] at e₂
    rw [List.length_append, ← List.range'_append_1, List.flatMap_append]
    simp only [List.count_append] at e₁ e₂ ⊢
    omega
  backward := backward_append h₁.backward h₂.backward
  content := by rw [← List.append_assoc, h₂.content, h₁.content]
  clear := fun h => by
    rw [← List.append_assoc]
    exact h₂.clear (h₁.clear h)

/-- Two parts that are worked on one after the other, with a fixed text behind the first. -/
theorem append (ha : Carries G a H₁ t) (hs : Carries (G ++ H₁) s H₂ x) (hca : G.Covers a)
    (hcs : G.Covers s) (hl : l.Inert) (hl' : l'.Inert) (hne : l' ≠ []) :
    Carries G (a ++ (Marked.plain l ++ s)) (H₁ ++ H₂) (t ++ (Marked.plain l' ++ x)) := by
  have hexpand : Table.expand (G ++ (H₁ ++ H₂)) (t ++ (Marked.plain l' ++ x)) =
      Table.expand (G ++ H₁) t ++ (l' ++ Table.expand (G ++ H₁ ++ H₂) x) := by
    rw [← List.append_assoc, Table.expand_append, Table.expand_append, Table.expand_plain,
      Table.expand_grow (ha.covers hca)]
  have hsource : G.expand (a ++ (Marked.plain l ++ s)) = G.expand a ++ (l ++ G.expand s) := by
    rw [Table.expand_append, Table.expand_append, Table.expand_plain]
  refine ⟨?_, backward_append ha.backward hs.backward, ?_, ?_⟩
  · refine List.perm_iff_count.mpr fun n => ?_
    have e₁ := List.perm_iff_count.mp ha.numbers n
    have e₂ := List.perm_iff_count.mp hs.numbers n
    rw [List.length_append] at e₂
    rw [List.length_append, ← List.range'_append_1, List.flatMap_append]
    simp only [Marked.numbers_append, Marked.numbers_plain, List.count_append,
      List.count_nil] at e₁ e₂ ⊢
    omega
  · rw [hexpand, hsource]
    simp only [Text.content_append, hl.content, hl'.content, ha.content, hs.content,
      Table.expand_grow hcs]
  · rw [hexpand, hsource]
    intro h
    have hta := ha.clear h.left
    have hxs := hs.clear (by rw [Table.expand_grow hcs]; exact h.right.right)
    refine Text.clear_append.mpr ⟨hta, Text.clear_append.mpr ⟨hl'.clear, hxs, ?_⟩, ?_⟩
    · exact fun hP => hl'.last hP.1
    · rw [List.head?_append_of_ne_nil _ hne]
      exact fun hP => hl'.head hP.2

end Carries

/-- A treatment of arguments that carries everything along. -/
def Treating.Carrying (Arg : Treating) : Prop :=
  ∀ {prose : Bool} {a t : Marked} {G G' : Table}, Arg prose a G t G' → G.Covers a →
    ∃ H, G' = G ++ H ∧ Carries G a H t

theorem Slot.Fills.carries {Arg : Treating} (hArg : Arg.Carrying) {slot : Slot} {a t : Marked}
    {G G' : Table} (h : slot.Fills Arg a G t G') (ha : G.Covers a) :
    ∃ H, G' = G ++ H ∧ Carries G a H t := by
  cases slot with
  | argument prose => exact hArg h ha
  | member =>
    obtain ⟨b, -, hab, -, harg⟩ := h
    have hb : G.Covers b := fun n hn => ha n (hab.numbers ▸ hn)
    obtain ⟨H, rfl, hcarry⟩ := hArg harg hb
    refine ⟨H, rfl, ?_⟩
    have := (Carries.of_recasts G hab).trans (by rw [List.append_nil]; exact hcarry)
    exact this
  | bound =>
    obtain ⟨rfl, -, hat⟩ := h
    exact ⟨[], by simp, .of_recasts _ hat⟩
  | verbatim =>
    obtain ⟨rfl, rfl⟩ := h
    exact ⟨[], by simp, .refl _ _⟩

theorem WeavesSlots.carries {Arg : Treating} (hArg : Arg.Carrying)
    {slots : List (Slot × Text × Text)} {s x : Marked} {G G' : Table}
    (h : WeavesSlots Arg slots s G x G')
    (hslots : ∀ s ∈ slots, s.2.1.Inert ∧ s.2.2.Inert ∧ s.2.2 ≠ []) (hs : G.Covers s) :
    ∃ H, G' = G ++ H ∧ Carries G s H x := by
  induction h with
  | nil => exact ⟨[], by simp, .refl _ _⟩
  | cons fills more ih =>
    obtain ⟨hca, hcs⟩ := Table.covers_append.mp hs
    obtain ⟨-, hcs⟩ := Table.covers_append.mp hcs
    obtain ⟨H₁, rfl, h₁⟩ := fills.carries hArg hca
    obtain ⟨H₂, rfl, h₂⟩ := ih (fun s hm => hslots s (List.mem_cons_of_mem _ hm)) (hcs.mono H₁)
    obtain ⟨hl, hl', hne⟩ := hslots _ List.mem_cons_self
    exact ⟨H₁ ++ H₂, by rw [List.append_assoc], h₁.append h₂ hca hcs hl hl' hne⟩

theorem WeavesSlots.latex_nil {Arg : Treating} {s x : Marked} {G G' : Table}
    (h : WeavesSlots Arg [] s G x G') : x = [] := by
  cases h
  rfl

theorem WeavesSlots.expand_ne_nil {Arg : Treating} {slots : List (Slot × Text × Text)}
    {s x : Marked} {G G' : Table} (h : WeavesSlots Arg slots s G x G') (T : Table)
    (hslots : ∀ s ∈ slots, s.2.1.Inert ∧ s.2.2.Inert ∧ s.2.2 ≠ []) (hne : slots ≠ []) :
    T.expand x ≠ [] := by
  cases h with
  | nil => exact absurd rfl hne
  | cons fills more =>
    obtain ⟨-, -, hl'ne⟩ := hslots _ List.mem_cons_self
    rw [Table.expand_append, Table.expand_append, Table.expand_plain]
    simp [hl'ne]

/-- The LaTeX behind the last part of a construct ends in a fixed text. -/
theorem WeavesSlots.getLast? {Arg : Treating} {slots : List (Slot × Text × Text)} {s x : Marked}
    {G G' : Table} (h : WeavesSlots Arg slots s G x G') (T : Table)
    (hslots : ∀ s ∈ slots, s.2.1.Inert ∧ s.2.2.Inert ∧ s.2.2 ≠ []) (hne : slots ≠ []) :
    (T.expand x).getLast? ≠ some 'P' := by
  induction h with
  | nil => exact absurd rfl hne
  | @cons slot l l' slots a s t x _ _ _ fills more ih =>
    obtain ⟨-, hl', hl'ne⟩ := hslots _ List.mem_cons_self
    rw [Table.expand_append, Table.expand_append, Table.expand_plain]
    by_cases hnil : slots = []
    · subst hnil
      cases more
      rw [Table.expand_nil, List.append_nil, List.getLast?_append_of_ne_nil _ hl'ne]
      exact hl'.last
    · have hx := ih (fun s hm => hslots s (List.mem_cons_of_mem _ hm)) hnil
      rw [List.getLast?_append, List.getLast?_append]
      cases hlast : (T.expand x).getLast? with
      | none =>
        simp only [Option.none_or]
        rw [List.getLast?_eq_some_getLast hl'ne, Option.some_or]
        exact fun he => hl'.last (by rw [List.getLast?_eq_some_getLast hl'ne, he])
      | some c => rw [hlast] at hx; simpa using hx

/-- Behind a character that is no part of a name, nothing written out ends in a `P`. -/
theorem Marked.expand_getLast?_of_not_name {before : Marked} (T : Table)
    (h : ∀ c ∈ before.text.getLast?, isNameChar c = false) :
    (T.expand before).getLast? ≠ some 'P' := by
  rcases List.eq_nil_or_concat' before with rfl | ⟨before, x, rfl⟩
  · simp
  · cases x with
    | char c =>
      have hc : isNameChar c = false := h c (by simp)
      rw [Table.expand_append, Table.expand_char, Table.expand_nil, List.getLast?_concat]
      rintro ⟨⟩
      cases hc
    | hit n =>
      have := h '_' (by simp [Marker.ofNat_eq, List.getLast?_cons])
      cases this

/-- The LaTeX of a construct is not empty, and it ends in a fixed text. -/
theorem Shape.Sound.latex_end {Arg : Treating} {shape : Shape} {previous : Option Char}
    {s x : Marked} {G G' : Table} (hsound : shape.Sound previous)
    (h : WeavesSlots Arg shape.slots s G x G') (T : Table) :
    shape.lead.2 ++ T.expand x ≠ [] ∧ (shape.lead.2 ++ T.expand x).getLast? ≠ some 'P' := by
  constructor
  · intro hnil
    obtain ⟨hlead, hx⟩ := List.append_eq_nil_iff.mp hnil
    refine h.expand_ne_nil T hsound.slots ?_ hx
    rcases hsound.front with hfront | ⟨hfront, -⟩ | ⟨-, l, l', rest, hfront⟩
    · exact absurd hlead hfront
    · exact hfront
    · simp [hfront]
  · by_cases hnil : shape.slots = []
    · rw [hnil] at h
      rw [h.latex_nil, Table.expand_nil, List.append_nil]
      exact hsound.latex.last
    · have hlast := h.getLast? T hsound.slots hnil
      rw [List.getLast?_append]
      cases hcase : (T.expand x).getLast? with
      | none => simpa using hsound.latex.last
      | some c => rw [hcase] at hlast; simpa using hlast

/-- The LaTeX of a construct does not start with an `H` behind a `P`: it starts with a fixed text,
the character in front of it ends no name, or it starts as the construct did. -/
theorem Shape.Sound.front_clear {Arg : Treating} {shape : Shape} {before s x after : Marked}
    {G G' : Table} (hsound : shape.Sound before.text.getLast?)
    (h : WeavesSlots Arg shape.slots s G x G')
    (hclear : (G.expand before ++ (shape.lead.1 ++ G.expand s ++ G.expand after)).Clear) :
    ∀ H : Table, G' = G ++ H → G.Covers s →
      ¬((G.expand before).getLast? = some 'P' ∧
        (shape.lead.2 ++ Table.expand G' x).head? = some 'H') := by
  rintro H rfl hs ⟨hP, hH⟩
  by_cases hne : shape.lead.2 = []
  · rw [hne, List.nil_append] at hH
    rcases hsound.front with hfront | ⟨-, hprev⟩ | ⟨hlead, l, l', rest, hrest⟩
    · exact hfront hne
    · exact Marked.expand_getLast?_of_not_name G hprev hP
    · have hslots := hsound.slots
      rw [hrest] at h hslots
      obtain ⟨-, hl', hl'ne⟩ := hslots _ List.mem_cons_self
      cases h with
      | @cons _ _ _ _ a s t x _ G₁ _ fills more =>
        obtain ⟨rfl, rfl⟩ := fills
        obtain ⟨ht, -⟩ := Table.covers_append.mp hs
        rw [Table.expand_append, Table.expand_append, Table.expand_plain,
          Table.expand_grow ht] at hH
        rw [hlead, List.nil_append, Table.expand_append, Table.expand_append,
          Table.expand_plain] at hclear
        by_cases ha : G₁.expand t = []
        · rw [ha, List.nil_append, List.head?_append_of_ne_nil _ hl'ne] at hH
          exact hl'.head hH
        · rw [List.head?_append_of_ne_nil _ ha] at hH
          refine (Text.clear_append.mp hclear).2.2 ⟨hP, ?_⟩
          rw [List.append_assoc, List.head?_append_of_ne_nil _ ha]
          exact hH
  · rw [List.head?_append_of_ne_nil _ hne] at hH
    exact hsound.latex.head hH

/-- A line stays clear when a construct of it is written out as LaTeX. -/
theorem Shape.Sound.clear {Arg : Treating} {shape : Shape} {before s x after : Marked}
    {G H : Table} (hsound : shape.Sound before.text.getLast?)
    (h : WeavesSlots Arg shape.slots s G x (G ++ H)) (hcarry : Carries G s H x) (hs : G.Covers s)
    (hclear : (G.expand before ++ (shape.lead.1 ++ G.expand s ++ G.expand after)).Clear) :
    (G.expand before ++
      ((shape.lead.2 ++ Table.expand (G ++ H) x) ++ G.expand after)).Clear := by
  obtain ⟨hne, hlast⟩ := hsound.latex_end h (G ++ H)
  have hinner : (shape.lead.2 ++ Table.expand (G ++ H) x).Clear :=
    Text.clear_append.mpr ⟨hsound.latex.clear, hcarry.clear hclear.right.left.right,
      fun hP => hsound.latex.last hP.1⟩
  refine Text.clear_append.mpr ⟨hclear.left, Text.clear_append.mpr ⟨hinner, hclear.right.right,
    fun hP => hlast hP.1⟩, ?_⟩
  rw [List.head?_append_of_ne_nil _ hne]
  exact hsound.front_clear h hclear H rfl hs

/-- A construct is put aside, after its parts were worked on: a marker takes its place. -/
theorem Carries.store {Arg : Treating} {shape : Shape} {before s x after : Marked} {G H : Table}
    (hsound : shape.Sound before.text.getLast?)
    (h : WeavesSlots Arg shape.slots s G x (G ++ H)) (hcarry : Carries G s H x)
    (hbefore : G.Covers before) (hs : G.Covers s) (hafter : G.Covers after) :
    Carries G (before ++ (Marked.plain shape.lead.1 ++ s ++ after))
      (H ++ [Marked.plain shape.lead.2 ++ x]) (before ++ .hit (G ++ H).length :: after) := by
  have hx : Table.Covers (G ++ H) (Marked.plain shape.lead.2 ++ x) :=
    Table.covers_append.mpr ⟨by simp [Table.Covers], hcarry.covers hs⟩
  have hnew : Table.expand (G ++ (H ++ [Marked.plain shape.lead.2 ++ x]))
      (before ++ .hit (G ++ H).length :: after) =
      G.expand before ++ ((shape.lead.2 ++ Table.expand (G ++ H) x) ++ G.expand after) := by
    rw [Table.expand_append, Table.expand_hit, Table.expand_grow hbefore,
      Table.expand_grow hafter, ← List.append_assoc G, Table.value_concat hx,
      Table.expand_append, Table.expand_plain]
  have hold : G.expand (before ++ (Marked.plain shape.lead.1 ++ s ++ after)) =
      G.expand before ++ (shape.lead.1 ++ G.expand s ++ G.expand after) := by
    simp only [Table.expand_append, Table.expand_plain]
  refine ⟨List.perm_iff_count.mpr fun n => ?_,
    backward_append hcarry.backward fun k n hn => ?_, ?_, ?_⟩
  · -- The marker that is new in the line is the number of the fragment that is new in the table.
    have e := List.perm_iff_count.mp hcarry.numbers n
    have hlength : (H ++ [Marked.plain shape.lead.2 ++ x]).length = H.length + 1 := by simp
    rw [hlength, List.range'_concat, List.flatMap_append]
    simp only [Marked.numbers_append, Marked.numbers_plain, Marked.numbers_hit,
      List.flatMap_singleton, List.count_append, List.count_cons, List.count_nil,
      List.length_append, Nat.one_mul] at e ⊢
    omega
  · cases k with
    | zero => simpa using hx n (by simpa using hn)
    | succ k => simp at hn
  · rw [hnew, hold]
    simp only [Text.content_append, hsound.source.content, hsound.latex.content, hcarry.content]
  · rw [hnew, hold]
    exact hsound.clear h hcarry hs

/-- **One step carries everything along.** -/
theorem Advances.carries {Arg : Treating} (hArg : Arg.Carrying) {w w' : Marked} {G G' : Table}
    (h : Advances Arg (w, G) (w', G')) (hw : G.Covers w) : ∃ H, G' = G ++ H ∧ Carries G w H w' := by
  cases h with
  | @store before source after latex _ G₁ shape listed weaves =>
    cases weaves with
    | @mk s x _ _ slots =>
      obtain ⟨hbefore, hrest⟩ := Table.covers_append.mp hw
      obtain ⟨hsource, hafter⟩ := Table.covers_append.mp hrest
      obtain ⟨-, hs⟩ := Table.covers_append.mp hsource
      obtain ⟨H, rfl, hcarry⟩ := slots.carries hArg listed.sound.slots hs
      exact ⟨_, List.append_assoc _ _ _, .store listed.sound slots hcarry hbefore hs hafter⟩
  | @escape before after _ =>
    refine ⟨[], by simp, Carries.of_recasts G ⟨?_, fun value hclear => ?_⟩⟩
    · simp [Marked.trace_char, Text.content, isContent]
    · simp only [Marked.fill_append, Marked.fill_char] at hclear ⊢
      refine Text.clear_append.mpr ⟨hclear.left, ?_, ?_⟩
      · have : Text.Clear (['\\'] ++ '{' :: Marked.fill value after) :=
          Text.clear_append.mpr ⟨List.IsChain.singleton _, hclear.right, by simp⟩
        exact this
      · simp

/-- **A run carries everything along.** -/
theorem Run.carries {Arg : Treating} (hArg : Arg.Carrying) {p q : Marked × Table} (h : Run Arg p q)
    (hp : p.2.Covers p.1) : ∃ H, q.2 = p.2 ++ H ∧ Carries p.2 p.1 H q.1 := by
  induction h with
  | refl => exact ⟨[], by simp, .refl _ _⟩
  | @tail q r _ step ih =>
    obtain ⟨H₁, hq, h₁⟩ := ih
    obtain ⟨w, G⟩ := q
    obtain ⟨w', G'⟩ := r
    simp only at hq h₁ ⊢
    subst hq
    obtain ⟨H₂, rfl, h₂⟩ := step.carries hArg (h₁.covers hp)
    exact ⟨H₁ ++ H₂, by rw [List.append_assoc], h₁.trans h₂⟩

/-- The treatment of arguments carries everything along, at every depth. -/
theorem treated_carries (depth : Nat) : (Treated depth).Carrying := by
  induction depth with
  | zero =>
    intro prose a t G G' h ha
    obtain ⟨htrim, rfl⟩ := h
    exact ⟨[], by simp, .of_recasts _ htrim.recasts⟩
  | succ depth ih =>
    intro prose a t G G' h ha
    obtain ⟨b, w, htrim, hrun, -, hcast⟩ := h
    have hb : G.Covers b := fun n hn => ha n (htrim.recasts.numbers ▸ hn)
    obtain ⟨H, hG', hcarry⟩ := hrun.carries ih hb
    simp only at hG' hcarry
    subst hG'
    refine ⟨H, rfl, ?_⟩
    have h₁ := (Carries.of_recasts G htrim.recasts).trans (by rw [List.append_nil]; exact hcarry)
    have h₂ := Carries.trans h₁ (.of_recasts (G ++ ([] ++ H)) hcast)
    simpa using h₂

/-! ## How many fragments there are -/

/-- A treatment of arguments adds no more fragments than the argument has openers. -/
def Treating.Thrifty (Arg : Treating) : Prop :=
  ∀ {prose : Bool} {a t : Marked} {G G' : Table}, Arg prose a G t G' →
    G'.length ≤ G.length + a.weight

theorem Slot.Fills.length_le {Arg : Treating} (hArg : Arg.Thrifty) {slot : Slot} {a t : Marked}
    {G G' : Table} (h : slot.Fills Arg a G t G') : G'.length ≤ G.length + a.weight := by
  cases slot with
  | argument prose => exact hArg h
  | member =>
    obtain ⟨b, -, -, hweight, harg⟩ := h
    have := hArg harg
    omega
  | bound =>
    obtain ⟨rfl, -, -⟩ := h
    omega
  | verbatim =>
    obtain ⟨rfl, -⟩ := h
    omega

theorem WeavesSlots.length_le {Arg : Treating} (hArg : Arg.Thrifty)
    {slots : List (Slot × Text × Text)} {s x : Marked} {G G' : Table}
    (h : WeavesSlots Arg slots s G x G') :
    G'.length + (Marked.plain (slots.flatMap fun s => s.2.1)).weight ≤ G.length + s.weight := by
  induction h with
  | nil => simp
  | cons fills more ih =>
    have := fills.length_le hArg
    simp only [List.flatMap_cons, Marked.plain_append, Marked.weight_append]
    omega

/-- **Every step uses up an opener for the fragment that it adds.** -/
theorem Advances.length_le {Arg : Treating} (hArg : Arg.Thrifty) {w w' : Marked} {G G' : Table}
    (h : Advances Arg (w, G) (w', G')) : G'.length + w'.weight ≤ G.length + w.weight := by
  cases h with
  | @store before source after latex _ G₁ shape listed weaves =>
    cases weaves with
    | @mk s x _ _ slots =>
      have hlen := slots.length_le hArg
      have hopens : 0 < (Marked.plain shape.lead.1).weight +
          (Marked.plain (shape.slots.flatMap fun s => s.2.1)).weight := by
        rcases listed.sound.opens with ⟨c, hc, ho⟩ | ⟨slot, hslot, c, hc, ho⟩
        · have := Marked.weight_pos hc ho
          omega
        · have hmem : c ∈ shape.slots.flatMap fun s => s.2.1 :=
            List.mem_flatMap.mpr ⟨slot, hslot, hc⟩
          have := Marked.weight_pos hmem ho
          omega
      have hhit : ∀ n, Marked.weight (.hit n :: after) = Marked.weight after := fun n =>
        List.countP_cons_of_neg (by simp)
      simp only [Marked.weight_append, List.length_append, List.length_singleton, hhit] at hlen ⊢
      omega
  | @escape before after _ =>
    have hbrace : Marked.weight (.char '\\' :: .char '{' :: after) =
        Marked.weight (.char '{' :: after) := List.countP_cons_of_neg (by decide)
    simp only [Marked.weight_append, hbrace]
    omega

theorem Run.length_le {Arg : Treating} (hArg : Arg.Thrifty) {p q : Marked × Table}
    (h : Run Arg p q) : q.2.length + q.1.weight ≤ p.2.length + p.1.weight := by
  induction h with
  | refl => exact Nat.le_refl _
  | tail _ step ih => exact (step.length_le hArg).trans ih

theorem treated_thrifty (depth : Nat) : (Treated depth).Thrifty := by
  induction depth with
  | zero =>
    intro prose a t G G' h
    obtain ⟨-, rfl⟩ := h
    omega
  | succ depth ih =>
    intro prose a t G G' h
    obtain ⟨b, w, htrim, hrun, -, -⟩ := h
    have hlen := hrun.length_le ih
    have hweight := htrim.weight_le
    simp only at hlen
    omega

end MathNotes
