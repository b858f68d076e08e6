import MathNotes.Proofs.Extraction

/-!
# What extraction does to the characters of a line

The catalogue of shapes speaks of lines whose markers are known.  Some properties of the output are
about characters alone: what follows a backslash, or what stands in front of a percent sign.  For
them the steps of the extraction are said once more, for any text: a construct is taken out and its
marker takes its place, or a brace that opens nothing is escaped (`Rewrites`).  What stands around a
construct is part of it (`Written`), since that decides whether a command is cut open.

A property of lines that every such step keeps is an `Invariant`; it holds of what extraction leaves
of a line, and of every fragment that it puts aside (`Invariant.Lawful.extract`).
-/

namespace MathNotes

open Operand (Edge Stop)

theorem Operand.Edge.append_right {a b : Text} (h : Edge a b) (hb : b ≠ []) (rest : Text) :
    Edge a (b ++ rest) := by
  rwa [Edge, List.head?_append_of_ne_nil _ hb]

/-! ## The state of an extraction -/

namespace Extraction

/-- The state once one more fragment is put aside. -/
def put (s : Extraction) (latex : Text) : Extraction :=
  { s with fragments := s.fragments ++ [latex] }

/-- The state once one more argument is kept as it was written. -/
def hold (s : Extraction) (argument : Text) : Extraction :=
  { s with kept := s.kept ++ [argument] }

/-- The marker of the fragment that is put aside next. -/
def marker (s : Extraction) : Text := Marker.ofNat s.fragments.length

/-- The second state is the first one with more put aside and more kept. -/
structure Grows (s s' : Extraction) : Prop where
  fragments : s.fragments <+: s'.fragments
  kept : s.kept <+: s'.kept

namespace Grows

variable {s s₁ s₂ : Extraction}

theorem refl (s : Extraction) : Grows s s := ⟨List.prefix_rfl, List.prefix_rfl⟩

theorem trans (h : Grows s s₁) (h' : Grows s₁ s₂) : Grows s s₂ :=
  ⟨h.fragments.trans h'.fragments, h.kept.trans h'.kept⟩

theorem put (h : Grows s s₁) (latex : Text) : Grows s (s₁.put latex) :=
  ⟨h.fragments.trans (List.prefix_append _ _), h.kept⟩

theorem hold (s : Extraction) (argument : Text) : Grows s (s.hold argument) :=
  ⟨List.prefix_rfl, List.prefix_append _ _⟩

end Grows

theorem getElem?_put (s : Extraction) (latex : Text) :
    (s.put latex).fragments[s.fragments.length]? = some latex := by
  simp [put]

end Extraction

/-! ## Constructs as they are written -/

/-- A part of a construct in the source, and in the LaTeX. -/
def Slot.Writes (treat : Treatment) : Slot → Text → Extraction → Text → Extraction → Prop
  | .argument prose, a, s, t, s' => treat prose a s = (t, s')
  | .member, a, s, t, s' => treat true (Symbol.substituteSetWords a) s = (t, s')
  | .bound, a, s, t, s' => t = Bound.normalize a ∧ s' = s
  | .verbatim, a, s, t, s' => t = a ∧ s' = s

/-- The parts of a construct with the texts behind them, from the source to the LaTeX. -/
inductive WritesSlots (treat : Treatment) :
    List (Slot × Text × Text) → Text → Extraction → Text → Extraction → Prop
  | nil {s : Extraction} : WritesSlots treat [] [] s [] s
  | cons {slot : Slot} {l l' : Text} {slots : List (Slot × Text × Text)} {a t source latex : Text}
      {s s₁ s₂ : Extraction} (writes : slot.Writes treat a s t s₁)
      (more : WritesSlots treat slots source s₁ latex s₂) :
      WritesSlots treat ((slot, l, l') :: slots) (a ++ (l ++ source)) s (t ++ (l' ++ latex)) s₂

/-- A text that starts with a sign: no character of a name and no brace that opens. -/
def Text.IsFence (text : Text) : Prop := ∃ c ∈ text.head?, isNameChar c = false ∧ c ≠ '{'

/-- Signs stand behind every part of the construct, in the source and in the LaTeX, and no part is
taken as it is. -/
def Shape.Fenced (shape : Shape) : Prop :=
  ∀ p ∈ shape.slots, p.1 ≠ .verbatim ∧ Text.IsFence p.2.1 ∧ Text.IsFence p.2.2

/-- What a script may stand on. -/
def IsBase (mark base : Char) : Prop :=
  mark = '_' ∧ base.isAlpha = true ∨
    mark = '^' ∧ (isLetterOrNumber base = true ∨ base = '}' ∨ base = ')')

/-- **A construct between two texts**: what is written in the source, and the LaTeX that is put
aside for it. -/
inductive Written (treat : Treatment) (before after : Text) :
    Text → Extraction → Text → Extraction → Prop
  | listed {shape : Shape} {source latex : Text} {s s' : Extraction}
      (edge : Edge before (shape.lead.1 ++ source)) (hne : shape.lead.1 ≠ [])
      (listed : Listed before.getLast? shape) (fenced : shape.Fenced)
      (slots : WritesSlots treat shape.slots source s latex s') :
      Written treat before after (shape.lead.1 ++ source) s (shape.lead.2 ++ latex) s'
  | fraction {left right blanks blanks' numerator denominator : Text} {s s₁ s₂ : Extraction}
      (edge : Edge before left) (hne : left ≠ []) (hb : blanks.Blank) (hb' : blanks'.Blank)
      (seam : Marked.Seam right after) (stop : Stop right after)
      (hleft : treat true (Operand.ungrouped left) s = (numerator, s₁))
      (hright : treat true (Operand.ungrouped right) s₁ = (denominator, s₂)) :
      Written treat before after (left ++ (blanks ++ '/' :: (blanks' ++ right))) s
        (Latex.command "frac" [numerator, denominator]) s₂
  | script {base mark : Char} {argument t : Text} {s s' : Extraction} (hbase : IsBase mark base)
      (harg : treat false argument s = (t, s')) :
      Written treat before after (base :: mark :: '(' :: (argument ++ [')'])) s
        (base :: mark :: Latex.braced t) s'
  | bareScript {base mark : Char} {run : Text} {s : Extraction} (hbase : IsBase mark base)
      (hrun : Script.IsRun run after ∨
        mark = '^' ∧ ∃ digits, run = Marker.ofDigits digits ∧ Script.IsDigits digits) :
      Written treat before after (base :: mark :: run) s (base :: mark :: Latex.braced run) s
  | group {content argument t : Text} {s s' : Extraction}
      (harg : treat false argument s = (t, s')) :
      Written treat before after ('(' :: (content ++ ')' :: '^' :: '(' :: (argument ++ [')']))) s
        ('(' :: (content ++ ')' :: '^' :: Latex.braced t)) s'
  | power {digits newline argument t : Text} {s s' : Extraction} (hdigits : Script.IsDigits digits)
      (hnewline : newline = [] ∨ newline = ['\n']) (harg : treat false argument s = (t, s')) :
      Written treat before after
        (Marker.ofDigits digits ++ (newline ++ '^' :: '(' :: (argument ++ [')']))) s
        (Latex.braced (Marker.ofDigits digits) ++ '^' :: Latex.braced t) s'
  | barePower {digits run : Text} {s : Extraction} (hdigits : Script.IsDigits digits)
      (hrun : Script.IsRun run after) :
      Written treat before after (Marker.ofDigits digits ++ '^' :: run) s
        (Latex.braced (Marker.ofDigits digits) ++ '^' :: Latex.braced run) s
  | bracedPower {digits content : Text} {s : Extraction} (hdigits : Script.IsDigits digits) :
      Written treat before after (Marker.ofDigits digits ++ '^' :: '{' :: (content ++ ['}'])) s
        (Latex.braced (Marker.ofDigits digits) ++ '^' :: Latex.braced content) s

/-- What is written starts with a character, and not with an escaped brace. -/
theorem Written.exists_head {treat : Treatment} {before after source latex : Text}
    {s s' : Extraction} (h : Written treat before after source s latex s') :
    ∃ c rest, source = c :: rest ∧ (before.getLast? = some '\\' → c ≠ '{') := by
  -- Behind a backslash an edge needs a sign, which is no brace.
  have hedge : ∀ {source : Text}, Edge before source → source ≠ [] →
      ∃ c rest, source = c :: rest ∧ (before.getLast? = some '\\' → c ≠ '{') := by
    intro source hedge hne
    obtain ⟨c, rest, rfl⟩ := List.exists_cons_of_ne_nil hne
    refine ⟨c, rest, rfl, fun hlast hc => ?_⟩
    rcases hedge with hbars | ⟨-, hbrace⟩
    · exact absurd (hbars _ hlast) (by decide)
    · exact hbrace (by rw [hc]; rfl) hlast
  have hbase : ∀ {mark base : Char}, IsBase mark base → base ≠ '{' := by
    rintro mark base h rfl
    rcases h with ⟨-, h⟩ | ⟨-, h | h | h⟩
    · cases h
    · exact absurd h (by decide +kernel)
    · cases h
    · cases h
  cases h with
  | listed edge hne => exact hedge edge (by simp [hne])
  | fraction edge hne => exact hedge (edge.append_right hne _) (by simp [hne])
  | script h => exact ⟨_, _, rfl, fun _ => hbase h⟩
  | bareScript h => exact ⟨_, _, rfl, fun _ => hbase h⟩
  | group => exact ⟨_, _, rfl, fun _ => by decide⟩
  | power => exact ⟨'_', _, rfl, fun _ => by decide⟩
  | barePower => exact ⟨'_', _, rfl, fun _ => by decide⟩
  | bracedPower => exact ⟨'_', _, rfl, fun _ => by decide⟩

/-- One thing that extraction does to a line: a marker takes the place of a construct, or a brace
that opens nothing is escaped. -/
inductive Rewrites (treat : Treatment) : Text × Extraction → Text × Extraction → Prop
  | store {before source after latex : Text} {s s' : Extraction}
      (written : Written treat before after source s latex s') :
      Rewrites treat (before ++ (source ++ after), s)
        (before ++ (s'.marker ++ after), s'.put latex)
  | escape {before after : Text} {s : Extraction} (hlast : before.getLast? ≠ some '\\') :
      Rewrites treat (before ++ '{' :: after, s) (before ++ '\\' :: '{' :: after, s)

/-- What extraction does to a line, step after step. -/
abbrev Rewriting (treat : Treatment) : Text × Extraction → Text × Extraction → Prop :=
  Relation.ReflTransGen (Rewrites treat)

/-! ## Computations that rewrite a line -/

namespace Extract

/-- The computation rewrites the line `text` behind `before`, step after step. -/
def Reaches (m : Extract Text) (treat : Treatment) (before text : Text) (s : Extraction) : Prop :=
  Rewriting treat (before ++ text, s) (before ++ (m s).1, (m s).2)

variable {treat : Treatment} {before text : Text} {s : Extraction}

theorem bind_apply {α β : Type} (m : Extract α) (f : α → Extract β) (s : Extraction) :
    (m >>= f) s = f (m s).1 (m s).2 := rfl

theorem pure_apply {α : Type} (a : α) (s : Extraction) : (pure a : Extract α) s = (a, s) := rfl

theorem map_apply {α β : Type} (f : α → β) (m : Extract α) (s : Extraction) :
    (f <$> m) s = (f (m s).1, (m s).2) := rfl

theorem reaches_pure : Reaches (pure text) treat before text s := .refl

/-- One computation after the other. -/
theorem Reaches.bind {m : Extract Text} {f : Text → Extract Text}
    (h : m.Reaches treat before text s)
    (h' : (f (m s).1).Reaches treat before (m s).1 (m s).2) :
    (m >>= f).Reaches treat before text s :=
  Relation.ReflTransGen.trans h h'

/-- A part of the line is passed over, and the rest is rewritten. -/
theorem Reaches.pass {m : Extract Text} {lead rest : Text} {f : Text → Text}
    (h : m.Reaches treat (before ++ lead) rest s) (hf : ∀ t, f t = lead ++ t) :
    Reaches (do let rest ← m; return f rest) treat before (lead ++ rest) s := by
  have hpass : (do let rest ← m; return f rest : Extract Text) s = (lead ++ (m s).1, (m s).2) := by
    rw [← hf]
    rfl
  rw [Reaches, hpass]
  simpa only [Reaches, List.append_assoc] using h

end Extract

/-! ## Words of a line -/

/-- A text is cut into the same two ends by a word and by a text that shares no character with it:
the word stands in front of that text or behind it. -/
theorem word_cases {x m y a word b : Text} (h : x ++ (m ++ y) = a ++ (word ++ b)) (hm : m ≠ [])
    (hword : word ≠ []) (hapart : ∀ c ∈ word, c ∉ m) :
    (∃ t, x = a ++ (word ++ t) ∧ b = t ++ (m ++ y)) ∨
      ∃ t, y = t ++ (word ++ b) ∧ a = x ++ (m ++ t) := by
  obtain ⟨d, m, rfl⟩ := List.exists_cons_of_ne_nil hm
  obtain ⟨c, word, rfl⟩ := List.exists_cons_of_ne_nil hword
  rcases List.append_eq_append_iff.mp h with ⟨a', rfl, ha⟩ | ⟨x', rfl, hx⟩
  · rcases List.append_eq_append_iff.mp ha with ⟨t, rfl, ht⟩ | ⟨m', hm', ht⟩
    · exact .inr ⟨t, ht, rfl⟩
    · cases m' with
      | nil => exact .inr ⟨[], by simpa using ht.symm, by simpa using hm'.symm⟩
      | cons e m' =>
        obtain ⟨rfl, -⟩ := List.cons.inj ht
        exact absurd (hm' ▸ by simp : c ∈ d :: m) (hapart c List.mem_cons_self)
  · rcases List.append_eq_append_iff.mp hx with ⟨t, rfl, ht⟩ | ⟨word', hword', ht⟩
    · exact .inl ⟨t, rfl, ht⟩
    · cases word' with
      | nil => exact .inl ⟨[], by simpa using hword'.symm, by simpa using ht.symm⟩
      | cons e word' =>
        obtain ⟨rfl, -⟩ := List.cons.inj ht
        exact absurd List.mem_cons_self (hapart d (hword' ▸ by simp))

/-- The words stand in the text in this order, and apart from each other. -/
def Text.InOrder : List Text → Text → Prop
  | [], _ => True
  | word :: words, text => ∃ a b, text = a ++ (word ++ b) ∧ InOrder words b

namespace Text.InOrder

variable {words : List Text} {text : Text}

theorem append (h : InOrder words text) (rest : Text) : InOrder words (text ++ rest) := by
  induction words generalizing text with
  | nil => trivial
  | cons word words ih =>
    obtain ⟨a, b, rfl, hb⟩ := h
    exact ⟨a, b ++ rest, by simp, ih hb⟩

theorem behind (h : InOrder words text) (front : Text) : InOrder words (front ++ text) := by
  cases words with
  | nil => trivial
  | cons word words =>
    obtain ⟨a, b, rfl, hb⟩ := h
    exact ⟨front ++ a, b, by simp, hb⟩

theorem within {text' : Text} (h : InOrder words text) (hwithin : text <:+: text') :
    InOrder words text' := by
  obtain ⟨x, y, rfl⟩ := hwithin
  exact (h.behind x).append y

/-- What shares no character with the words may be replaced. -/
theorem exchange {x m y : Text} (h : InOrder words (x ++ (m ++ y))) (hm : m ≠ [])
    (hwords : ∀ word ∈ words, word ≠ [] ∧ ∀ c ∈ word, c ∉ m) (z : Text) :
    InOrder words (x ++ (z ++ y)) := by
  induction words generalizing x with
  | nil => trivial
  | cons word words ih =>
    obtain ⟨⟨hne, hapart⟩, hrest⟩ := List.forall_mem_cons.mp hwords
    obtain ⟨a, b, htext, hb⟩ := h
    rcases word_cases htext hm hne hapart with ⟨t, rfl, rfl⟩ | ⟨t, rfl, rfl⟩
    · exact ⟨a, t ++ (z ++ y), by simp, ih hb hrest⟩
    · exact ⟨x ++ (z ++ t), b, by simp, hb⟩

end Text.InOrder

/-- Whether a character is found in no marker, and is no backslash. -/
def isUnmarked (c : Char) : Bool :=
  c != '_' && c != 'P' && c != 'H' && !c.isDigit && c != '\\'

theorem isUnmarked_of_mem_ofNat {n : Nat} {c : Char} (h : c ∈ Marker.ofNat n) :
    isUnmarked c = false := by
  rw [Marker.ofNat_eq] at h
  simp only [List.mem_cons, List.mem_append, List.not_mem_nil, or_false] at h
  rcases h with rfl | rfl | rfl | rfl | h | rfl | rfl
  all_goals first | decide | skip
  simp [isUnmarked, Marker.digit_of_mem_ofNat h]

/-- **A step brings no words into a line.** -/
theorem Rewrites.inOrder {treat : Treatment} {line line' : Text} {s s' : Extraction}
    (h : Rewrites treat (line, s) (line', s')) {words : List Text}
    (hwords : ∀ word ∈ words, word ≠ [] ∧ ∀ c ∈ word, isUnmarked c = true)
    (hline : Text.InOrder words line') : Text.InOrder words line := by
  cases h with
  | store =>
    refine hline.exchange (by simp [Extraction.marker, Marker.ofNat_eq])
      (fun word hword => ⟨(hwords word hword).1, fun c hc hmarker => ?_⟩) _
    have hmarked := isUnmarked_of_mem_ofNat hmarker
    rw [(hwords word hword).2 c hc] at hmarked
    cases hmarked
  | @escape before after =>
    have hescaped : Text.InOrder words (before ++ (['\\'] ++ '{' :: after)) := hline
    refine hescaped.exchange (by simp) (fun word hword => ⟨(hwords word hword).1, ?_⟩) []
    intro c hc hslash
    have hunmarked := (hwords word hword).2 c hc
    rw [List.mem_singleton.mp hslash] at hunmarked
    cases hunmarked

/-! ## Invariants -/

/-- A property of lines, a property of the LaTeX that is written for an argument, and a property of
states; the first two may depend on what is put aside and kept. -/
structure Invariant where
  Line : Extraction → Text → Prop
  Latex : Extraction → Text → Prop
  Sound : Extraction → Prop

/-- Treating an argument keeps to the invariant. -/
def Treatment.Keeps (treat : Treatment) (I : Invariant) : Prop :=
  ∀ (prose : Bool) ⦃argument : Text⦄ ⦃s : Extraction⦄, I.Sound s → I.Line s argument →
    s.Grows (treat prose argument s).2 ∧ I.Sound (treat prose argument s).2 ∧
      I.Latex (treat prose argument s).2 (treat prose argument s).1

namespace Invariant

/-- Every step of the extraction, trimming, segmenting and keeping an argument keep to the
invariant. -/
structure Lawful (I : Invariant) : Prop where
  rewrites : ∀ {treat : Treatment} {line line' : Text} {s s' : Extraction}, treat.Keeps I →
    Rewrites treat (line, s) (line', s') → I.Sound s → I.Line s line →
      s.Grows s' ∧ I.Sound s' ∧ I.Line s' line'
  trim : ∀ {s : Extraction} {line : Text}, I.Line s line → I.Line s (Text.trim line)
  segment : ∀ {s : Extraction} {line : Text} (prose : Bool), I.Line s line →
    I.Latex s (segmentLine prose line)
  hold : ∀ {s : Extraction} {line : Text}, I.Sound s → I.Line s line →
    I.Sound (s.hold line) ∧ I.Line (s.hold line) line ∧ I.Latex (s.hold line) line

variable {I : Invariant}

/-- What every step keeps, a run keeps. -/
theorem Lawful.rewriting (hI : I.Lawful) {treat : Treatment} (htreat : treat.Keeps I)
    {x y : Text × Extraction} (h : Rewriting treat x y) (hsound : I.Sound x.2)
    (hline : I.Line x.2 x.1) : x.2.Grows y.2 ∧ I.Sound y.2 ∧ I.Line y.2 y.1 := by
  induction h with
  | refl => exact ⟨.refl _, hsound, hline⟩
  | tail _ hstep ih =>
    obtain ⟨hgrows, hsound', hline'⟩ := ih
    obtain ⟨hgrows', hkept⟩ := hI.rewrites htreat hstep hsound' hline'
    exact ⟨hgrows.trans hgrows', hkept⟩

theorem Lawful.reaches (hI : I.Lawful) {treat : Treatment} (htreat : treat.Keeps I)
    {m : Extract Text} {text : Text} {s : Extraction} (h : m.Reaches treat [] text s)
    (hsound : I.Sound s) (hline : I.Line s text) :
    s.Grows (m s).2 ∧ I.Sound (m s).2 ∧ I.Line (m s).2 (m s).1 :=
  hI.rewriting htreat h hsound hline

end Invariant

/-- A step of the extraction rewrites a line. -/
def Step.Rewriting (step : Step) : Prop :=
  ∀ (treat : Treatment) (rounds : Nat) (text : Text) (s : Extraction),
    (step rounds treat text).Reaches treat [] text s

end MathNotes
