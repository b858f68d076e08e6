import MathNotes.Proofs.LevelLines
import MathNotes.Proofs.RewriteSteps
import MathNotes.Proofs.Totality

/-!
# Special characters

The characters `%`, `#`, `&` and `$` have a meaning of their own in LaTeX, and a line is written out
with a backslash in front of each of them (`escaped_segmentLine`).  But not all of a line is written
out: bounds, the groups below an exponent and the exponents in braces are taken as they are, and so
is what follows a command.  `Guarded` says that no special character stands where one of these
routes could take it, and then every special character of the LaTeX is escaped
(`Expression.compile_escaped`).
-/

namespace MathNotes

/-- Whether LaTeX gives the character a meaning of its own. -/
def isSpecial (c : Char) : Bool := "%#&$".toList.contains c

theorem isSpecial_eq_false {p : Char → Bool} (hp : ∀ c ∈ "%#&$".toList, p c = false) {c : Char}
    (hc : p c = true) : isSpecial c = false := by
  rw [isSpecial, List.contains_eq_mem, decide_eq_false_iff_not]
  intro hmem
  rw [hp c hmem] at hc
  cases hc

namespace Text

/-- A text without special characters. -/
def Ordinary (text : Text) : Prop := ∀ c ∈ text, isSpecial c = false

instance (text : Text) : Decidable text.Ordinary :=
  inferInstanceAs (Decidable (∀ c ∈ text, isSpecial c = false))

/-- Every special character of the text has a backslash right in front of it. -/
def Escaped (text : Text) : Prop :=
  ∀ a c b, text = a ++ c :: b → isSpecial c = true → a.getLast? = some '\\'

variable {a b text : Text}

theorem ordinary_append : Ordinary (a ++ b) ↔ a.Ordinary ∧ b.Ordinary := by
  simp only [Ordinary, List.mem_append, or_imp, forall_and]

theorem ordinary_cons {c : Char} : Ordinary (c :: text) ↔ isSpecial c = false ∧ text.Ordinary := by
  simp [Ordinary]

theorem Ordinary.within (h : text.Ordinary) (hwithin : a <:+: text) : a.Ordinary :=
  fun c hc => h c (hwithin.subset hc)

theorem ordinary_of_isNameChar (h : ∀ c ∈ text, isNameChar c = true) : text.Ordinary :=
  fun c hc => isSpecial_eq_false (by decide) (h c hc)

theorem Ordinary.escaped (h : text.Ordinary) : text.Escaped := by
  rintro a c b rfl hc
  rw [h c (by simp)] at hc
  cases hc

theorem Escaped.append (ha : a.Escaped) (hb : b.Escaped) : (a ++ b).Escaped := by
  intro x c y h hc
  rcases char_cases h with ⟨x', rfl, hx⟩ | ⟨a', ha', -⟩
  · have hlast := hb x' c y hx hc
    rw [List.getLast?_append, hlast]
    rfl
  · exact ha x c a' ha' hc

theorem escaped_nil : Escaped [] := by
  intro a c b h
  simp at h

/-- One character may be escaped. -/
theorem escaped_pair (c : Char) : Escaped ['\\', c] := by
  rintro (_ | ⟨d, _ | ⟨e, a⟩⟩) x b h hx
  · obtain ⟨rfl, -⟩ := List.cons.inj h
    exact absurd hx (by decide)
  · obtain ⟨rfl, -⟩ := List.cons.inj h
    rfl
  · simp at h

end Text

/-! ## Replacing in escaped text -/

namespace Text

/-- Where the first text is escaped, the second one is, whatever stands in front of them; and a
backslash at the end stays there. -/
def Shields (a b : Text) : Prop :=
  ∀ front : Text, Escaped (front ++ a) → Escaped (front ++ b) ∧
    ((front ++ a).getLast? = some '\\' → (front ++ b).getLast? = some '\\')

theorem escaped_concat {text : Text} {c : Char} :
    Escaped (text ++ [c]) ↔ text.Escaped ∧ (isSpecial c = true → text.getLast? = some '\\') := by
  constructor
  · intro h
    exact ⟨fun a d b hd hspecial => h a d (b ++ [c]) (by simp [hd]) hspecial, h text c [] rfl⟩
  · rintro ⟨htext, hc⟩ a d b h hd
    rcases List.eq_nil_or_concat b with rfl | ⟨b, e, rfl⟩
    · obtain ⟨rfl, hcd⟩ := List.append_inj' h rfl
      obtain rfl : c = d := by simpa using hcd
      exact hc hd
    · have h' : text ++ [c] = (a ++ d :: b) ++ [e] := by simpa using h
      exact htext a d b (List.append_inj' h' rfl).1 hd

/-- What follows an escaped text may follow another one that keeps a backslash at its end. -/
theorem Escaped.exchange {a b rest : Text} (h : Escaped (a ++ rest)) (hb : b.Escaped)
    (hlast : a.getLast? = some '\\' → b.getLast? = some '\\') :
    Escaped (b ++ rest) ∧
      ((a ++ rest).getLast? = some '\\' → (b ++ rest).getLast? = some '\\') := by
  induction rest using List.reverseRecOn with
  | nil => simpa using ⟨hb, hlast⟩
  | append_singleton rest c ih =>
    rw [← List.append_assoc, escaped_concat] at h
    obtain ⟨hrest, hslash⟩ := ih h.1
    rw [← List.append_assoc, ← List.append_assoc, escaped_concat]
    exact ⟨⟨hrest, fun hc => hslash (h.2 hc)⟩, by simp⟩

theorem compositional_shields : Text.Compositional Shields where
  refl _ _ h := ⟨h, id⟩
  trans h h' front hfront := by
    obtain ⟨hb, hlast⟩ := h front hfront
    obtain ⟨hc, hlast'⟩ := h' front hb
    exact ⟨hc, hlast' ∘ hlast⟩
  append {a b a' b'} h h' front hfront := by
    rw [← List.append_assoc] at hfront
    obtain ⟨hsecond, hlast⟩ := h' (front ++ a) hfront
    have hfirst : Escaped (front ++ a) := fun x c y hx hc =>
      hfront x c (y ++ a') (by simp [hx]) hc
    obtain ⟨hb, hlast'⟩ := h front hfirst
    obtain ⟨hall, hend⟩ := hsecond.exchange hb hlast'
    rw [← List.append_assoc, ← List.append_assoc]
    exact ⟨hall, hend ∘ hlast⟩

/-- What is escaped on its own may take the place of anything that does not end in a backslash. -/
theorem Escaped.shields {a b : Text} (hb : b.Escaped) (ha : a ≠ [])
    (hlast : a.getLast? ≠ some '\\') : Shields a b := by
  intro front h
  have hfront : Escaped front := fun x c y hx hc => h x c (y ++ a) (by simp [hx]) hc
  refine ⟨hfront.append hb, fun hend => absurd ?_ hlast⟩
  rwa [List.getLast?_append_of_ne_nil _ ha] at hend

theorem Shields.escaped {a b : Text} (h : Shields a b) (ha : a.Escaped) : b.Escaped :=
  (h [] ha).1

end Text

/-- The pass over finished LaTeX keeps special characters escaped. -/
theorem Symbol.escaped_symbolPass {latex : Text} (h : latex.Escaped) :
    (symbolPass latex).Escaped := by
  have hnames : ∀ p ∈ names, p.1 ≠ [] ∧ p.1.getLast? ≠ some '\\' ∧
      ∀ c ∈ p.2, isSpecial c = false := by decide
  have hoperators : ∀ p ∈ operators, p.1 ≠ [] ∧ p.1.getLast? ≠ some '\\' ∧
      ∀ c ∈ p.2, isSpecial c = false := by decide
  refine (symbolPass_related Text.compositional_shields (fun p hp => ?_) (fun p hp => ?_)
    latex).escaped h
  · obtain ⟨hne, hlast, hvalue⟩ := hnames p hp
    exact (Text.Ordinary.escaped hvalue).shields hne hlast
  · obtain ⟨hne, hlast, hvalue⟩ := hoperators p hp
    have hspace : Text.Escaped [' '] := (by decide : Text.Ordinary [' ']).escaped
    have hvalue := Text.Ordinary.escaped hvalue
    exact ⟨hvalue.shields hne hlast, (hvalue.append hspace).shields hne hlast⟩

theorem Marker.ordinary_ofDigits {digits : Text} (h : Script.IsDigits digits) :
    (Marker.ofDigits digits).Ordinary := by
  have hlead : Text.Ordinary Marker.lead := by decide
  have htail : Text.Ordinary Marker.tail := by decide
  refine Text.ordinary_append.mpr ⟨Text.ordinary_append.mpr ⟨hlead, fun c hc => ?_⟩, htail⟩
  exact isSpecial_eq_false (by decide) (h.all c hc)

/-- Putting escaped fragments back keeps special characters escaped. -/
theorem Fragments.escaped_fill {fragments : Fragments} (h : ∀ latex ∈ fragments, latex.Escaped)
    {line : Text} (hline : line.Escaped) :
    (Marker.pattern.replace fragments.fill line).Escaped := by
  refine (Pattern.replace_related Text.compositional_shields Marker.recognises_pattern.proper ?_
    line).escaped hline
  intro previous matched digits after hat
  obtain ⟨rfl, hdigits⟩ := Marker.recognises_pattern.spec hat
  refine Text.Escaped.shields ?_ hat.2 (by simp [Marker.ofDigits, Marker.tail])
  rw [fill]
  cases hget : fragments[decimalNumber digits]? with
  | none => exact (Marker.ordinary_ofDigits hdigits).escaped
  | some latex => exact h latex (List.mem_of_getElem? hget)

/-! ## Segmented lines -/

namespace Segment

theorem escaped_escapeMath (content : Text) : (escapeMath content).Escaped := by
  induction content with
  | nil => exact Text.escaped_nil
  | cons c content ih =>
    refine Text.Escaped.append (a := escapeMathChar c) ?_ ih
    by_cases hc : "%#&$".toList.contains c = true
    · rw [escapeMathChar, if_pos hc]
      exact Text.escaped_pair c
    · rw [escapeMathChar, if_neg hc]
      exact (Text.ordinary_cons.mpr ⟨by simpa [isSpecial] using hc, List.forall_mem_nil _⟩ :
        Text.Ordinary [c]).escaped

theorem escaped_prose (content : Text) : (Latex.prose content).Escaped := by
  have hlead : Text.Ordinary "\\text\x7b".toList := by decide
  have hclosing : Text.Ordinary ['}'] := by decide
  have hescaped : (Latex.escapeText content).Escaped := by
    induction content with
    | nil => exact Text.escaped_nil
    | cons c content ih =>
      refine Text.Escaped.append (a := Latex.escapeChar c) ?_ ih
      unfold Latex.escapeChar
      split_ifs with hslash hspecial
      · exact (by decide : Text.Ordinary "\\textbackslash ".toList).escaped
      · exact Text.escaped_pair c
      · refine (Text.ordinary_cons.mpr ⟨?_, List.forall_mem_nil _⟩ : Text.Ordinary [c]).escaped
        simp only [Bool.not_eq_true, List.contains_eq_mem, decide_eq_false_iff_not] at hspecial
        rw [isSpecial, List.contains_eq_mem, decide_eq_false_iff_not]
        exact fun hmem => hspecial (List.mem_cons_of_mem _ (by simp at hmem ⊢; tauto))
  have hprose : Latex.prose content =
      "\\text\x7b".toList ++ (Latex.escapeText content ++ ['}']) := by
    simp [Latex.prose, Latex.command, Latex.braced]
  rw [hprose]
  exact hlead.escaped.append (hescaped.append hclosing.escaped)

/-- A segment that is written with its special characters escaped. -/
def Shielded : Segment → Prop
  | math content => content.Escaped
  | _ => True

theorem shielded_ofToken {token : Text} (h : token.head? = some '\\' → token.Escaped)
    (next : Option Text) : (ofToken token next).Shielded := by
  rcases ofToken_cases token next with ⟨hcase, -⟩ | ⟨hcase, hcommand⟩ | hcase | hcase | ⟨hcase, -⟩
  · rw [hcase]
    trivial
  · rw [hcase]
    exact h hcommand
  · rw [hcase]
    exact escaped_escapeMath _
  · rw [hcase]
    exact escaped_escapeMath _
  · rw [hcase]
    trivial

theorem shielded_mergeText {segments : List Segment}
    (h : ∀ segment ∈ segments, segment.Shielded) :
    ∀ segment ∈ mergeText segments, segment.Shielded := by
  induction segments with
  | nil => exact h
  | cons segment segments ih =>
    obtain ⟨hsegment, hrest⟩ := List.forall_mem_cons.mp h
    cases segment with
    | math content => exact List.forall_mem_cons.mpr ⟨hsegment, ih hrest⟩
    | space blanks => exact List.forall_mem_cons.mpr ⟨hsegment, ih hrest⟩
    | text word =>
      rw [mergeText, consText]
      split
      · rename_i content rest hfound
        obtain ⟨-, hsuffix⟩ := textBehindSpace?_mem hfound
        exact List.forall_mem_cons.mpr ⟨trivial, fun s hs => ih hrest s (hsuffix.mem hs)⟩
      · exact List.forall_mem_cons.mpr ⟨trivial, ih hrest⟩

theorem escaped_renderOne (before : List Segment) {segment : Segment} (h : segment.Shielded)
    (after : List Segment) : (renderOne before segment after).Escaped := by
  have hspace : Text.Escaped [' '] := (by decide : Text.Ordinary [' ']).escaped
  have hoperator : ∀ neighbour, (operatorGap neighbour).Escaped := by
    intro neighbour
    unfold operatorGap
    split
    · exact hspace
    · exact Text.escaped_nil
  have hprose : ∀ close neighbour, (proseGap close neighbour).Escaped := by
    intro close neighbour
    unfold proseGap
    split
    · split
      · exact Text.escaped_nil
      · exact Text.escaped_pair ' '
    · exact Text.escaped_nil
  cases segment with
  | math content =>
    rw [renderOne]
    split
    · exact ((hoperator _).append h).append (hoperator _)
    · exact h
  | space blanks =>
    rw [renderOne]
    split
    · exact hspace
    · exact Text.escaped_nil
  | text content => exact ((hprose _ _).append (escaped_prose content)).append (hprose _ _)

theorem escaped_renderBehind (before : List Segment) {segments : List Segment}
    (h : ∀ segment ∈ segments, segment.Shielded) : (renderBehind before segments).Escaped := by
  induction segments generalizing before with
  | nil => exact Text.escaped_nil
  | cons segment segments ih =>
    obtain ⟨hsegment, hrest⟩ := List.forall_mem_cons.mp h
    exact (escaped_renderOne before hsegment segments).append (ih (segment :: before) hrest)

end Segment

/-! ## Lines -/

/-- The routes on which characters of a line reach the LaTeX as they are: what stands somewhere in
front of them, and what stands somewhere behind them. -/
def routes : List (Text × Text) :=
  [("integral", ")"), ("sum", ")"), ("lim", ")"), ("\x7b", "\x7d"), ("(", ")^(")]

/-- No special character stands on one of the routes, or behind a command. -/
structure Guarded (line : Text) : Prop where
  routes : ∀ p ∈ routes, ∀ c, isSpecial c = true → ¬ Text.InOrder [p.1, [c], p.2] line
  commands : ∀ a x b, line = a ++ '\\' :: x :: b → x ≠ '{' → Text.Ordinary b

theorem Text.InOrder.mem {words : List Text} {text : Text} (h : InOrder words text) {word : Text}
    (hword : word ∈ words) : word <:+: text := by
  induction words generalizing text with
  | nil => cases hword
  | cons first words ih =>
    obtain ⟨a, b, rfl, hb⟩ := h
    rcases List.mem_cons.mp hword with rfl | hword
    · exact ⟨a, b, by simp⟩
    · exact (ih hb hword).trans ⟨a ++ first, [], by simp⟩

namespace Guarded

variable {line : Text}

theorem within (h : Guarded line) {part : Text} (hpart : part <:+: line) : Guarded part where
  routes p hp c hc hin := h.routes p hp c hc (hin.within hpart)
  commands a x b hab hx := by
    obtain ⟨front, back, rfl⟩ := hpart
    have hmore := h.commands (front ++ a) x (b ++ back) (by simp [hab]) hx
    exact (Text.ordinary_append.mp hmore).1

theorem of_ordinary (h : line.Ordinary) : Guarded line where
  routes p hp c hc hin := by
    have hmem := h c ((hin.mem (by simp : [c] ∈ [p.1, [c], p.2])).subset (by simp))
    rw [hc] at hmem
    cases hmem
  commands a x b hab _ := h.within ⟨a ++ ['\\', x], [], by simp [hab]⟩

/-- What stands on a route is ordinary. -/
theorem ordinary (h : Guarded line) {p : Text × Text} (hp : p ∈ MathNotes.routes) {a b d : Text}
    (hline : line = a ++ (p.1 ++ (b ++ (p.2 ++ d)))) : b.Ordinary := by
  intro c hc
  by_contra hspecial
  obtain ⟨x, y, rfl⟩ := List.append_of_mem hc
  refine h.routes p hp c (by simpa using hspecial) ?_
  exact ⟨a, _, hline, x, y ++ (p.2 ++ d), by simp, y, d, rfl, trivial⟩

/-- A token that starts with a backslash is a command, or the backslash alone. -/
theorem escaped_tokens {tokens : List Text} (htokens : Tokenized line tokens) (h : Guarded line) :
    ∀ token ∈ tokens, token.head? = some '\\' → token.Escaped := by
  induction htokens with
  | nil => exact List.forall_mem_nil _
  | @cons run rest tokens _ hkind _ _ ih =>
    refine List.forall_mem_cons.mpr
      ⟨fun hhead => ?_, ih (h.within (List.suffix_append run rest).isInfix)⟩
    obtain ⟨run, rfl⟩ := List.head?_eq_some_iff.mp hhead
    cases run with
    | nil => exact (by decide : Text.Ordinary ['\\']).escaped
    | cons x run =>
      -- The characters of a run are of one kind, and a brace is not of the kind of a backslash.
      have hx : x ≠ '{' := by
        rintro rfl
        exact absurd (hkind '\\' (by simp) '{' (by simp)) (by decide)
      have hrun := (Text.ordinary_append.mp (h.commands [] x (run ++ rest) rfl hx)).1
      exact (Text.escaped_pair x).append hrun.escaped

theorem shielded_ofTokens {tokens : List Text}
    (h : ∀ token ∈ tokens, token.head? = some '\\' → token.Escaped) :
    ∀ segment ∈ Segment.ofTokens tokens, segment.Shielded := by
  induction tokens with
  | nil => exact List.forall_mem_nil _
  | cons token tokens ih =>
    obtain ⟨htoken, hrest⟩ := List.forall_mem_cons.mp h
    exact List.forall_mem_cons.mpr ⟨Segment.shielded_ofToken htoken _, ih hrest⟩

/-- **A guarded line is written out with its special characters escaped.** -/
theorem escaped_segmentLine (h : Guarded line) (prose : Bool) :
    (segmentLine prose line).Escaped := by
  have hshielded := shielded_ofTokens (escaped_tokens (tokenized_tokenize line) h)
  refine Segment.escaped_renderBehind [] (Segment.shielded_mergeText ?_)
  cases prose with
  | true => exact hshielded
  | false =>
    intro segment hmem
    obtain ⟨source, hsource, rfl⟩ := List.mem_map.mp hmem
    cases source with
    | text content => exact Segment.escaped_escapeMath content
    | math content => exact hshielded _ hsource
    | space blanks => trivial

end Guarded

/-! ## Steps of the extraction -/

theorem Text.compositional_ordinary :
    Text.Compositional fun a b => Text.Ordinary a → Text.Ordinary b where
  refl _ h := h
  trans h h' hordinary := h' (h hordinary)
  append h h' hordinary := by
    obtain ⟨ha, ha'⟩ := Text.ordinary_append.mp hordinary
    exact Text.ordinary_append.mpr ⟨h ha, h' ha'⟩

theorem Text.ordinary_replace {α : Type} {pattern : Pattern α} {replacement : α → Text}
    {Spec : Option Char → Text → α → Text → Prop} (hp : pattern.Recognises Spec)
    (h : ∀ ⦃previous matched value after⦄, Spec previous matched value after →
      Text.Ordinary matched → (replacement value).Ordinary) {text : Text} (htext : text.Ordinary) :
    (pattern.replace replacement text).Ordinary :=
  Pattern.replace_related Text.compositional_ordinary hp.proper
    (fun _ _ _ _ hat => h (hp.spec hat)) text htext

theorem Symbol.ordinary_substituteSetWords {text : Text} (h : text.Ordinary) :
    (substituteSetWords text).Ordinary := by
  have hwords : ∀ p ∈ setWords, p.1 ≠ [] ∧ Text.Ordinary p.2 := by decide
  exact Text.ordinary_replace (Pattern.recognises_wordPattern fun p hp => (hwords p hp).1)
    (fun _ _ _ _ hspec _ => (hwords _ hspec.1).2) h

namespace Bound

theorem ordinary_inBraces {mark : Char} (hmark : isSpecial mark = false) {base : Char}
    {script : Text} (hbase : isSpecial base = false) (hscript : script.Ordinary) :
    (Script.inBraces mark (base, script)).Ordinary := by
  refine Text.ordinary_cons.mpr ⟨hbase, Text.ordinary_cons.mpr ⟨hmark, ?_⟩⟩
  exact Text.ordinary_cons.mpr ⟨by decide, Text.ordinary_append.mpr ⟨hscript, by decide⟩⟩

theorem ordinary_scripts (isBase : Char → Bool) {mark : Char} (hmark : isSpecial mark = false)
    {text : Text} (h : text.Ordinary) :
    ((Script.bare isBase mark).replace (Script.inBraces mark)
      ((Script.grouped isBase mark).replace (Script.inBraces mark) text)).Ordinary := by
  refine Text.ordinary_replace (Script.recognises_bare isBase mark) ?_
    (Text.ordinary_replace (Script.recognises_grouped isBase mark) ?_ h)
  · rintro _ _ ⟨base, script⟩ _ ⟨rfl, -⟩ hordinary
    obtain ⟨hbase, hrest⟩ := Text.ordinary_cons.mp hordinary
    exact ordinary_inBraces hmark hbase (Text.ordinary_cons.mp hrest).2
  · rintro _ _ ⟨base, script⟩ _ ⟨rfl, -⟩ hordinary
    obtain ⟨hbase, hrest⟩ := Text.ordinary_cons.mp hordinary
    exact ordinary_inBraces hmark hbase (hrest.within ⟨[mark, '('], [')'], by simp⟩)

theorem ordinary_replaceAll {needle replacement text : Text} (hneedle : needle ≠ [])
    (hreplacement : replacement.Ordinary) (h : text.Ordinary) :
    (replaceAll needle replacement text).Ordinary := by
  refine Text.ordinary_replace (Pattern.recognises_wordPattern
    fun p hp => List.mem_singleton.mp hp ▸ hneedle) ?_ h
  rintro _ _ _ _ ⟨hmem, -⟩ -
  obtain ⟨-, rfl⟩ := Prod.mk.inj (List.mem_singleton.mp hmem)
  exact hreplacement

theorem ordinary_normalize {bound : Text} (h : bound.Ordinary) : (normalize bound).Ordinary := by
  have htrim : (Text.trim bound).Ordinary := h.within <| Text.trim_infix bound
  exact ordinary_replaceAll (by decide) (by decide) (ordinary_replaceAll (by decide) (by decide)
    (ordinary_scripts _ (by decide) (ordinary_scripts _ (by decide) htrim)))

end Bound

/-- The arguments that were kept as they were written are ordinary. -/
def Extraction.Restrained (s : Extraction) : Prop := ∀ argument ∈ s.kept, Text.Ordinary argument

theorem Extraction.Grows.restrained {s s' : Extraction} (h : s.Grows s') (h' : s'.Restrained) :
    s.Restrained :=
  fun argument hmem => h' argument (h.kept.subset hmem)

/-- Lines are guarded, and what is written for them is escaped, as far as only ordinary arguments
were kept. -/
def escaping : Invariant where
  Line _ line := Guarded line
  Latex s latex := s.Restrained → latex.Escaped
  Sound s := s.Restrained → ∀ latex ∈ s.fragments, latex.Escaped

section Constructs

variable {treat : Treatment} {s s' : Extraction} {before after source latex : Text}

/-- What a guarded argument is treated to. -/
theorem Treatment.Keeps.escaped (htreat : treat.Keeps escaping) {prose : Bool}
    {argument latex : Text} (harg : treat prose argument s = (latex, s'))
    (hsound : escaping.Sound s) (hguarded : Guarded argument) :
    s.Grows s' ∧ escaping.Sound s' ∧ (s'.Restrained → latex.Escaped) := by
  have hkeeps := htreat prose hsound hguarded
  rwa [harg] at hkeeps

/-- A part of a construct; what is only normalised must be ordinary. -/
theorem Slot.Writes.escaped (htreat : treat.Keeps escaping) {slot : Slot} {a t : Text}
    (h : slot.Writes treat a s t s') (hsound : escaping.Sound s) (hguarded : Guarded a)
    (hverbatim : slot ≠ .verbatim) (hplain : slot = .bound ∨ slot = .member → a.Ordinary) :
    s.Grows s' ∧ escaping.Sound s' ∧ (s'.Restrained → t.Escaped) := by
  cases slot with
  | argument prose => exact htreat.escaped h hsound hguarded
  | member =>
    exact htreat.escaped h hsound
      (.of_ordinary (Symbol.ordinary_substituteSetWords (hplain (.inr rfl))))
  | bound =>
    have hbound : t = Bound.normalize a ∧ s' = s := h
    rw [hbound.1, hbound.2]
    exact ⟨.refl _, hsound, fun _ => (Bound.ordinary_normalize (hplain (.inl rfl))).escaped⟩
  | verbatim => exact absurd rfl hverbatim

theorem WritesSlots.escaped (htreat : treat.Keeps escaping) {slots : List (Slot × Text × Text)}
    (h : WritesSlots treat slots source s latex s') (hsound : escaping.Sound s)
    (hguarded : Guarded source) (hverbatim : ∀ p ∈ slots, p.1 ≠ .verbatim)
    (hplain : ∀ p ∈ slots, p.1 = .bound ∨ p.1 = .member → source.Ordinary)
    (hfixed : ∀ p ∈ slots, Text.Ordinary p.2.2) :
    s.Grows s' ∧ escaping.Sound s' ∧ (s'.Restrained → latex.Escaped) := by
  induction h with
  | nil => exact ⟨.refl _, hsound, fun _ => Text.escaped_nil⟩
  | @cons slot l l' slots a t source latex s s₁ s₂ hwrites _ ih =>
    obtain ⟨hslot, hverbatim⟩ := List.forall_mem_cons.mp hverbatim
    obtain ⟨hfence, hfixed⟩ := List.forall_mem_cons.mp hfixed
    have ha : a <:+: a ++ (l ++ source) := (List.prefix_append _ _).isInfix
    have hrest : source <:+: a ++ (l ++ source) := ⟨a ++ l, [], by simp⟩
    obtain ⟨hgrows, hsound₁, ht⟩ := hwrites.escaped htreat hsound (hguarded.within ha) hslot
      fun hkind => (hplain _ List.mem_cons_self hkind).within ha
    obtain ⟨hgrows', hsound₂, hlatex⟩ := ih hsound₁ (hguarded.within hrest) hverbatim
      (fun p hp hkind => (hplain p (List.mem_cons_of_mem _ hp) hkind).within hrest) hfixed
    exact ⟨hgrows.trans hgrows', hsound₂, fun hrestrained =>
      (ht (hgrows'.restrained hrestrained)).append (hfence.escaped.append (hlatex hrestrained))⟩

/-- The fixed texts of the catalogue have no special characters. -/
theorem Listed.ordinary {previous : Option Char} {shape : Shape} (h : Listed previous shape) :
    shape.lead.2.Ordinary ∧ ∀ p ∈ shape.slots, Text.Ordinary p.2.2 := by
  have hcalls : ∀ name ∈ ["sqrt".toList, "vec".toList] ++ Symbol.functionNames,
      Text.Ordinary ('\\' :: name ++ ['{']) ∧ Text.Ordinary ('\\' :: name ++ ['(']) := by decide
  have hrounded : ∀ name ∈ ["floor".toList, "ceil".toList],
      Text.Ordinary ("\\l" ++ name ++ [' ']) ∧ Text.Ordinary (" \\r" ++ name) := by decide
  have hoperators : ∀ operator ∈ Bound.operators, Text.Ordinary operator.2 ∧
      Text.Ordinary (operator.2 ++ ['_', '{']) := by decide
  have hbrace : Text.Ordinary ['}'] := by decide
  have hround : Text.Ordinary [')'] := by decide
  have hjoint : Text.Ordinary "\x7d\x7b".toList := by decide
  have hpower : Text.Ordinary "\x7d^\x7b".toList := by decide
  have hset : Text.Ordinary ['\\', '{'] ∧ Text.Ordinary ['\\', '}'] := by decide
  have hmarks : ∀ {mark : Char}, mark = '_' ∨ mark = '^' → Text.Ordinary [mark, '{'] := by
    rintro _ (rfl | rfl)
    · decide
    · decide
  cases h with
  | compoundFactorial =>
    exact ⟨(by decide : Text.Ordinary ['(']),
      List.forall_mem_singleton.mpr (by decide : Text.Ordinary ")!".toList)⟩
  | factorial =>
    exact ⟨List.forall_mem_nil _, List.forall_mem_singleton.mpr (by decide : Text.Ordinary ['!'])⟩
  | command _ hname =>
    exact ⟨(hcalls _ (List.mem_append_left _ hname)).1, List.forall_mem_singleton.mpr hbrace⟩
  | rounded _ hname =>
    exact ⟨(hrounded _ hname).1, List.forall_mem_singleton.mpr (hrounded _ hname).2⟩
  | function _ hname =>
    exact ⟨(hcalls _ (List.mem_append_right _ hname)).2, List.forall_mem_singleton.mpr hround⟩
  | binomial =>
    exact ⟨(by decide : Text.Ordinary "\\binom\x7b".toList),
      List.forall_mem_cons.mpr ⟨hjoint, List.forall_mem_singleton.mpr hbrace⟩⟩
  | unbounded hop => exact ⟨(hoperators _ hop).1, List.forall_mem_nil _⟩
  | lowerBound hop => exact ⟨(hoperators _ hop).2, List.forall_mem_singleton.mpr hbrace⟩
  | bothBounds hop _ _ _ hbetween =>
    refine ⟨(hoperators _ hop).2,
      List.forall_mem_cons.mpr ⟨?_, List.forall_mem_singleton.mpr hbrace⟩⟩
    rcases hbetween with rfl | rfl
    · exact (by decide : Text.Ordinary " \\to ".toList)
    · exact hpower
  | vector n =>
    have hslots : ∀ p ∈ Vector.slots n, Text.Ordinary p.2.2 := by
      intro p hp
      rcases List.mem_append.mp hp with hp | hp
      · rw [List.eq_of_mem_replicate hp]
        exact (by decide : Text.Ordinary ",\\; ".toList)
      · rw [List.mem_singleton.mp hp]
        exact (by decide : Text.Ordinary " \\rangle".toList)
    exact ⟨(by decide : Text.Ordinary "\\langle ".toList), hslots⟩
  | set => exact ⟨hset.1, List.forall_mem_singleton.mpr hset.2⟩
  | conditionalSet =>
    exact ⟨hset.1, List.forall_mem_cons.mpr
      ⟨(by decide : Text.Ordinary " \\mid ".toList), List.forall_mem_singleton.mpr hset.2⟩⟩
  | absolute =>
    exact ⟨(by decide : Text.Ordinary "\\left|".toList),
      List.forall_mem_singleton.mpr (by decide : Text.Ordinary "\\right|".toList)⟩
  | fraction =>
    exact ⟨(by decide : Text.Ordinary "\\frac\x7b".toList),
      List.forall_mem_cons.mpr ⟨hjoint, List.forall_mem_singleton.mpr hbrace⟩⟩
  | script hmark =>
    exact ⟨List.forall_mem_nil _,
      List.forall_mem_cons.mpr ⟨hmarks hmark, List.forall_mem_singleton.mpr hbrace⟩⟩
  | bareScript hmark =>
    exact ⟨List.forall_mem_nil _,
      List.forall_mem_cons.mpr ⟨hmarks hmark, List.forall_mem_singleton.mpr hbrace⟩⟩
  | power =>
    exact ⟨(by decide : Text.Ordinary ['{']),
      List.forall_mem_cons.mpr ⟨hpower, List.forall_mem_singleton.mpr hbrace⟩⟩
  | barePower =>
    exact ⟨(by decide : Text.Ordinary ['{']),
      List.forall_mem_cons.mpr ⟨hpower, List.forall_mem_singleton.mpr hbrace⟩⟩

/-- What is taken as it is stands on a route. -/
theorem Listed.ordinary_source {previous : Option Char} {shape : Shape} (h : Listed previous shape)
    (hslots : WritesSlots treat shape.slots source s latex s')
    (hguarded : Guarded (shape.lead.1 ++ source)) {p : Slot × Text × Text} (hp : p ∈ shape.slots)
    (hkind : p.1 = .bound ∨ p.1 = .member) : source.Ordinary := by
  have hroutes : ∀ operator ∈ Bound.operators, (operator.1, [')']) ∈ routes := by decide
  have hbraces : (['{'], ['}']) ∈ routes := by decide
  -- The part of the source in front of the closing bracket is ordinary, and so is the bracket.
  have hclose : ∀ {route : Text × Text} (between content : Text), route ∈ routes →
      shape.lead.1 = route.1 ++ between → source = content ++ route.2 → route.2.Ordinary →
      source.Ordinary := by
    intro route between content hroute hlead hsource hordinary
    have hcontent := hguarded.ordinary hroute (a := []) (b := between ++ content) (d := [])
      (by simp [hlead, hsource])
    rw [hsource]
    exact Text.ordinary_append.mpr ⟨(Text.ordinary_append.mp hcontent).2, hordinary⟩
  cases h with
  | @lowerBound name command blanks mark blanks' hop =>
    cases hslots with
    | @cons _ _ _ _ a _ _ _ _ _ _ _ more =>
      cases more
      exact hclose _ a (hroutes _ hop) rfl (by simp)
        (by decide : Text.Ordinary [')'])
  | @bothBounds name command blanks mark blanks' between hop =>
    cases hslots with
    | @cons _ _ _ _ a _ _ _ _ _ _ _ more =>
      cases more with
      | @cons _ _ _ _ b _ _ _ _ _ _ _ more =>
        cases more
        exact hclose _ (a ++ '-' :: '>' :: b) (hroutes _ hop) rfl (by simp)
          (by decide : Text.Ordinary [')'])
  | set =>
    cases hslots with
    | @cons _ _ _ _ a _ _ _ _ _ _ _ more =>
      cases more
      exact hclose [] a hbraces rfl (by simp)
        (by decide : Text.Ordinary ['}'])
  | @conditionalSet separator hseparator =>
    cases hslots with
    | @cons _ _ _ _ a _ _ _ _ _ _ _ more =>
      cases more with
      | @cons _ _ _ _ b _ _ _ _ _ _ _ more =>
        cases more
        exact hclose [] (a ++ separator :: b) hbraces rfl
          (by simp) (by decide : Text.Ordinary ['}'])
  | vector n =>
    rcases List.mem_append.mp hp with hp | hp
    · rw [List.eq_of_mem_replicate hp] at hkind
      simp at hkind
    · rw [List.mem_singleton.mp hp] at hkind
      simp at hkind
  | unbounded => exact absurd hp List.not_mem_nil
  | _ =>
    simp only [List.mem_cons, List.not_mem_nil, or_false] at hp
    grind

theorem Operand.ungrouped_within (operand : Text) : ungrouped operand <:+: operand := by
  rw [ungrouped]
  split
  · rename_i content hsplit
    obtain ⟨rest, hopen, hclosing⟩ := Option.bind_eq_some_iff.mp hsplit
    rw [Text.after?_eq_some_iff.mp hopen, Delimiters.round_splitClosing? hclosing]
    exact ⟨['('], [')'], by simp⟩
  · exact List.infix_rfl

theorem IsBase.ordinary {mark base : Char} (h : IsBase mark base) : Text.Ordinary [base, mark] := by
  have hbase : isSpecial base = false := by
    rcases h with ⟨-, h⟩ | ⟨-, h | rfl | rfl⟩
    · exact isSpecial_eq_false (by decide) h
    · exact isSpecial_eq_false (by decide +kernel) h
    · decide
    · decide
  have hmark : isSpecial mark = false := by
    rcases h with ⟨rfl, -⟩ | ⟨rfl, -⟩ <;> decide
  exact Text.ordinary_cons.mpr ⟨hbase, Text.ordinary_cons.mpr ⟨hmark, List.forall_mem_nil _⟩⟩

theorem Script.IsRun.ordinary {run : Text} (h : Script.IsRun run after) : run.Ordinary :=
  Text.ordinary_of_isNameChar fun c hc => by simp [isNameChar, h.all c hc]

theorem Text.Escaped.braced {body : Text} (h : body.Escaped) : (Latex.braced body).Escaped :=
  Text.Escaped.append (a := ['{']) (by decide : Text.Ordinary ['{']).escaped
    (h.append (by decide : Text.Ordinary ['}']).escaped)

/-- An exponent on a fragment. -/
theorem Marker.escaped_power {digits body : Text} (h : Script.IsDigits digits)
    (hbody : body.Escaped) :
    Text.Escaped (Latex.braced (Marker.ofDigits digits) ++ '^' :: Latex.braced body) :=
  (Marker.ordinary_ofDigits h).escaped.braced.append
    (Text.Escaped.append (a := ['^']) (by decide : Text.Ordinary ['^']).escaped hbody.braced)

/-- **A construct of a guarded line is written with its special characters escaped.** -/
theorem Written.escaped (htreat : treat.Keeps escaping)
    (h : Written treat before after source s latex s') (hsound : escaping.Sound s)
    (hguarded : Guarded (before ++ (source ++ after))) :
    s.Grows s' ∧ escaping.Sound s' ∧ (s'.Restrained → latex.Escaped) := by
  have hsource : Guarded source := hguarded.within ⟨before, after, by simp⟩
  cases h with
  | listed _ _ listed fenced slots =>
    obtain ⟨hlead, hfixed⟩ := listed.ordinary
    obtain ⟨hgrows, hsound', hlatex⟩ := slots.escaped htreat hsound
      (hsource.within (List.suffix_append _ _).isInfix) (fun p hp => (fenced p hp).1)
      (fun p hp hkind => listed.ordinary_source slots hsource hp hkind) hfixed
    exact ⟨hgrows, hsound', fun hrestrained => hlead.escaped.append (hlatex hrestrained)⟩
  | @fraction left right blanks blanks' numerator denominator _ s₁ _ _ _ _ _ _ _ hleft hright =>
    have hwithin : left <:+: left ++ (blanks ++ '/' :: (blanks' ++ right)) :=
      (List.prefix_append _ _).isInfix
    have hwithin' : right <:+: left ++ (blanks ++ '/' :: (blanks' ++ right)) :=
      ⟨left ++ (blanks ++ '/' :: blanks'), [], by simp⟩
    obtain ⟨hgrows, hsound₁, hnumerator⟩ := htreat.escaped hleft hsound
      (hsource.within ((Operand.ungrouped_within left).trans hwithin))
    obtain ⟨hgrows', hsound₂, hdenominator⟩ := htreat.escaped hright hsound₁
      (hsource.within ((Operand.ungrouped_within right).trans hwithin'))
    refine ⟨hgrows.trans hgrows', hsound₂, fun hrestrained => ?_⟩
    have hlatex : Latex.command "frac" [numerator, denominator] =
        "\\frac".toList ++ (Latex.braced numerator ++ Latex.braced denominator) := by
      simp [Latex.command]
    rw [hlatex]
    have hnumerator := hnumerator (hgrows'.restrained hrestrained)
    exact (by decide : Text.Ordinary "\\frac".toList).escaped.append
      (hnumerator.braced.append (hdenominator hrestrained).braced)
  | @script base mark argument t _ _ hbase harg =>
    obtain ⟨hgrows, hsound', ht⟩ := htreat.escaped harg hsound
      (hsource.within ⟨[base, mark, '('], [')'], by simp⟩)
    exact ⟨hgrows, hsound', fun hrestrained =>
      hbase.ordinary.escaped.append (ht hrestrained).braced⟩
  | @bareScript base mark run _ hbase hrun =>
    have hordinary : run.Ordinary := by
      rcases hrun with hrun | ⟨-, digits, rfl, hdigits⟩
      · exact hrun.ordinary
      · exact Marker.ordinary_ofDigits hdigits
    exact ⟨.refl _, hsound, fun _ => hbase.ordinary.escaped.append hordinary.escaped.braced⟩
  | @group content argument t _ _ harg =>
    obtain ⟨hgrows, hsound', ht⟩ := htreat.escaped harg hsound
      (hsource.within ⟨'(' :: (content ++ [')', '^', '(']), [')'], by simp⟩)
    have hcontent : content.Ordinary := hsource.ordinary (p := (['('], [')', '^', '(']))
      (by decide) (a := []) (d := argument ++ [')']) (by simp)
    have hbase : Text.Ordinary ('(' :: (content ++ [')', '^'])) :=
      Text.ordinary_cons.mpr ⟨by decide, Text.ordinary_append.mpr ⟨hcontent, by decide⟩⟩
    refine ⟨hgrows, hsound', fun hrestrained => ?_⟩
    simpa using hbase.escaped.append (ht hrestrained).braced
  | @power digits newline argument t _ _ hdigits _ harg =>
    obtain ⟨hgrows, hsound', ht⟩ := htreat.escaped harg hsound
      (hsource.within ⟨Marker.ofDigits digits ++ (newline ++ ['^', '(']), [')'], by simp⟩)
    exact ⟨hgrows, hsound', fun hrestrained => Marker.escaped_power hdigits (ht hrestrained)⟩
  | barePower hdigits hrun =>
    exact ⟨.refl _, hsound, fun _ => Marker.escaped_power hdigits hrun.ordinary.escaped⟩
  | @bracedPower digits content _ hdigits =>
    have hcontent : content.Ordinary := hsource.ordinary (p := (['{'], ['}'])) (by decide)
      (a := Marker.ofDigits digits ++ ['^']) (d := []) (by simp)
    exact ⟨.refl _, hsound, fun _ => Marker.escaped_power hdigits hcontent.escaped⟩

end Constructs

theorem routes_unmarked : ∀ p ∈ routes, ∀ c ∈ "%#&$".toList, ∀ word ∈ [p.1, [c], p.2],
    word ≠ [] ∧ ∀ d ∈ word, isUnmarked d = true := by
  decide

theorem mem_of_isSpecial {c : Char} (h : isSpecial c = true) : c ∈ "%#&$".toList := by
  simpa [isSpecial] using h

namespace Guarded

variable {treat : Treatment} {before after source latex : Text} {s s' : Extraction}

/-- A marker in the place of a construct: what stands behind a command stays ordinary. -/
theorem commands_store (written : Written treat before after source s latex s')
    (h : Guarded (before ++ (source ++ after))) {a b : Text} {x : Char}
    (hab : before ++ (s'.marker ++ after) = a ++ (['\\'] ++ x :: b)) (hx : x ≠ '{') :
    b.Ordinary := by
  have hmarker : Text.Ordinary s'.marker :=
    Text.ordinary_of_isNameChar fun c hc => Marker.nameChar_of_mem_ofNat hc
  have hslash : ∀ c ∈ ['\\'], c ∉ s'.marker := by
    intro c hc hmem
    have hname := Marker.nameChar_of_mem_ofNat hmem
    rw [List.mem_singleton.mp hc] at hname
    cases hname
  rcases word_cases hab (by simp [Extraction.marker, Marker.ofNat_eq])
    (by simp) hslash with ⟨t, rfl, ht⟩ | ⟨t, rfl, -⟩
  · -- The command stands in front of the marker, or the marker follows the backslash.
    cases t with
    | nil =>
      obtain ⟨y, rest, rfl, hy⟩ := written.exists_head
      have hold := h.commands a y (rest ++ after) (by simp) (hy (by simp))
      have hnew : b <:+: s'.marker ++ after := ⟨[x], [], by simpa using ht⟩
      exact (Text.ordinary_append.mpr ⟨hmarker, (Text.ordinary_append.mp hold).2⟩).within hnew
    | cons y t =>
      rw [List.cons_append] at ht
      obtain ⟨rfl, rfl⟩ := List.cons.inj ht
      have hold := h.commands a x (t ++ (source ++ after)) (by simp) hx
      simp only [Text.ordinary_append] at hold ⊢
      exact ⟨hold.1, hmarker, hold.2.2⟩
  · exact h.commands (before ++ (source ++ t)) x b (by simp) hx

/-- A backslash in front of a brace: what stands behind another command stays ordinary. -/
theorem commands_escape (h : Guarded (before ++ '{' :: after))
    (hlast : before.getLast? ≠ some '\\') {a b : Text} {x : Char}
    (hab : (before ++ ['\\']) ++ (['{'] ++ after) = a ++ (['\\'] ++ x :: b)) (hx : x ≠ '{') :
    b.Ordinary := by
  rcases word_cases hab (by simp) (by simp) (by simp) with ⟨t, ht, hb⟩ | ⟨t, rfl, -⟩
  · cases t with
    | nil => exact absurd (List.cons.inj hb).1 hx
    | cons y t =>
      rw [List.cons_append] at hb
      obtain ⟨rfl, rfl⟩ := List.cons.inj hb
      rcases List.eq_nil_or_concat t with rfl | ⟨t, z, rfl⟩
      · -- The new backslash would be escaped by one that stands in front of it.
        have hbefore : before ++ ['\\'] = (a ++ ['\\']) ++ [x] := by simpa using ht
        exact absurd (by simp [(List.append_inj' hbefore rfl).1]) hlast
      · have hbefore : before ++ ['\\'] = (a ++ '\\' :: x :: t) ++ [z] := by simpa using ht
        obtain ⟨rfl, hz⟩ := List.append_inj' hbefore rfl
        obtain rfl : '\\' = z := by simpa using hz
        have hold := h.commands a x (t ++ ['{'] ++ after) (by simp) hx
        simp only [List.concat_eq_append, Text.ordinary_append] at hold ⊢
        exact ⟨⟨hold.1.1, by decide⟩, hold.1.2, hold.2⟩
  · exact h.commands (before ++ '{' :: t) x b (by simp) hx

/-- **Every step keeps a line guarded.** -/
theorem rewrites {line line' : Text} (h : Guarded line)
    (hstep : Rewrites treat (line, s) (line', s')) : Guarded line' where
  routes p hp c hc hin :=
    h.routes p hp c hc (hstep.inOrder (routes_unmarked p hp c (mem_of_isSpecial hc)) hin)
  commands a x b hab hx := by
    cases hstep with
    | store written => exact h.commands_store written hab hx
    | escape hlast => exact h.commands_escape hlast (by simpa using hab) hx

end Guarded

/-- **Escaping is kept by every step of the extraction.** -/
theorem lawful_escaping : escaping.Lawful where
  rewrites {treat line line' s s'} htreat hstep hsound hline := by
    have hline' : Guarded line' := Guarded.rewrites hline hstep
    cases hstep with
    | store written =>
      obtain ⟨hgrows, hsound', hlatex⟩ := written.escaped htreat hsound hline
      refine ⟨hgrows.put _, fun hrestrained => ?_, hline'⟩
      exact List.forall_mem_append.mpr
        ⟨hsound' hrestrained, List.forall_mem_singleton.mpr (hlatex hrestrained)⟩
    | escape => exact ⟨.refl _, hsound, hline'⟩
  trim {s line} h := Guarded.within h (Text.trim_infix line)
  segment prose h _ := Guarded.escaped_segmentLine h prose
  hold {s line} hsound hline :=
    ⟨fun hrestrained => hsound ((Extraction.Grows.hold s line).restrained hrestrained), hline,
      fun hrestrained => (hrestrained line (by simp [Extraction.hold])).escaped⟩

/-! ## Lines as they are written -/

/-- Whether the words stand in a text, one behind the other. -/
def Text.inOrder : List Text → Text → Bool
  | [], _ => true
  | word :: words, text =>
    text.tails.any fun rest => word.isPrefixOf rest && inOrder words (rest.drop word.length)

theorem Text.inOrder_iff {words : List Text} {text : Text} :
    inOrder words text = true ↔ InOrder words text := by
  induction words generalizing text with
  | nil => simp [inOrder, InOrder]
  | cons word words ih =>
    simp only [inOrder, InOrder, List.any_eq_true, List.mem_tails, Bool.and_eq_true,
      List.isPrefixOf_iff_prefix, ih]
    constructor
    · rintro ⟨rest, ⟨a, rfl⟩, ⟨b, rfl⟩, hb⟩
      exact ⟨a, b, rfl, by simpa using hb⟩
    · rintro ⟨a, b, rfl, hb⟩
      exact ⟨word ++ b, ⟨a, rfl⟩, ⟨b, rfl⟩, by simpa using hb⟩

instance (words : List Text) (text : Text) : Decidable (Text.InOrder words text) :=
  decidable_of_iff _ Text.inOrder_iff

/-- No special character of a line stands on a route that takes text as it is, or behind a constant.
A constant may be written with braces, so it ends a route through a set as well. -/
structure Sheltered (line : Text) : Prop where
  backslash : '\\' ∉ line
  routes : ∀ p ∈ ("\x7b".toList, "Math.".toList) :: routes, ∀ c ∈ "%#&$".toList,
    ¬ Text.InOrder [p.1, [c], p.2] line
  constants : ∀ c ∈ "%#&$".toList, ¬ Text.InOrder ["Math.".toList, [c]] line

instance (line : Text) : Decidable (Sheltered line) :=
  decidable_of_iff ('\\' ∉ line ∧ (∀ p ∈ ("\x7b".toList, "Math.".toList) :: routes,
      ∀ c ∈ "%#&$".toList, ¬ Text.InOrder [p.1, [c], p.2] line) ∧
    ∀ c ∈ "%#&$".toList, ¬ Text.InOrder ["Math.".toList, [c]] line)
  ⟨fun h => ⟨h.1, h.2.1, h.2.2⟩, fun h => ⟨h.backslash, h.routes, h.constants⟩⟩

namespace Symbol

variable {previous : Option Char} {text : Text} {pieces : List (Piece Text)}

/-- Constants are written without special characters. -/
theorem ordinary_constants (h : constantPattern.Reading previous text pieces)
    (htext : text.Ordinary) : Text.Ordinary (pieces.flatMap (Piece.write id)) := by
  have hvalues : ∀ p ∈ constants, Text.Ordinary p.2 := by decide
  have hkeeps : text.Ordinary → Text.Ordinary (pieces.flatMap (Piece.write id)) := by
    refine h.related Text.compositional_ordinary ?_
    intro _ matched value _ hat _
    exact hvalues (matched, value) (recognises_constantPattern.spec hat).1
  exact hkeeps htext

/-- A word that shares no character with the constants' LaTeX was there before them. -/
theorem infix_of_constants (h : constantPattern.Reading previous text pieces) {word : Text}
    (hne : word ≠ []) (hword : ∀ p ∈ constants, ∀ c ∈ word, c ∉ p.2)
    (hin : word <:+: pieces.flatMap (Piece.write id)) : word <:+: text := by
  have hvalues : ∀ p ∈ constants, p.2 ≠ [] := by decide
  induction h with
  | rest _ => rwa [Piece.flatMap_write_chars] at hin
  | @hit _ before matched after value pieces hat _ ih =>
    rw [List.flatMap_append, Piece.flatMap_write_chars, List.flatMap_cons] at hin
    obtain ⟨a, b, hab⟩ := hin
    have hmem := (recognises_constantPattern.spec hat).1
    have hcut : before ++ (value ++ pieces.flatMap (Piece.write id)) = a ++ (word ++ b) := by
      simpa [Piece.write] using hab.symm
    rcases word_cases hcut (hvalues _ hmem) hne (hword _ hmem) with ⟨t, rfl, -⟩ | ⟨t, ht, -⟩
    · exact ⟨a, t ++ (matched ++ after), by simp⟩
    · exact (ih ⟨t, b, by simp [ht]⟩).trans ⟨before ++ matched, [], by simp⟩

/-- Behind a constant of a sheltered line nothing is special. -/
theorem ordinary_behind {before name after : Text}
    (h : Sheltered (before ++ ("Math.".toList ++ name ++ after))) : after.Ordinary := by
  refine fun c hc => Bool.eq_false_iff.mpr fun hspecial => ?_
  obtain ⟨x, y, rfl⟩ := List.append_of_mem hc
  exact h.constants c (mem_of_isSpecial hspecial)
    ⟨before, name ++ (x ++ c :: y), by simp, name ++ x, y, by simp, trivial⟩

/-- A special character in front of a constant stands on no route.  The end of the route stands in
front of the constant, or behind it; a brace may also belong to the constant's LaTeX. -/
theorem not_route_across {a d t e b name after value : Text} {c : Char} {p : Text × Text}
    (h : Sheltered (a ++ (p.1 ++ d) ++ c :: t ++ ("Math.".toList ++ name ++ after)))
    (hp : p ∈ routes) (hc : c ∈ "%#&$".toList)
    (hvalue : ("Math.".toList ++ name, value) ∈ constants)
    (more : constantPattern.Reading previous after pieces)
    (hbehind : t ++ (value ++ pieces.flatMap (Piece.write id)) = e ++ (p.2 ++ b)) : False := by
  have hvalues : ∀ p ∈ constants, p.2 ≠ [] := by decide
  have hcloses : ∀ p ∈ routes, p.1 ≠ "\x7b".toList → p.2 ≠ [] ∧
      ∀ q ∈ constants, ∀ c ∈ p.2, c ∉ q.2 := by decide
  -- The front of the line, with whatever is found of the route behind the character.
  have hfront : ∀ last : Text,
      Text.InOrder [last] (t ++ ("Math.".toList ++ name ++ after)) →
      Text.InOrder [p.1, [c], last]
        (a ++ (p.1 ++ d) ++ c :: t ++ ("Math.".toList ++ name ++ after)) := fun _ hin =>
    ⟨a, d ++ ([c] ++ (t ++ ("Math.".toList ++ name ++ after))), by simp, d,
      t ++ ("Math.".toList ++ name ++ after), rfl, hin⟩
  by_cases hbrace : p.1 = "\x7b".toList
  · have hin := hfront "Math.".toList ⟨t, name ++ after, by simp, trivial⟩
    rw [hbrace] at h hin
    exact h.routes _ List.mem_cons_self c hc hin
  · obtain ⟨hne, hapart⟩ := hcloses p hp hbrace
    refine h.routes p (List.mem_cons_of_mem _ hp) c hc (hfront p.2 ?_)
    rcases word_cases hbehind (hvalues _ hvalue) hne (hapart _ hvalue) with
      ⟨t', rfl, -⟩ | ⟨t', ht', -⟩
    · exact ⟨e, t' ++ ("Math.".toList ++ name ++ after), by simp, trivial⟩
    · obtain ⟨x, y, rfl⟩ := infix_of_constants more hne hapart ⟨t', b, by simp [ht']⟩
      exact ⟨t ++ ("Math.".toList ++ name ++ x), y, by simp, trivial⟩

/-- **Constants leave a sheltered line guarded**: behind the first of them nothing is special. -/
theorem guarded_substituteConstants {line : Text} (h : Sheltered line) :
    Guarded (substituteConstants line) := by
  have hvalues : ∀ p ∈ constants, Text.Ordinary p.2 := by decide
  have hmath : ∀ p ∈ constants, "Math.".toList <+: p.1 := by decide
  have hreading := Pattern.reading_pieces recognises_constantPattern.proper line
  have hreplace : substituteConstants line =
      (constantPattern.pieces line).flatMap (Piece.write id) := rfl
  rw [hreplace]
  generalize constantPattern.pieces line = pieces at hreading
  cases hreading with
  | rest _ =>
    rw [Piece.flatMap_write_chars]
    exact ⟨fun p hp c hc => h.routes p (List.mem_cons_of_mem _ hp) c (mem_of_isSpecial hc),
      fun a x b hab => absurd (hab ▸ by simp) h.backslash⟩
  | @hit _ before matched after value pieces hat more =>
    rw [List.flatMap_append, Piece.flatMap_write_chars, List.flatMap_cons]
    have hmem := (recognises_constantPattern.spec hat).1
    obtain ⟨name, rfl⟩ := hmath _ hmem
    have hout : Text.Ordinary (value ++ pieces.flatMap (Piece.write id)) :=
      Text.ordinary_append.mpr ⟨hvalues _ hmem, ordinary_constants more (ordinary_behind h)⟩
    constructor
    · rintro p hp c hc ⟨a, rest, hrest, d, rest', rfl, e, b, rfl, -⟩
      have hcut : before ++ (value ++ pieces.flatMap (Piece.write id)) =
          (a ++ (p.1 ++ d)) ++ (c :: (e ++ (p.2 ++ b))) := by simpa [Piece.write] using hrest
      -- The special character stands in front of the constant, since nothing behind it is special.
      rcases char_cases hcut with ⟨t, -, ht⟩ | ⟨t, rfl, hbehind⟩
      · exact absurd hc (by simp [hout c (ht ▸ by simp)])
      · exact not_route_across h hp (mem_of_isSpecial hc) hmem more hbehind.symm
    · intro a x b hab hx
      have hslash : '\\' ∉ before := fun hmem => h.backslash (by simp [hmem])
      rcases char_cases hab with ⟨t, -, ht⟩ | ⟨t, rfl, -⟩
      · exact hout.within ⟨t ++ ['\\', x], [], by simpa [Piece.write] using ht.symm⟩
      · simp at hslash

end Symbol

/-! ## LaTeX -/

/-- **Every special character is escaped** in the LaTeX of a line that has none on a route which
takes text as it is, and none in an argument beyond the limit of nesting.  Such a line has LaTeX if
it is written without markers. -/
theorem Expression.compile_escaped (settings : Settings) (line : Text) (h : Sheltered line)
    (hkept : ∀ argument ∈ (run settings line).kept, Text.Ordinary argument) :
    (∀ latex unresolved, compile settings line = .ok (latex, unresolved) → latex.Escaped) ∧
    (¬ "PH".toList <:+: line → line.length ≤ 10 ^ Fault.digitLimit →
      ∃ latex unresolved, compile settings line = .ok (latex, unresolved)) := by
  refine ⟨fun latex unresolved hcompile => ?_, fun hclear hsize =>
    exists_compile settings (Text.clear_iff_not_infix.mpr hclear) hsize⟩
  obtain ⟨r, rfl, hr⟩ := exists_resolved hcompile
  obtain ⟨working, hworking, hsound, hline⟩ := exists_working lawful_escaping settings
    (fun _ => List.forall_mem_nil _) (Symbol.guarded_substituteConstants h)
  rw [run_eq] at hkept
  rw [hworking] at hr
  have hresolved : r.latex.Escaped := Fragments.resolveFrom_keeps (P := Text.Escaped)
    (fun _ => Fragments.escaped_fill (hsound hkept)) (Guarded.escaped_segmentLine hline true) hr
  exact Symbol.escaped_symbolPass hresolved

theorem Expression.compile_escaped_fee :
    (Sheltered "a fee of $5 & sqrt(50%)/n#2 <= \x7bx in Math.reals\x7d".toList ∧
      ∀ argument ∈
        (run {} "a fee of $5 & sqrt(50%)/n#2 <= \x7bx in Math.reals\x7d".toList).kept,
        Text.Ordinary argument) ∧
    ∃ latex unresolved,
      compile {} "a fee of $5 & sqrt(50%)/n#2 <= \x7bx in Math.reals\x7d".toList =
        .ok (latex, unresolved) ∧ latex.Escaped := by
  have hsheltered : Sheltered "a fee of $5 & sqrt(50%)/n#2 <= \x7bx in Math.reals\x7d".toList := by
    decide +kernel
  have hkept : ∀ argument ∈
      (run {} "a fee of $5 & sqrt(50%)/n#2 <= \x7bx in Math.reals\x7d".toList).kept,
      Text.Ordinary argument := by decide +kernel
  obtain ⟨hescaped, hexists⟩ := compile_escaped {} _ hsheltered hkept
  obtain ⟨latex, unresolved, hcompile⟩ := hexists (by decide +kernel) (by decide +kernel)
  exact ⟨⟨hsheltered, hkept⟩, latex, unresolved, hcompile, hescaped latex unresolved hcompile⟩

end MathNotes
