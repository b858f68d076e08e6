import MathNotes.Proofs.LevelLines
import MathNotes.Proofs.RewriteSteps

/-!
# Lines that show something

A line that is not blank has LaTeX that is not blank (`Expression.shows_compile`): every construct
is written with signs or a command, whatever its arguments are (`Written.shows`), and a token that
is no white space becomes a formula or prose.
-/

namespace MathNotes

/-! ## Texts -/

namespace Text

/-- Something other than white space stands in the text. -/
def Shows (text : Text) : Prop := ∃ c ∈ text, isBlank c = false

variable {a b : Text}

theorem shows_cons {c : Char} (h : isBlank c = false) (text : Text) : Shows (c :: text) :=
  ⟨c, List.mem_cons_self, h⟩

theorem shows_append : Shows (a ++ b) ↔ a.Shows ∨ b.Shows := by
  simp only [Shows, List.mem_append, or_and_right, exists_or]

theorem Shows.append_right (h : a.Shows) (b : Text) : Shows (a ++ b) := shows_append.mpr (.inl h)

theorem Shows.append_left (h : b.Shows) (a : Text) : Shows (a ++ b) := shows_append.mpr (.inr h)

theorem compositional_shows : Compositional fun a b => a.Shows → b.Shows where
  refl _ := id
  trans h h' := h' ∘ h
  append h h' := by
    rw [shows_append, shows_append]
    exact Or.imp h h'

/-- Something is left when white space is taken off the ends. -/
theorem Shows.trim_ne_nil (h : a.Shows) : trim a ≠ [] := by
  obtain ⟨c, hc, hshows⟩ := h
  obtain ⟨x, hx, hblank⟩ := trimLeft_append a
  obtain ⟨y, hy, hblank'⟩ := trimRight_append a.trimLeft
  intro hnil
  rw [← trim, hnil, List.nil_append] at hy
  rw [hx, hy] at hc
  rcases List.mem_append.mp hc with hc | hc
  · rw [hblank c hc] at hshows
    cases hshows
  · rw [hblank' c hc] at hshows
    cases hshows

theorem shows_of_trimmed (h : a ≠ []) (hhead : ∀ c ∈ a.head?, isBlank c = false) : a.Shows := by
  obtain ⟨c, rest, rfl⟩ := List.exists_cons_of_ne_nil h
  exact shows_cons (hhead c rfl) rest

end Text

/-- The commands of the tables show something. -/
theorem Symbol.shows_commands : ∀ p ∈ names ++ operators ++ constants ++ tokens,
    ∃ c ∈ p.2, isBlank c = false := by decide +kernel

theorem Symbol.shows_symbolPass {latex : Text} (h : latex.Shows) : (symbolPass latex).Shows := by
  have hvalue : ∀ p ∈ names ++ operators, p.2.Shows := fun p hp =>
    shows_commands p (List.mem_append_left _ (List.mem_append_left _ hp))
  refine symbolPass_related Text.compositional_shows (fun p hp _ => ?_) (fun p hp => ?_) latex h
  · exact hvalue p (List.mem_append_left _ hp)
  · have hshows := hvalue p (List.mem_append_right _ hp)
    exact ⟨fun _ => hshows, fun _ => hshows.append_right _⟩

theorem Marker.shows_ofDigits (digits : Text) : (Marker.ofDigits digits).Shows :=
  Text.shows_cons (c := '_') (by decide) _

/-- Putting back fragments that show something. -/
theorem Fragments.shows_fill {fragments : Fragments} (h : ∀ latex ∈ fragments, latex.Shows)
    {line : Text} (hline : line.Shows) : (Marker.pattern.replace fragments.fill line).Shows := by
  refine Pattern.replace_related Text.compositional_shows Marker.recognises_pattern.proper
    (fun _ _ digits _ _ _ => ?_) line hline
  rw [fill]
  cases hget : fragments[decimalNumber digits]? with
  | none => exact Marker.shows_ofDigits digits
  | some latex => exact h latex (List.mem_of_getElem? hget)

/-! ## Segments -/

namespace Segment

/-- A segment of which something is written. -/
def Visible : Segment → Prop
  | math content => content.Shows
  | text _ => True
  | space _ => False

theorem shows_escapeMath {content : Text} (h : content.Shows) : (escapeMath content).Shows := by
  obtain ⟨c, hc, hshows⟩ := h
  refine ⟨c, List.mem_flatMap.mpr ⟨c, hc, ?_⟩, hshows⟩
  unfold escapeMathChar
  split
  · exact List.mem_cons_of_mem _ List.mem_cons_self
  · exact List.mem_singleton_self c

theorem shows_symbolFor {token : Text} (h : token.Shows) : (symbolFor token).Shows := by
  unfold symbolFor
  cases hlookup : Symbol.tokens.lookup token with
  | none => exact h
  | some value =>
    obtain ⟨l₁, l₂, hsplit, -⟩ := List.lookup_eq_some_iff.mp hlookup
    exact Symbol.shows_commands (token, value) (List.mem_append_right _ (by simp [hsplit]))

/-- A token that is no white space, with and without prose. -/
theorem visible_ofToken {token : Text} (h : token.Shows) (next : Option Text) :
    (ofToken token next).Visible ∧ (ofToken token next).asMath.Visible := by
  rcases ofToken_cases token next with ⟨-, hblank⟩ | ⟨heq, -⟩ | heq | heq | ⟨heq, -⟩
  · obtain ⟨c, hc, hshows⟩ := h
    rw [hblank c hc] at hshows
    cases hshows
  · rw [heq]
    exact ⟨h, h⟩
  · rw [heq]
    have hshows := shows_escapeMath (shows_symbolFor h)
    exact ⟨hshows, hshows⟩
  · rw [heq]
    exact ⟨shows_escapeMath h, shows_escapeMath h⟩
  · rw [heq]
    exact ⟨trivial, shows_escapeMath h⟩

theorem visible_ofTokens {line : Text} {tokens : List Text} (h : Tokenized line tokens)
    (hline : line.Shows) :
    ∃ segment ∈ ofTokens tokens, segment.Visible ∧ segment.asMath.Visible := by
  induction h with
  | nil =>
    obtain ⟨c, hc, -⟩ := hline
    cases hc
  | @cons run rest tokens _ _ _ _ ih =>
    rcases Text.shows_append.mp hline with hrun | hrest
    · exact ⟨_, List.mem_cons_self, visible_ofToken hrun _⟩
    · obtain ⟨segment, hmem, hvisible⟩ := ih hrest
      exact ⟨segment, List.mem_cons_of_mem _ hmem, hvisible⟩

theorem visible_mergeText {segments : List Segment} (h : ∃ segment ∈ segments, segment.Visible) :
    ∃ segment ∈ mergeText segments, segment.Visible := by
  induction segments with
  | nil => exact h
  | cons first segments ih =>
    cases first with
    | text word =>
      -- Prose that is merged is still prose.
      rw [mergeText, consText]
      split
      · exact ⟨_, List.mem_cons_self, trivial⟩
      · exact ⟨_, List.mem_cons_self, trivial⟩
    | math content =>
      obtain ⟨segment, hmem, hvisible⟩ := h
      rcases List.mem_cons.mp hmem with rfl | hmem
      · exact ⟨_, List.mem_cons_self, hvisible⟩
      · obtain ⟨found, hfound, hshown⟩ := ih ⟨segment, hmem, hvisible⟩
        exact ⟨found, List.mem_cons_of_mem _ hfound, hshown⟩
    | space blanks =>
      obtain ⟨segment, hmem, hvisible⟩ := h
      rcases List.mem_cons.mp hmem with rfl | hmem
      · exact hvisible.elim
      · obtain ⟨found, hfound, hshown⟩ := ih ⟨segment, hmem, hvisible⟩
        exact ⟨found, List.mem_cons_of_mem _ hfound, hshown⟩

theorem shows_prose (content : Text) : (Latex.prose content).Shows :=
  Text.shows_cons (c := '\\') (by decide) _

theorem Visible.shows {segment : Segment} (h : segment.Visible) (before after : List Segment) :
    (renderOne before segment after).Shows := by
  cases segment with
  | math content =>
    rw [renderOne]
    split
    · exact (Text.Shows.append_left h _).append_right _
    · exact h
  | space blanks => exact h.elim
  | text content => exact ((shows_prose content).append_left _).append_right _

theorem shows_renderBehind (before : List Segment) {segments : List Segment}
    (h : ∃ segment ∈ segments, segment.Visible) : (renderBehind before segments).Shows := by
  induction segments generalizing before with
  | nil =>
    obtain ⟨segment, hmem, -⟩ := h
    cases hmem
  | cons first segments ih =>
    obtain ⟨segment, hmem, hvisible⟩ := h
    rw [renderBehind]
    rcases List.mem_cons.mp hmem with rfl | hmem
    · exact (hvisible.shows before segments).append_right _
    · exact (ih (first :: before) ⟨segment, hmem, hvisible⟩).append_left _

end Segment

/-- **A line that is not blank is segmented into LaTeX that is not blank.** -/
theorem shows_segmentLine (prose : Bool) {line : Text} (h : line.Shows) :
    (segmentLine prose line).Shows := by
  obtain ⟨segment, hmem, hprose, hmath⟩ :=
    Segment.visible_ofTokens (tokenized_tokenize line) h
  refine Segment.shows_renderBehind [] (Segment.visible_mergeText ?_)
  cases prose with
  | true => exact ⟨segment, hmem, hprose⟩
  | false => exact ⟨_, List.mem_map_of_mem hmem, hmath⟩

/-! ## Fragments -/

/-- A listed construct is written with something that shows. -/
theorem Listed.shows {previous : Option Char} {shape : Shape} (h : Listed previous shape)
    (hne : shape.lead.1 ≠ []) : shape.lead.2.Shows ∨ ∃ p ∈ shape.slots, p.2.2.Shows := by
  have hoperators : ∀ operator ∈ Bound.operators, ∃ c ∈ operator.2, isBlank c = false := by decide
  have hslash : ∀ text, Text.Shows ('\\' :: text) := Text.shows_cons (by decide)
  cases h with
  | compoundFactorial => exact .inl (Text.shows_cons (by decide) _)
  | factorial => exact .inr ⟨_, List.mem_singleton_self _, Text.shows_cons (by decide) _⟩
  | unbounded hop =>
    have hcommand := hoperators _ hop
    exact .inl hcommand
  | lowerBound hop => exact .inl (Text.Shows.append_right (hoperators _ hop) _)
  | bothBounds hop => exact .inl (Text.Shows.append_right (hoperators _ hop) _)
  | script => exact absurd rfl hne
  | bareScript => exact absurd rfl hne
  | power => exact absurd rfl hne
  | barePower => exact absurd rfl hne
  | _ => exact .inl (hslash _)

section Constructs

variable {treat : Treatment} {before after written latex : Text} {s s' : Extraction}

theorem WritesSlots.shows {slots : List (Slot × Text × Text)}
    (h : WritesSlots treat slots written s latex s') (hslots : ∃ p ∈ slots, p.2.2.Shows) :
    latex.Shows := by
  induction h with
  | nil =>
    obtain ⟨p, hp, -⟩ := hslots
    cases hp
  | cons _ _ ih =>
    obtain ⟨p, hp, hshows⟩ := hslots
    rcases List.mem_cons.mp hp with rfl | hp
    · exact (hshows.append_right _).append_left _
    · exact ((ih ⟨p, hp, hshows⟩).append_left _).append_left _

theorem IsBase.shows {mark base : Char} (h : IsBase mark base) (text : Text) :
    Text.Shows (base :: mark :: text) := by
  refine Text.Shows.append_left (Text.shows_cons ?_ text) [base]
  rcases h with ⟨rfl, -⟩ | ⟨rfl, -⟩
  · decide
  · decide

/-- **What is put aside is not blank**, whatever the arguments are. -/
theorem Written.shows (h : Written treat before after written s latex s') : latex.Shows := by
  have hbrace : ∀ text, Text.Shows ('{' :: text) := Text.shows_cons (by decide)
  cases h with
  | listed _ hne listed _ slots =>
    rcases listed.shows hne with hlead | hslots
    · exact hlead.append_right _
    · exact (slots.shows hslots).append_left _
  | fraction => exact Text.shows_cons (c := '\\') (by decide) _
  | script hbase => exact hbase.shows _
  | bareScript hbase => exact hbase.shows _
  | group => exact Text.shows_cons (c := '(') (by decide) _
  | power => exact hbrace _
  | barePower => exact hbrace _
  | bracedPower => exact hbrace _

/-- Every fragment shows something. -/
def showing : Invariant where
  Line _ _ := True
  Latex _ _ := True
  Sound s := ∀ latex ∈ s.fragments, latex.Shows

theorem WritesSlots.showing (htreat : treat.Keeps showing) {slots : List (Slot × Text × Text)}
    (h : WritesSlots treat slots written s latex s') (hsound : MathNotes.showing.Sound s) :
    s.Grows s' ∧ MathNotes.showing.Sound s' := by
  induction h with
  | nil => exact ⟨.refl _, hsound⟩
  | @cons slot _ _ _ a t _ _ s s₁ _ hwrites _ ih =>
    have hfirst : s.Grows s₁ ∧ MathNotes.showing.Sound s₁ := by
      cases slot with
      | argument prose =>
        have hkeeps := @htreat prose a s hsound trivial
        rw [hwrites] at hkeeps
        exact ⟨hkeeps.1, hkeeps.2.1⟩
      | member =>
        have hkeeps := @htreat true (Symbol.substituteSetWords a) s hsound trivial
        rw [hwrites] at hkeeps
        exact ⟨hkeeps.1, hkeeps.2.1⟩
      | bound =>
        rw [hwrites.2]
        exact ⟨.refl _, hsound⟩
      | verbatim =>
        rw [hwrites.2]
        exact ⟨.refl _, hsound⟩
    obtain ⟨hgrows, hsound'⟩ := ih hfirst.2
    exact ⟨hfirst.1.trans hgrows, hsound'⟩

theorem Written.showing (htreat : treat.Keeps showing)
    (h : Written treat before after written s latex s') (hsound : MathNotes.showing.Sound s) :
    s.Grows s' ∧ MathNotes.showing.Sound s' := by
  have hkeeps : ∀ {prose : Bool} {argument t : Text} {s s' : Extraction},
      treat prose argument s = (t, s') → MathNotes.showing.Sound s →
        s.Grows s' ∧ MathNotes.showing.Sound s' := by
    intro prose argument t s s' harg hsound
    have hkept := @htreat prose argument s hsound trivial
    rw [harg] at hkept
    exact ⟨hkept.1, hkept.2.1⟩
  cases h with
  | listed _ _ _ _ slots => exact slots.showing htreat hsound
  | fraction _ _ _ _ _ _ hleft hright =>
    obtain ⟨hgrows, hsound₁⟩ := hkeeps hleft hsound
    obtain ⟨hgrows', hsound₂⟩ := hkeeps hright hsound₁
    exact ⟨hgrows.trans hgrows', hsound₂⟩
  | script _ harg => exact hkeeps harg hsound
  | group harg => exact hkeeps harg hsound
  | power _ _ harg => exact hkeeps harg hsound
  | _ => exact ⟨.refl _, hsound⟩

end Constructs

theorem lawful_showing : showing.Lawful where
  rewrites htreat hstep hsound _ := by
    cases hstep with
    | store written =>
      obtain ⟨hgrows, hsound'⟩ := written.showing htreat hsound
      exact ⟨hgrows.put _, List.forall_mem_append.mpr
        ⟨hsound', List.forall_mem_singleton.mpr written.shows⟩, trivial⟩
    | escape => exact ⟨.refl _, hsound, trivial⟩
  trim _ := trivial
  segment _ _ := trivial
  hold hsound _ := ⟨hsound, trivial, trivial⟩

/-! ## Lines -/

/-- A step leaves a marker or a brace in the line. -/
theorem Rewrites.shows {treat : Treatment} {x y : Text × Extraction} (h : Rewrites treat x y) :
    y.1.Shows := by
  cases h with
  | store => exact ((Marker.shows_ofDigits _).append_right _).append_left _
  | escape => exact Text.Shows.append_left (Text.shows_cons (by decide) _) _

theorem Construct.shows_extract (rounds depth : Nat) {text : Text} (h : text.Shows)
    (s : Extraction) : (extract rounds depth text s).1.Shows := by
  cases depth with
  | zero => exact h
  | succ depth =>
    rw [extract_succ]
    rcases Relation.ReflTransGen.cases_tail (reaches_runSteps _ rounds text s) with
      heq | ⟨_, -, hlast⟩
    · have heq := congrArg Prod.fst heq
      simp only [List.nil_append] at heq
      rwa [heq]
    · simpa using hlast.shows

/-- **A line that is not blank has LaTeX that is not blank.** -/
theorem Expression.shows_compile {settings : Settings} {line latex : Text} {unresolved : Bool}
    (h : line.Shows) (hcompile : compile settings line = .ok (latex, unresolved)) :
    latex.Shows := by
  have hconstants : (Symbol.substituteConstants line).Shows := by
    refine Pattern.replace_related Text.compositional_shows
      Symbol.recognises_constantPattern.proper (fun _ _ _ _ hat _ => ?_) line h
    have hmem := (Symbol.recognises_constantPattern.spec hat).1
    exact Symbol.shows_commands _ (List.mem_append_left _ (List.mem_append_right _ hmem))
  obtain ⟨r, rfl, hr⟩ := exists_resolved hcompile
  obtain ⟨-, -, hsound, -⟩ := @exists_working _ lawful_showing settings line
    (List.forall_mem_nil _) trivial
  have hsegmented : (segmented settings line).1.Shows :=
    shows_segmentLine true (Construct.shows_extract _ _ hconstants _)
  exact Symbol.shows_symbolPass (Fragments.resolveFrom_keeps (P := Text.Shows)
    (fun _ => Fragments.shows_fill hsound) hsegmented hr)

end MathNotes
