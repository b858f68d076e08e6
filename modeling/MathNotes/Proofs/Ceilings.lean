import MathNotes.Proofs.Extraction
import MathNotes.Proofs.Passing
import MathNotes.Proofs.SymbolPass

/-!
# Limits that are never reached

Every loop of the extraction may run so many rounds, and arguments may nest so many levels deep.
Both limits are out of reach for a text that is shorter than they are: each round, and each level,
uses up one of the delimiters of the text (`Text.load`), and the markers that take the place of
constructs have none, however long they are.

Two computations `Agree` when they do the same.  Every step of the extraction agrees with itself
under any two limits that its text cannot reach (`Step.Indifferent`), so the extraction does
(`Construct.agree_extract`).
-/

namespace MathNotes

open Extract

/-! ## Delimiters -/

/-- Whether a character can start an argument or stand between two of them. -/
def isDelimiter (c : Char) : Bool := "(/<|\x7b^".toList.contains c

namespace Text

/-- How many delimiters a text has. -/
def load (text : Text) : Nat := text.countP isDelimiter

@[simp] theorem load_nil : load [] = 0 := rfl

@[simp] theorem load_append (a b : Text) : load (a ++ b) = a.load + b.load := List.countP_append

theorem load_cons_of_isDelimiter {c : Char} (h : isDelimiter c = true) (text : Text) :
    load (c :: text) = text.load + 1 := List.countP_cons_of_pos h

theorem load_le_cons (c : Char) (text : Text) : text.load ≤ load (c :: text) :=
  (List.sublist_cons_self c text).countP_le

theorem load_le_length (text : Text) : text.load ≤ text.length := List.countP_le_length

theorem load_pos {text : Text} {c : Char} (hc : c ∈ text) (h : isDelimiter c = true) :
    0 < text.load :=
  List.countP_pos_iff.mpr ⟨c, hc, h⟩

theorem load_take_add_drop (text : Text) (n : Nat) :
    load (text.take n) + load (text.drop n) = text.load := by
  rw [← load_append, List.take_append_drop]

theorem load_trimRight_le (text : Text) : load text.trimRight ≤ text.load := by
  obtain ⟨blanks, htext, -⟩ := trimRight_append text
  have h := congrArg load htext
  rw [load_append] at h
  omega

theorem load_trimLeft_le (text : Text) : load text.trimLeft ≤ text.load := by
  obtain ⟨blanks, htext, -⟩ := trimLeft_append text
  have h := congrArg load htext
  rw [load_append] at h
  omega

theorem load_trim_le (text : Text) : load (trim text) ≤ text.load :=
  (load_trimRight_le _).trans (load_trimLeft_le text)

theorem isDelimiter_of_isNameChar {c : Char} (h : isNameChar c = true) : isDelimiter c = false := by
  by_contra hd
  have key : ∀ d ∈ "(/<|\x7b^".toList, isNameChar d = false := by decide
  rw [Bool.not_eq_false, isDelimiter, List.contains_iff_mem] at hd
  rw [key c hd] at h
  cases h

/-- Markers have no delimiters. -/
theorem load_marker (n : Nat) : load (Marker.ofNat n) = 0 :=
  List.countP_eq_zero.mpr fun _ hc => by
    simp [isDelimiter_of_isNameChar (Marker.nameChar_of_mem_ofNat hc)]

theorem compositional_load : Compositional fun a b => b.load ≤ a.load where
  refl _ := Nat.le_refl _
  trans h h' := h'.trans h
  append h h' := by
    rw [load_append, load_append]
    exact Nat.add_le_add h h'

end Text

/-- Set words are replaced by commands, which have no delimiters. -/
theorem Symbol.load_substituteSetWords_le (text : Text) :
    (substituteSetWords text).load ≤ text.load := by
  have hne : ∀ p ∈ setWords, p.1 ≠ [] := by decide
  have hwords : setWordPattern.Recognises _ := Pattern.recognises_wordPattern hne
  have hload : ∀ p ∈ setWords, p.2.load ≤ p.1.load := by decide
  exact Pattern.replace_related Text.compositional_load hwords.proper
    (fun _ _ _ _ hat => hload _ (hwords.spec hat).1) text

/-! ## Computations that agree -/

namespace Extract

variable {α β : Type} {P : α → Prop} {Q : β → Prop}

/-- Two computations do the same, whatever was put aside before: they give a value of which `P`
holds, and they add fragments and keep nothing as it was written. -/
structure Agree (P : α → Prop) (m₁ m₂ : Extract α) : Prop where
  eq : m₁ = m₂
  spec : ∀ state, P (m₁ state).1 ∧
    ∃ added, (m₁ state).2 = ⟨state.fragments ++ added, state.kept⟩

theorem agree_pure {a : α} (h : P a) : Agree P (pure a) (pure a) :=
  ⟨rfl, fun state => ⟨h, [], by rw [List.append_nil]; rfl⟩⟩

theorem Agree.bind {m₁ m₂ : Extract α} {f₁ f₂ : α → Extract β} (h : Agree P m₁ m₂)
    (hf : ∀ a, P a → Agree Q (f₁ a) (f₂ a)) : Agree Q (m₁ >>= f₁) (m₂ >>= f₂) := by
  obtain ⟨rfl, hm⟩ := h
  have hrun : ∀ (f : α → Extract β) state, (m₁ >>= f) state = f (m₁ state).1 (m₁ state).2 :=
    fun _ _ => rfl
  refine ⟨funext fun state => ?_, fun state => ?_⟩
  · rw [hrun, hrun, (hf _ (hm state).1).eq]
  · obtain ⟨hvalue, added, hadded⟩ := hm state
    obtain ⟨hresult, more, hmore⟩ := (hf _ hvalue).spec (m₁ state).2
    rw [hrun]
    refine ⟨hresult, added ++ more, ?_⟩
    rw [hmore, hadded, List.append_assoc]

theorem Agree.mono {P' : α → Prop} {m₁ m₂ : Extract α} (h : Agree P m₁ m₂)
    (hP : ∀ a, P a → P' a) : Agree P' m₁ m₂ :=
  ⟨h.eq, fun state => ⟨hP _ (h.spec state).1, (h.spec state).2⟩⟩

/-- What is put aside leaves a marker, which has no delimiters. -/
theorem agree_store (latex : Text) : Agree (·.load = 0) (store latex) (store latex) :=
  ⟨rfl, fun _ => ⟨Text.load_marker _, [latex], rfl⟩⟩

end Extract

/-- Two treatments do the same with arguments of fewer than `n` delimiters. -/
def Treatment.AgreeBelow (n : Nat) (treat₁ treat₂ : Treatment) : Prop :=
  ∀ (prose : Bool) (argument : Text), argument.load < n →
    Agree (fun _ => True) (treat₁ prose argument) (treat₂ prose argument)

theorem Treatment.AgreeBelow.mono {m n : Nat} {treat₁ treat₂ : Treatment}
    (h : treat₁.AgreeBelow n treat₂) (hmn : m ≤ n) : treat₁.AgreeBelow m treat₂ :=
  fun prose argument hload => h prose argument (hload.trans_le hmn)

/-! ## Loops -/

/-- **A loop of which every round takes a delimiter** does the same under any two limits that are
out of its reach. What is left to look at bounds the rounds, and what there is in total bounds the
result. -/
theorem agree_loop {σ : Type} (loop₁ loop₂ : Nat → σ → Extract Text) (left total : σ → Nat)
    {n : Nat}
    (hround : ∀ s, left s ≤ n →
      (∃ text : Text, text.load ≤ total s ∧
        ∀ rounds, loop₁ rounds s = pure text ∧ loop₂ rounds s = pure text) ∨
      (0 < left s ∧ ∀ rounds₁ rounds₂,
        (∀ s', left s' < left s →
          Agree (·.load ≤ total s') (loop₁ rounds₁ s') (loop₂ rounds₂ s')) →
        Agree (·.load ≤ total s) (loop₁ (rounds₁ + 1) s) (loop₂ (rounds₂ + 1) s)))
    {s : σ} {rounds₁ rounds₂ : Nat} (hn : left s ≤ n) (h₁ : left s ≤ rounds₁)
    (h₂ : left s ≤ rounds₂) : Agree (·.load ≤ total s) (loop₁ rounds₁ s) (loop₂ rounds₂ s) := by
  induction rounds₁ generalizing rounds₂ s with
  | zero =>
    rcases hround s hn with ⟨text, htext, hdone⟩ | ⟨hpos, -⟩
    · rw [(hdone 0).1, (hdone rounds₂).2]
      exact agree_pure htext
    · omega
  | succ rounds₁ ih =>
    rcases hround s hn with ⟨text, htext, hdone⟩ | ⟨hpos, hnext⟩
    · rw [(hdone _).1, (hdone rounds₂).2]
      exact agree_pure htext
    · obtain ⟨rounds₂, rfl⟩ : ∃ rounds, rounds₂ = rounds + 1 := ⟨rounds₂ - 1, by omega⟩
      exact hnext _ _ fun s' hless => ih (by omega) (by omega) (by omega)

/-! ## Calls and replacements -/

namespace Pattern

variable {α : Type} {pattern : Pattern α}

/-- Every hit of the pattern takes at least `k` delimiters. -/
def Takes (pattern : Pattern α) (k : Nat) : Prop :=
  ∀ ⦃previous matched value after⦄, pattern.HitsAt previous matched value after → k ≤ matched.load

/-- A pattern whose hits take a delimiter finds one of them. -/
theorem load_find? (hp : pattern.Proper) (htakes : pattern.Takes 1) {previous : Option Char}
    {text : Text} {cut : Cut α} (h : pattern.find? previous text = some cut) :
    cut.before.load + 1 + cut.after.load ≤ text.load := by
  obtain ⟨htext, hat⟩ := find?_spec hp h
  have hmatched := htakes hat
  have hload := congrArg Text.load htext
  simp only [Text.load_append] at hload
  omega

end Pattern

section Scanning

variable {α : Type} {pattern : Pattern α} {n k : Nat}

theorem Call.agree_putAside {build₁ build₂ : α → Text → Extract (Option Text)}
    (hbuild : ∀ value argument, argument.load < n →
      Agree (fun _ => True) (build₁ value argument) (build₂ value argument))
    {cut : Cut α} (hn : cut.after.load < n) :
    Agree (fun found => ∀ p ∈ found, p.1.load = 0 ∧ p.2.load ≤ cut.after.load)
      (putAside build₁ cut) (putAside build₂ cut) := by
  rw [putAside, putAside]
  split
  · exact agree_pure (by simp)
  · rename_i argument after hsplit
    have hload := congrArg Text.load (Delimiters.round_splitClosing? hsplit)
    have hafter := Text.load_le_cons ')' after
    rw [Text.load_append] at hload
    refine (hbuild cut.value argument (by omega)).bind fun found _ => ?_
    cases found with
    | none => exact agree_pure (by simp)
    | some latex =>
      refine (agree_store latex).bind fun marker hmarker => agree_pure ?_
      simp only [Option.mem_def, Option.some.injEq, forall_eq']
      exact ⟨hmarker, by omega⟩

theorem Call.collect_of_find?_none {build : α → Text → Extract (Option Text)}
    {previous : Option Char} {text : Text} (h : pattern.find? previous text = none)
    (rounds : Nat) : collect pattern build rounds previous text = pure text := by
  cases rounds with
  | zero => rfl
  | succ rounds => rw [collect, h]

/-- **Collecting calls.** Each call that is met takes its opening bracket. -/
theorem Call.agree_collect (hp : pattern.Proper) (htakes : pattern.Takes 1)
    {build₁ build₂ : α → Text → Extract (Option Text)}
    (hbuild : ∀ value argument, argument.load < n →
      Agree (fun _ => True) (build₁ value argument) (build₂ value argument))
    {rounds₁ rounds₂ : Nat} {text : Text} (hn : text.load ≤ n) (h₁ : text.load ≤ rounds₁)
    (h₂ : text.load ≤ rounds₂) (previous : Option Char) :
    Agree (·.load ≤ text.load) (collect pattern build₁ rounds₁ previous text)
      (collect pattern build₂ rounds₂ previous text) := by
  refine agree_loop (fun rounds (s : Option Char × Text) => collect pattern build₁ rounds s.1 s.2)
    (fun rounds s => collect pattern build₂ rounds s.1 s.2) (·.2.load) (·.2.load)
    (s := (previous, text)) ?_ hn h₁ h₂
  rintro ⟨previous, text⟩ hn
  simp only [Prod.forall] at hn ⊢
  cases hfind : pattern.find? previous text with
  | none =>
    exact .inl ⟨text, Nat.le_refl _, fun rounds =>
      ⟨collect_of_find?_none hfind rounds, collect_of_find?_none hfind rounds⟩⟩
  | some cut =>
    obtain ⟨htext, -⟩ := Pattern.find?_spec hp hfind
    have hcut := Pattern.load_find? hp htakes hfind
    have htotal := congrArg Text.load htext
    simp only [Text.load_append] at htotal
    refine .inr ⟨by omega, fun rounds₁ rounds₂ ih => ?_⟩
    rw [collect, collect, hfind]
    refine (agree_putAside hbuild (by omega)).bind fun found hfound => ?_
    cases found with
    | none =>
      refine (ih _ cut.after (by omega)).bind fun rest hrest => agree_pure ?_
      simp only [Text.load_append]
      omega
    | some found =>
      obtain ⟨hmarker, hafter⟩ := hfound found rfl
      refine (ih _ found.2 (by omega)).bind fun rest hrest => agree_pure ?_
      simp only [Text.load_append]
      omega

/-- **Replacing hits.** Nothing is replaced, or each replacement takes the delimiters of a hit. -/
theorem agree_replaceM (hp : pattern.Proper) (htakes : pattern.Takes k)
    {store₁ store₂ : α → Extract Text} {text : Text} (hn : text.load ≤ n)
    (hstore : ∀ ⦃previous matched value after⦄, pattern.HitsAt previous matched value after →
      matched.load ≤ n → Agree (·.load = 0) (store₁ value) (store₂ value)) :
    Agree (fun updated => updated = text ∨ updated.load + k ≤ text.load)
      (pattern.replaceM store₁ text) (pattern.replaceM store₂ text) := by
  have key : ∀ {previous text pieces}, pattern.Reading previous text pieces → text.load ≤ n →
      Agree (fun parts => parts.flatten = text ∨ Text.load parts.flatten + k ≤ text.load)
        (pieces.mapM (replacePiece store₁)) (pieces.mapM (replacePiece store₂)) := by
    intro previous text pieces h
    induction h with
    | @rest previous text _ =>
      intro hn
      rw [← List.append_nil (text.map Piece.char), mapM_chars, mapM_chars]
      exact agree_pure (.inl (by simp [flatten_singletons]))
    | @hit previous before matched after value pieces hat _ ih =>
      intro hn
      simp only [Text.load_append] at hn ⊢
      have htakes := htakes hat
      rw [mapM_chars, mapM_chars, List.mapM_cons, List.mapM_cons]
      refine Agree.bind (P := fun parts => Text.load parts.flatten + k ≤ matched.load + after.load)
        ?_ fun parts hparts => agree_pure (.inr ?_)
      · refine (hstore hat (by omega)).bind fun marker hmarker => ?_
        refine (ih (by omega)).bind fun parts hparts => agree_pure ?_
        rw [List.flatten_cons, Text.load_append]
        rcases hparts with rfl | hparts <;> omega
      · rw [List.flatten_append, flatten_singletons, Text.load_append]
        omega
  rw [replaceM_eq, replaceM_eq]
  exact (key (Pattern.reading_pieces hp text) hn).bind fun parts hparts => agree_pure hparts

end Scanning

/-! ## Steps -/

/-- A step does the same under any two limits that are out of its reach, and under any two
treatments that do the same with the arguments that it can meet. It adds no delimiters. -/
def Step.Indifferent (step : Step) : Prop :=
  ∀ ⦃treat₁ treat₂ : Treatment⦄ ⦃text : Text⦄, treat₁.AgreeBelow text.load treat₂ →
    ∀ ⦃rounds₁ rounds₂ : Nat⦄, text.load ≤ rounds₁ → text.load ≤ rounds₂ →
      Agree (·.load ≤ text.load) (step rounds₁ treat₁ text) (step rounds₂ treat₂ text)

theorem Text.load_mem_join (separator : Text) {part : Text} {parts : List Text} (h : part ∈ parts) :
    part.load ≤ load (join separator parts) := by
  induction parts with
  | nil => cases h
  | cons first parts ih =>
    cases parts with
    | nil =>
      rw [List.mem_singleton.mp h]
      simp [join, List.intercalate]
    | cons second parts =>
      have hjoin : join separator (first :: second :: parts) =
          first ++ (separator ++ join separator (second :: parts)) := by
        simp [join, List.intercalate]
      rw [hjoin, load_append, load_append]
      rcases List.mem_cons.mp h with rfl | h
      · omega
      · have := ih h
        omega

/-- A part between separators has no more delimiters than the whole. -/
theorem Text.load_mem_splitTop {c : Char} {text part : Text} (h : part ∈ splitTop [c] text) :
    part.load ≤ text.load := by
  have hload := load_mem_join [c] h
  rwa [join_splitTop] at hload

namespace Call

theorem takes_head (names : List Text) : (head names).Takes 1 := by
  intro previous matched name after hat
  obtain ⟨⟨blanks, rfl, -⟩, -, -⟩ := (recognises_head names).spec hat
  exact Text.load_pos (by simp) (by decide : isDelimiter '(' = true)

theorem indifferent_step (names : List Text)
    {build : Treatment → Text → Text → Extract (Option Text)}
    (hbuild : ∀ {treat₁ treat₂ : Treatment} {n : Nat}, treat₁.AgreeBelow n treat₂ →
      ∀ name argument, argument.load < n →
        Agree (fun _ => True) (build treat₁ name argument) (build treat₂ name argument)) :
    Step.Indifferent (Call.step names build) := by
  intro treat₁ treat₂ text hagree rounds₁ rounds₂ h₁ h₂
  exact agree_collect (recognises_head names).proper (takes_head names) (hbuild hagree)
    (Nat.le_refl _) h₁ h₂ none

theorem indifferent_factorials : Step.Indifferent Construct.factorials := by
  refine indifferent_step _ fun hagree _ argument hload => ?_
  refine (hagree true argument hload).bind fun inner _ => ?_
  split <;> exact agree_pure trivial

theorem indifferent_rootsAndArrows : Step.Indifferent Construct.rootsAndArrows :=
  indifferent_step _ fun hagree _ argument hload =>
    (hagree true argument hload).bind fun _ _ => agree_pure trivial

theorem indifferent_floorsAndCeilings : Step.Indifferent Construct.floorsAndCeilings :=
  indifferent_step _ fun hagree _ argument hload =>
    (hagree true argument hload).bind fun _ _ => agree_pure trivial

theorem indifferent_functions : Step.Indifferent Construct.functions :=
  indifferent_step _ fun hagree _ argument hload =>
    (hagree true argument hload).bind fun _ _ => agree_pure trivial

theorem indifferent_binomials : Step.Indifferent Construct.binomials := by
  refine indifferent_step _ fun hagree _ argument hload => ?_
  have hparts : ∀ part ∈ Text.splitTop [','] argument, _ := fun part hpart =>
    hagree true part ((Text.load_mem_splitTop hpart).trans_lt hload)
  split
  · rename_i top bottom hsplit
    have htop := hparts top (hsplit ▸ List.mem_cons_self)
    have hbottom := hparts bottom (hsplit ▸ List.mem_cons_of_mem _ List.mem_cons_self)
    split
    · exact agree_pure trivial
    · exact htop.bind fun _ _ => hbottom.bind fun _ _ => agree_pure trivial
  · exact agree_pure trivial

end Call

theorem Bound.takes_head : head.Takes 1 := by
  intro previous matched operator after hat
  obtain ⟨⟨blanks, mark, blanks', -, -, -, hmatched⟩, -, -⟩ := recognises_head.spec hat
  rw [hmatched]
  exact Text.load_pos (by simp) (by decide : isDelimiter '(' = true)

theorem Bound.indifferent_boundedOperators : Step.Indifferent Construct.boundedOperators := by
  intro treat₁ treat₂ text _ rounds₁ rounds₂ h₁ h₂
  exact Call.agree_collect recognises_head.proper takes_head (fun _ _ _ => agree_pure trivial)
    (Nat.le_refl _) h₁ h₂ none

/-! ## Enclosed constructs -/

theorem Vector.takes_pattern : pattern.Takes 1 := by
  intro previous matched components after hat
  rw [recognises_pattern.spec hat]
  exact Text.load_pos List.mem_cons_self (by decide)

theorem agree_mapM {α β : Type} {f₁ f₂ : α → Extract β} {list : List α}
    (h : ∀ a ∈ list, Agree (fun _ => True) (f₁ a) (f₂ a)) :
    Agree (fun _ => True) (list.mapM f₁) (list.mapM f₂) := by
  induction list with
  | nil => exact agree_pure trivial
  | cons a list ih =>
    obtain ⟨ha, hlist⟩ := List.forall_mem_cons.mp h
    rw [List.mapM_cons, List.mapM_cons]
    exact ha.bind fun _ _ => (ih hlist).bind fun _ _ => agree_pure trivial

theorem Vector.agree_latex {treat₁ treat₂ : Treatment} {n : Nat}
    (hagree : treat₁.AgreeBelow n treat₂) {components : Text} (hload : components.load < n) :
    Agree (fun _ => True) (latex treat₁ components) (latex treat₂ components) :=
  (agree_mapM fun part hpart =>
    hagree true part ((Text.load_mem_splitTop hpart).trans_lt hload)).bind fun _ _ =>
      agree_pure trivial

theorem Vector.vectors_of_find?_none {text : Text} (h : pattern.find? none text = none)
    (rounds : Nat) (treat : Treatment) : Construct.vectors rounds treat text = pure text := by
  cases rounds with
  | zero => rfl
  | succ rounds =>
    rw [Construct.vectors, replaceM_of_find?_none h]
    simp

/-- Vectors are looked for again only after one was found, which took its angle bracket. -/
theorem Vector.indifferent_vectors : Step.Indifferent Construct.vectors := by
  intro treat₁ treat₂ text hagree rounds₁ rounds₂ h₁ h₂
  refine agree_loop (fun rounds => Construct.vectors rounds treat₁)
    (fun rounds => Construct.vectors rounds treat₂) Text.load Text.load ?_ (Nat.le_refl _) h₁ h₂
  intro text hn
  cases hfind : pattern.find? none text with
  | none =>
    exact .inl ⟨text, Nat.le_refl _, fun rounds =>
      ⟨vectors_of_find?_none hfind rounds _, vectors_of_find?_none hfind rounds _⟩⟩
  | some cut =>
    have hcut := Pattern.load_find? recognises_pattern.proper takes_pattern hfind
    refine .inr ⟨by omega, fun rounds₁ rounds₂ ih => ?_⟩
    rw [Construct.vectors, Construct.vectors]
    refine Agree.bind (agree_replaceM recognises_pattern.proper takes_pattern hn
      fun previous matched components after hat hmatched => ?_) fun updated hupdated => ?_
    · have hspec := congrArg Text.load (recognises_pattern.spec hat)
      rw [Text.load_cons_of_isDelimiter (by decide), Text.load_append] at hspec
      exact (agree_latex hagree (by omega)).bind fun latex _ => agree_store latex
    · by_cases hsame : updated = text
      · rw [if_pos hsame, if_pos hsame]
        exact agree_pure (Nat.le_refl _)
      · rw [if_neg hsame, if_neg hsame]
        have hless := hupdated.resolve_left hsame
        exact (ih updated (by omega)).mono fun _ h => by omega

/-! ## Sets and absolute values -/

namespace SetBuilder

theorem agree_latex {treat₁ treat₂ : Treatment} {n : Nat} (hagree : treat₁.AgreeBelow n treat₂)
    {content : Text} (hload : content.load < n) :
    Agree (fun _ => True) (latex treat₁ content) (latex treat₂ content) := by
  have hpart : ∀ part : Text, part.load ≤ content.load →
      Agree (fun _ => True) (treat₁ true (Symbol.substituteSetWords part))
        (treat₂ true (Symbol.substituteSetWords part)) := fun part hle =>
    hagree true _ (((Symbol.load_substituteSetWords_le part).trans hle).trans_lt hload)
  rw [latex, latex]
  split
  · exact (hpart content (Nat.le_refl _)).bind fun _ _ => agree_pure trivial
  · rename_i n _
    have hcut := Text.load_take_add_drop content n
    have htail := Text.load_take_add_drop (content.drop n) 1
    rw [List.drop_drop] at htail
    exact (hpart _ (by omega)).bind fun _ _ => (hpart _ (by omega)).bind fun _ _ =>
      agree_pure trivial

theorem collect_of_breakOn?_none {treat : Treatment} {text : Text}
    (h : Text.breakOn? ['{'] text = none) (rounds : Nat) (before : Text) :
    collect treat rounds before text = pure (before ++ text) := by
  cases rounds with
  | zero => rfl
  | succ rounds => rw [collect, h]

/-- Each brace that is met is passed. -/
theorem agree_collect {treat₁ treat₂ : Treatment} {n : Nat} (hagree : treat₁.AgreeBelow n treat₂)
    {rounds₁ rounds₂ : Nat} {text : Text} (hn : text.load ≤ n) (h₁ : text.load ≤ rounds₁)
    (h₂ : text.load ≤ rounds₂) (before : Text) :
    Agree (·.load ≤ before.load + text.load) (collect treat₁ rounds₁ before text)
      (collect treat₂ rounds₂ before text) := by
  refine agree_loop (fun rounds (s : Text × Text) => collect treat₁ rounds s.1 s.2)
    (fun rounds s => collect treat₂ rounds s.1 s.2) (·.2.load) (fun s => s.1.load + s.2.load)
    (s := (before, text)) ?_ hn h₁ h₂
  rintro ⟨before, text⟩ hn
  simp only [Prod.forall] at hn ⊢
  cases hbreak : Text.breakOn? ['{'] text with
  | none =>
    exact .inl ⟨before ++ text, by rw [Text.load_append], fun rounds =>
      ⟨collect_of_breakOn?_none hbreak rounds _, collect_of_breakOn?_none hbreak rounds _⟩⟩
  | some found =>
    obtain ⟨skipped, after⟩ := found
    have htotal := congrArg Text.load (Text.breakOn?_spec hbreak)
    have hbrace : Text.load ['{'] = 1 := rfl
    simp only [Text.load_append, hbrace] at htotal
    refine .inr ⟨by omega, fun rounds₁ rounds₂ ih => ?_⟩
    rw [collect, collect, hbreak]
    simp only
    -- An argument's brace and a loose one are passed over; a set goes with all that it holds.
    by_cases hargument : isGroupArgument (before ++ skipped) = true
    · rw [if_pos hargument, if_pos hargument]
      refine (ih _ after (by omega)).mono fun _ h => ?_
      simp only [Text.load_append, hbrace] at h
      omega
    · rw [if_neg hargument, if_neg hargument]
      cases hsplit : Delimiters.curly.splitClosing? after with
      | none =>
        have hescaped : Text.load ['\\', '{'] = 1 := rfl
        refine (ih _ after (by omega)).mono fun _ h => ?_
        simp only [Text.load_append, hescaped] at h
        omega
      | some parts =>
        obtain ⟨content, rest⟩ := parts
        have hparts := congrArg Text.load (Delimiters.curly_splitClosing? hsplit)
        have hrest := Text.load_le_cons '}' rest
        rw [Text.load_append] at hparts
        refine (agree_latex hagree (by omega)).bind fun latex _ => ?_
        refine (agree_store latex).bind fun marker hmarker => ?_
        refine (ih _ rest (by omega)).mono fun _ h => ?_
        simp only [Text.load_append] at h
        omega

theorem indifferent_setBuilders : Step.Indifferent Construct.setBuilders := by
  intro treat₁ treat₂ text hagree rounds₁ rounds₂ h₁ h₂
  exact (agree_collect hagree (Nat.le_refl _) h₁ h₂ []).mono fun _ h => by simpa using h

end SetBuilder

theorem Pipe.absoluteValues_of_pair?_none {text : Text} (h : pair? text = none) (rounds : Nat)
    (treat : Treatment) : Construct.absoluteValues rounds treat text = pure text := by
  cases rounds with
  | zero => rfl
  | succ rounds => rw [Construct.absoluteValues, h]

/-- Each absolute value takes its two pipes. -/
theorem Pipe.indifferent_absoluteValues : Step.Indifferent Construct.absoluteValues := by
  intro treat₁ treat₂ text hagree rounds₁ rounds₂ h₁ h₂
  refine agree_loop (fun rounds => Construct.absoluteValues rounds treat₁)
    (fun rounds => Construct.absoluteValues rounds treat₂) Text.load Text.load ?_ (Nat.le_refl _)
    h₁ h₂
  intro text hn
  cases hpair : pair? text with
  | none =>
    exact .inl ⟨text, Nat.le_refl _, fun rounds => ⟨absoluteValues_of_pair?_none hpair rounds _,
      absoluteValues_of_pair?_none hpair rounds _⟩⟩
  | some found =>
    obtain ⟨first, last⟩ := found
    have hpipe : isDelimiter '|' = true := by decide
    have htotal := congrArg Text.load (pair?_spec hpair)
    simp only [Text.load_append, Text.load_cons_of_isDelimiter hpipe] at htotal
    refine .inr ⟨by omega, fun rounds₁ rounds₂ ih => ?_⟩
    rw [Construct.absoluteValues, Construct.absoluteValues, hpair]
    refine (hagree true _ (by omega)).bind fun inner _ => ?_
    refine (agree_store _).bind fun marker hmarker => ?_
    have hless : Text.load (text.take first ++ marker ++ text.drop (last + 1)) < text.load := by
      simp only [Text.load_append]
      omega
    exact (ih _ hless).mono fun _ h => h.trans hless.le

/-! ## Fractions -/

theorem Operand.load_ungrouped_le (operand : Text) : (ungrouped operand).load ≤ operand.load := by
  rw [ungrouped]
  split
  · rename_i content hsplit
    obtain ⟨rest, hopen, hclose⟩ := Option.bind_eq_some_iff.mp hsplit
    have hrest := congrArg Text.load (Delimiters.round_splitClosing? hclose)
    have hle := Text.load_le_cons '(' rest
    rw [Text.load_append] at hrest
    rw [Text.after?_eq_some_iff.mp hopen]
    omega
  · exact Nat.le_refl _

namespace Fraction

/-- A fraction that is found takes its slash. -/
theorem load_find? {grouped : Bool} {text : Text} {fraction : Fraction}
    (h : find? grouped text = some fraction) :
    fraction.before.load + fraction.numerator.load + fraction.denominator.load +
      fraction.after.load + 1 ≤ text.load := by
  obtain ⟨before, after, htext, hat⟩ := findFrom?_spec h
  rw [at?] at hat
  split at hat
  · rename_i start width _ _
    simp only [Option.ite_none_right_eq_some, Option.some.injEq] at hat
    obtain ⟨-, rfl⟩ := hat
    have htotal := congrArg Text.load htext
    simp only [List.reverse_nil, List.nil_append, Text.load_append,
      Text.load_cons_of_isDelimiter (by decide : isDelimiter '/' = true)] at htotal
    have hleft := Text.load_take_add_drop before.trimRight start
    have hright := Text.load_take_add_drop after.trimLeft width
    have hnumerator := Operand.load_ungrouped_le (before.trimRight.drop start)
    have hdenominator := Operand.load_ungrouped_le (after.trimLeft.take width)
    have hbefore := Text.load_trimRight_le before
    have hafter := Text.load_trimLeft_le after
    simp only
    omega
  · cases hat

theorem collect_of_find?_none {grouped : Bool} {text : Text} (h : find? grouped text = none)
    (rounds : Nat) (treat : Treatment) : collect grouped treat rounds text = pure text := by
  cases rounds with
  | zero => rfl
  | succ rounds => rw [collect, h]

theorem agree_collect (grouped : Bool) {treat₁ treat₂ : Treatment} {text : Text}
    (hagree : treat₁.AgreeBelow text.load treat₂) {rounds₁ rounds₂ : Nat}
    (h₁ : text.load ≤ rounds₁) (h₂ : text.load ≤ rounds₂) :
    Agree (·.load ≤ text.load) (collect grouped treat₁ rounds₁ text)
      (collect grouped treat₂ rounds₂ text) := by
  refine agree_loop (collect grouped treat₁) (collect grouped treat₂) Text.load Text.load ?_
    (Nat.le_refl _) h₁ h₂
  intro text hn
  cases hfind : find? grouped text with
  | none =>
    exact .inl ⟨text, Nat.le_refl _, fun rounds =>
      ⟨collect_of_find?_none hfind rounds _, collect_of_find?_none hfind rounds _⟩⟩
  | some fraction =>
    have hfraction := load_find? hfind
    refine .inr ⟨by omega, fun rounds₁ rounds₂ ih => ?_⟩
    rw [collect, collect, hfind]
    refine (hagree true _ (by omega)).bind fun numerator _ => ?_
    refine (hagree true _ (by omega)).bind fun denominator _ => ?_
    refine (agree_store _).bind fun marker hmarker => ?_
    have hless : Text.load (fraction.before ++ marker ++ fraction.after) < text.load := by
      simp only [Text.load_append]
      omega
    exact (ih _ hless).mono fun _ h => h.trans hless.le

theorem indifferent_fractions : Step.Indifferent Construct.fractions := by
  intro treat₁ treat₂ text hagree rounds₁ rounds₂ h₁ h₂
  refine (agree_collect true hagree h₁ h₂).bind fun rest hrest => ?_
  exact (agree_collect false (hagree.mono hrest) (hrest.trans h₁) (hrest.trans h₂)).mono
    fun _ h => h.trans hrest

end Fraction

/-! ## Scripts -/

namespace Script

/-- Putting bare scripts aside adds no delimiters. -/
theorem agree_bare {pattern : Pattern (Char × Text)} (hp : pattern.Proper) (mark : Char)
    (text : Text) :
    Agree (·.load ≤ text.load)
      (pattern.replaceM (fun script => Extract.store (inBraces mark script)) text)
      (pattern.replaceM (fun script => Extract.store (inBraces mark script)) text) := by
  have htakes : pattern.Takes 0 := fun _ _ _ _ _ => Nat.zero_le _
  refine (agree_replaceM hp htakes (Nat.le_refl _) fun _ _ _ _ _ _ => agree_store _).mono ?_
  rintro updated (rfl | h)
  · exact Nat.le_refl _
  · exact h

theorem takes_subscriptHead : subscriptHead.Takes 1 := by
  intro previous matched letter after hat
  rw [(recognises_subscriptHead.spec hat).1]
  exact Text.load_pos (c := '(') (by simp) (by decide)

theorem indifferent_subscripts : Step.Indifferent Construct.subscripts := by
  intro treat₁ treat₂ text hagree rounds₁ rounds₂ h₁ h₂
  refine Agree.bind (Call.agree_collect recognises_subscriptHead.proper takes_subscriptHead
    (fun _ argument hload => (hagree false argument hload).bind fun _ _ => agree_pure trivial)
    (Nat.le_refl _) h₁ h₂ none) fun rest hrest => ?_
  exact (agree_bare (recognises_bare _ _).proper '_' rest).mono fun _ h => h.trans hrest

theorem collectExponents_of_breakOn?_none {treat : Treatment} {text : Text}
    (h : Text.breakOn? "^(" text = none) (rounds : Nat) (before : Text) :
    collectExponents treat rounds before text = pure (before ++ text) := by
  cases rounds with
  | zero => rfl
  | succ rounds => rw [collectExponents, h]

/-- An exponent that is found takes its mark, although the search goes back to where its base
starts: what stands there now is a marker. -/
theorem agree_collectExponents {treat₁ treat₂ : Treatment} {n : Nat}
    (hagree : treat₁.AgreeBelow n treat₂) {rounds₁ rounds₂ : Nat} {text : Text}
    (hn : text.load ≤ n) (h₁ : text.load ≤ rounds₁) (h₂ : text.load ≤ rounds₂) (before : Text) :
    Agree (·.load ≤ before.load + text.load) (collectExponents treat₁ rounds₁ before text)
      (collectExponents treat₂ rounds₂ before text) := by
  refine agree_loop (fun rounds (s : Text × Text) => collectExponents treat₁ rounds s.1 s.2)
    (fun rounds s => collectExponents treat₂ rounds s.1 s.2) (·.2.load)
    (fun s => s.1.load + s.2.load) (s := (before, text)) ?_ hn h₁ h₂
  rintro ⟨before, text⟩ hn
  simp only [Prod.forall] at hn ⊢
  cases hbreak : Text.breakOn? "^(" text with
  | none =>
    exact .inl ⟨before ++ text, by rw [Text.load_append], fun rounds =>
      ⟨collectExponents_of_breakOn?_none hbreak rounds _,
        collectExponents_of_breakOn?_none hbreak rounds _⟩⟩
  | some found =>
    obtain ⟨skipped, after⟩ := found
    have htotal := congrArg Text.load (Text.breakOn?_spec hbreak)
    have hmark : Text.load "^(".toList = 2 := rfl
    simp only [Text.load_append, hmark] at htotal
    refine .inr ⟨by omega, fun rounds₁ rounds₂ ih => ?_⟩
    rw [collectExponents, collectExponents, hbreak]
    simp only
    split
    · rename_i argument rest start base hsplit _
      have hparts := congrArg Text.load (Delimiters.round_splitClosing? hsplit)
      have hrest := Text.load_le_cons ')' rest
      rw [Text.load_append] at hparts
      have hstart := Text.load_take_add_drop (before ++ skipped) start
      rw [Text.load_append] at hstart
      refine (hagree false _ (by omega)).bind fun exponent _ => ?_
      refine (agree_store _).bind fun marker hmarker => ?_
      -- The search goes on at the marker, which adds nothing to the load.
      have hnext : Text.load (marker ++ rest) = rest.load := by
        rw [Text.load_append, hmarker, Nat.zero_add]
      exact (ih _ (marker ++ rest) (by omega)).mono fun _ h => by omega
    · refine (ih _ after (by omega)).mono fun _ h => ?_
      simp only [Text.load_append, hmark] at h
      omega

theorem takes_markerExponent : markerExponent.Takes 1 := by
  intro previous matched value after hat
  obtain ⟨digits, -, -, hmatched | ⟨hmatched, -⟩⟩ := recognises_markerExponent.spec hat
  · rw [hmatched]
    exact Text.load_pos (c := '^') (by simp) (by decide)
  · rw [hmatched]
    exact Text.load_pos (c := '^') (by simp) (by decide)

theorem collectMarkerExponents_of_find?_none {text : Text}
    (h : markerExponent.find? none text = none) (rounds : Nat) :
    collectMarkerExponents rounds text = pure text := by
  cases rounds with
  | zero => rfl
  | succ rounds => rw [collectMarkerExponents, h]

theorem agree_collectMarkerExponents {rounds₁ rounds₂ : Nat} {text : Text}
    (h₁ : text.load ≤ rounds₁) (h₂ : text.load ≤ rounds₂) :
    Agree (·.load ≤ text.load) (collectMarkerExponents rounds₁ text)
      (collectMarkerExponents rounds₂ text) := by
  refine agree_loop collectMarkerExponents collectMarkerExponents Text.load Text.load ?_
    (Nat.le_refl _) h₁ h₂
  intro text _
  cases hfind : markerExponent.find? none text with
  | none =>
    exact .inl ⟨text, Nat.le_refl _, fun rounds =>
      ⟨collectMarkerExponents_of_find?_none hfind rounds,
        collectMarkerExponents_of_find?_none hfind rounds⟩⟩
  | some cut =>
    have hcut := Pattern.load_find? recognises_markerExponent.proper takes_markerExponent hfind
    refine .inr ⟨by omega, fun rounds₁ rounds₂ ih => ?_⟩
    rw [collectMarkerExponents, collectMarkerExponents, hfind]
    refine (agree_store _).bind fun marker hmarker => ?_
    have hless : Text.load (cut.before ++ marker ++ cut.after) < text.load := by
      simp only [Text.load_append]
      omega
    exact (ih _ hless).mono fun _ h => h.trans hless.le

theorem indifferent_exponents : Step.Indifferent Construct.exponents := by
  intro treat₁ treat₂ text hagree rounds₁ rounds₂ h₁ h₂
  refine (agree_collectExponents hagree (Nat.le_refl _) h₁ h₂ []).bind fun grouped hgrouped => ?_
  rw [Text.load_nil, Nat.zero_add] at hgrouped
  refine (agree_bare recognises_bareExponent.proper '^' grouped).bind fun bare hbare => ?_
  have hload := hbare.trans hgrouped
  exact (agree_collectMarkerExponents (hload.trans h₁) (hload.trans h₂)).mono
    fun _ h => h.trans hload

end Script

/-! ## Extraction -/

namespace Construct

theorem indifferent_of_mem_steps : ∀ step ∈ steps, Step.Indifferent step := by
  simp only [steps, List.forall_mem_cons]
  exact ⟨Call.indifferent_factorials, Bound.indifferent_boundedOperators,
    Call.indifferent_rootsAndArrows, Call.indifferent_floorsAndCeilings,
    Call.indifferent_functions, Vector.indifferent_vectors, Call.indifferent_binomials,
    SetBuilder.indifferent_setBuilders, Pipe.indifferent_absoluteValues,
    Fraction.indifferent_fractions, Script.indifferent_subscripts, Script.indifferent_exponents,
    List.forall_mem_nil _⟩

/-- Indifferent steps, one after the other. -/
theorem agree_foldlM {list : List Step} (hlist : ∀ step ∈ list, step.Indifferent)
    {treat₁ treat₂ : Treatment} {text : Text} (hagree : treat₁.AgreeBelow text.load treat₂)
    {rounds₁ rounds₂ : Nat} (h₁ : text.load ≤ rounds₁) (h₂ : text.load ≤ rounds₂) :
    Agree (·.load ≤ text.load)
      (list.foldlM (fun text (step : Step) => step rounds₁ treat₁ text) text)
      (list.foldlM (fun text (step : Step) => step rounds₂ treat₂ text) text) := by
  induction list generalizing text with
  | nil => exact agree_pure (Nat.le_refl _)
  | cons step list ih =>
    obtain ⟨hstep, hlist⟩ := List.forall_mem_cons.mp hlist
    rw [List.foldlM_cons, List.foldlM_cons]
    refine (hstep hagree h₁ h₂).bind fun rest hrest => ?_
    exact (ih hlist (hagree.mono hrest) (hrest.trans h₁) (hrest.trans h₂)).mono
      fun _ h => h.trans hrest

/-- **Limits that a text has too few delimiters to reach make no difference.** -/
theorem agree_extract {rounds₁ rounds₂ depth₁ depth₂ : Nat} {text : Text}
    (h₁ : text.load ≤ rounds₁) (h₂ : text.load ≤ rounds₂) (hd₁ : text.load < depth₁)
    (hd₂ : text.load < depth₂) :
    Agree (·.load ≤ text.load) (extract rounds₁ depth₁ text) (extract rounds₂ depth₂ text) := by
  induction hload : text.load using Nat.strongRecOn generalizing depth₁ depth₂ text with
  | ind load ih =>
    subst hload
    obtain ⟨depth₁, rfl⟩ : ∃ depth, depth₁ = depth + 1 := ⟨depth₁ - 1, by omega⟩
    obtain ⟨depth₂, rfl⟩ : ∃ depth, depth₂ = depth + 1 := ⟨depth₂ - 1, by omega⟩
    rw [extract_succ, extract_succ]
    -- An argument has fewer delimiters than the text, and so there is a level left for it.
    have hagree : (treatment rounds₁ depth₁).AgreeBelow text.load (treatment rounds₂ depth₂) := by
      intro prose argument hless
      have htrim := Text.load_trim_le argument
      rw [treatment, treatment, if_neg (by omega), if_neg (by omega)]
      exact (ih _ (by omega) (by omega) (by omega) (by omega) (by omega) rfl).bind
        fun _ _ => agree_pure trivial
    exact agree_foldlM indifferent_of_mem_steps hagree h₁ h₂

/-- **Limits above the length of a text are never reached.** Whatever they are and whatever was put
aside before, the text is rewritten in the same way, the same fragments are added, and no argument
is kept as it was written. -/
theorem extract_unlimited (text : Text) (fragments : Fragments) (kept : List Text)
    (rounds₁ rounds₂ depth₁ depth₂ : Int) (h₁ : text.length < rounds₁) (h₂ : text.length < rounds₂)
    (hd₁ : text.length < depth₁) (hd₂ : text.length < depth₂) :
    ∃ (working : Text) (added : Fragments),
      (Checked.extract rounds₁.toNat depth₁.toNat text).run ⟨fragments, kept⟩ =
        (.ok working, ⟨fragments ++ added, kept⟩) ∧
      (Checked.extract rounds₂.toNat depth₂.toNat text).run ⟨fragments, kept⟩ =
        (.ok working, ⟨fragments ++ added, kept⟩) := by
  have hload := text.load_le_length
  have hagree : Agree (·.load ≤ text.load) (extract rounds₁.toNat depth₁.toNat text)
      (extract rounds₂.toNat depth₂.toNat text) :=
    agree_extract (by omega) (by omega) (by omega) (by omega)
  obtain ⟨-, added, hadded⟩ := hagree.spec ⟨fragments, kept⟩
  refine ⟨(extract rounds₁.toNat depth₁.toNat text ⟨fragments, kept⟩).1, added, ?_, ?_⟩
  · rw [Checked.run_extract, hadded]
  · rw [Checked.run_extract, ← hagree.eq, hadded]

theorem extract_unlimited_nested :
    (("sqrt(|x|/2)^(n)".toList.length : Int) < 16 ∧ ("sqrt(|x|/2)^(n)".toList.length : Int) < 900) ∧
    ∃ (working : Text) (added : Fragments),
      (Checked.extract (16 : Int).toNat (900 : Int).toNat "sqrt(|x|/2)^(n)".toList).run
        ⟨["a".toList], []⟩ = (.ok working, ⟨["a".toList] ++ added, []⟩) ∧
      (Checked.extract (900 : Int).toNat (16 : Int).toNat "sqrt(|x|/2)^(n)".toList).run
        ⟨["a".toList], []⟩ = (.ok working, ⟨["a".toList] ++ added, []⟩) :=
  ⟨by decide, extract_unlimited "sqrt(|x|/2)^(n)".toList ["a".toList] [] 16 900 900 16 (by decide)
    (by decide) (by decide) (by decide)⟩

end Construct

end MathNotes
