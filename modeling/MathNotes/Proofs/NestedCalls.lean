import MathNotes.Proofs.Becoming
import MathNotes.Proofs.Calls

/-!
# Calls in formulas

The steps that collect calls find exactly the calls of a formula.  A name is a whole run of name
characters, so in the text of a formula it is found where a construct starts with it, and nowhere
else; its brackets match, so its argument is the text of its part.
-/

namespace MathNotes

open Extract Formula

/-- Collecting at a hit, when the argument is the text of a group. -/
theorem Call.gives_collect_hit {α : Type} {head : Pattern α}
    {build : α → Text → Extract (Option Text)} {previous : Option Char} {matched arg rest r : Text}
    {value : α} {latex : Marked} {G G₁ G₂ : Table} {rounds : Nat}
    (hat : head.HitsAt previous matched value (arg ++ ')' :: rest))
    (harg : Balanced (fun _ => True) arg) (hbuild : (build value arg).Gives G (some latex.text) G₁)
    (hrest : ∀ q, (collect head build rounds q rest).Gives (G₁ ++ [latex]) r G₂) :
    (collect head build (rounds + 1) previous (matched ++ (arg ++ ')' :: rest))).Gives G
      (Marker.ofNat G₁.length ++ r) G₂ := by
  have hput : (putAside build ⟨[], matched, value, arg ++ ')' :: rest⟩).Gives G
      (some (Marker.ofNat G₁.length, rest)) (G₁ ++ [latex]) := by
    rw [putAside, harg.splitClosing?]
    exact hbuild.bind ((gives_store latex G₁).bind (gives_pure _ _))
  rw [collect, Pattern.find?_of_hitsAt hat]
  exact hput.bind ((hrest _).bind (gives_pure_eq (by simp) _))

/-- What has to be known of a pattern and of what is built at its hits, so that collecting puts the
formulas of a kind aside. -/
structure Call.Finds {α : Type} (head : Pattern α) (build : α → Text → Extract (Option Text))
    (own : Formula Leaf → Prop) (m bound : Nat) : Prop where
  leaf {l : Leaf} {previous : Option Char} {rest : Text} :
    Starts previous → Ends rest → head.Misses previous l.text rest
  wrap {k : Wrapper} {e : Formula Leaf} {previous : Option Char} (rest : Text) :
    m < k.rank → ¬own (.wrap k e) → Starts previous →
      head.Misses previous (k.word ++ k.opening) rest
  join {j : Joiner} {a b : Formula Leaf} {previous : Option Char} (rest : Text) :
    m < j.rank → ¬own (.join j a b) → Starts previous →
      head.Misses previous (j.word ++ j.opening) rest
  sign {c : Char} (previous : Option Char) (text : Text) :
    c ∈ [')', '/', '(', ',', ' ', '|', '>'] → head previous (c :: text) = none
  hit {e : Formula Leaf} {G : Table} : e.Fits m bound → own e → e.Covered G →
    ∃ (matched arg : Text) (value : α) (latex : Marked) (G₁ : Table),
      e.source Leaf.text = matched ++ (arg ++ [')']) ∧
      (∀ previous after, Starts previous → head.HitsAt previous matched value after) ∧
      Balanced (fun _ => True) arg ∧ (build value arg).Gives G (some latex.text) G₁ ∧
      Becomes G e (G₁ ++ [latex]) (.leaf (.mark G₁.length))

/-- **Collecting the calls of a formula** puts them aside. -/
theorem Call.Finds.putsAside {α : Type} {head : Pattern α}
    {build : α → Text → Extract (Option Text)} {own : Formula Leaf → Prop} {m bound : Nat}
    (h : Finds head build own m bound) :
    Scanner.PutsAside (collect head build) own m bound where
  leaf hstarts hends := passes_collect (h.leaf hstarts hends)
  wrap hfits hown hstarts := passes_collect (h.wrap _ hfits.above.1 hown hstarts)
  join hfits hown hstarts := passes_collect (h.join _ hfits.above.1 hown hstarts)
  sign hsigns := passes_collect
    (Pattern.misses_of_forall fun c hc previous text => h.sign previous text (hsigns c hc))
  hit hfits hown hG := by
    obtain ⟨matched, arg, value, latex, G₁, hsource, hat, harg, hbuild, hbecomes⟩ :=
      h.hit hfits hown hG
    refine ⟨G₁.length, G₁ ++ [latex], hbecomes, ?_⟩
    intro rounds previous rest r G'' hstarts _ hrest
    rw [hsource, List.append_assoc, List.append_assoc, List.singleton_append]
    exact gives_collect_hit (hat _ _ hstarts) harg hbuild hrest

theorem Call.gives_collect_nil {α : Type} {head : Pattern α}
    {build : α → Text → Extract (Option Text)} (rounds : Nat) (q : Option Char) (G : Table) :
    (collect head build rounds q []).Gives G [] G := by
  cases rounds <;> exact gives_pure _ _

/-! ## Names -/

namespace Call

variable {names : List Text} {previous : Option Char} {w rest : Text}

theorem bars_of_starts (h : Starts previous) : ∀ c ∈ previous, barsName c = false := by
  have key : ∀ c ∈ ['(', '|', '<', ' '], barsName c = false := by decide
  exact fun c hc => key c (h c hc)

/-- A name inside a longer name starts no call. -/
theorem misses_within {c : Char} (hc : isNameChar c = true) (hw : ∀ d ∈ w, isNameChar d = true) :
    (head names).Misses (some c) w rest := by
  induction w generalizing c with
  | nil => exact Pattern.misses_nil
  | cons d w ih =>
    refine ⟨?_, ih (hw d List.mem_cons_self) fun x hx => hw x (List.mem_cons_of_mem d hx)⟩
    rw [head, if_pos (by simp [barsName, hc])]

/-- A run of name characters in front of something else is a name as a whole, or none. -/
theorem run_of_hit (hnames : ∀ name ∈ names, ∀ c ∈ name, isNameChar c = true) {hit : Hit Text}
    (hw : ∀ c ∈ w, isNameChar c = true) (hrest : ∀ c ∈ rest.head?, isNameChar c = false)
    (h : head names previous (w ++ rest) = some hit) :
    w ∈ names ∧ hit.value = w ∧ ∃ blanks after : Text, rest = blanks ++ '(' :: after ∧
      blanks.Blank ∧ hit.width = (w ++ blanks ++ ['(']).length := by
  obtain ⟨matched, after, htext, hwidth, -, ⟨blanks, rfl, hblank⟩, hmem, -⟩ :=
    recognises_head names h
  have hstop : ∀ c ∈ (blanks ++ ('(' :: after)).head?, isNameChar c = false := by
    intro c hc
    cases blanks with
    | nil =>
      obtain rfl := Option.some.inj hc
      rfl
    | cons b blanks =>
      obtain rfl := Option.some.inj hc
      exact isNameChar_of_isBlank (hblank b List.mem_cons_self)
  rw [show hit.value ++ blanks ++ ['('] ++ after = hit.value ++ (blanks ++ '(' :: after) by simp]
    at htext
  have hname : w = hit.value := by
    have htake := congrArg (List.takeWhile isNameChar) htext
    rwa [takeWhile_append_stop hw hrest, takeWhile_append_stop (hnames _ hmem) hstop] at htake
  have hafter : rest = blanks ++ '(' :: after := by
    have hdrop := congrArg (List.dropWhile isNameChar) htext
    rwa [dropWhile_append_stop hw hrest, dropWhile_append_stop (hnames _ hmem) hstop] at hdrop
  subst hname
  exact ⟨hmem, rfl, blanks, after, hafter, hblank, hwidth⟩

theorem misses_run (hnames : ∀ name ∈ names, ∀ c ∈ name, isNameChar c = true)
    (hw : ∀ c ∈ w, isNameChar c = true) (hrest : ∀ c ∈ rest.head?, isNameChar c = false)
    (hmiss : w ∉ names ∨ ∀ c ∈ rest.head?, isBlank c = false ∧ c ≠ '(') :
    (head names).Misses previous w rest := by
  cases w with
  | nil => exact Pattern.misses_nil
  | cons d w =>
    refine ⟨?_, misses_within (hw d List.mem_cons_self) fun x hx =>
      hw x (List.mem_cons_of_mem d hx)⟩
    by_contra hne
    obtain ⟨hit, hhit⟩ := Option.ne_none_iff_exists'.mp hne
    obtain ⟨hmem, -, blanks, after, rfl, hblank, -⟩ := run_of_hit hnames hw hrest hhit
    rcases hmiss with hmiss | hhead
    · exact hmiss hmem
    · cases blanks with
      | nil => exact (hhead '(' rfl).2 rfl
      | cons b blanks =>
        have := (hhead b rfl).1
        rw [hblank b List.mem_cons_self] at this
        cases this

theorem misses_sign (hnames : ∀ name ∈ names, ∀ c ∈ name, isNameChar c = true)
    (hne : [] ∉ names) {c : Char} (hc : isNameChar c = false) (text : Text) :
    head names previous (c :: text) = none := by
  by_contra hhit
  obtain ⟨hit, hhit⟩ := Option.ne_none_iff_exists'.mp hhit
  obtain ⟨hmem, -⟩ := run_of_hit (w := []) hnames (by simp) (by simpa using hc) hhit
  exact hne hmem

/-- A name in front of a bracket is found. -/
theorem hitsAt_name (hnames : ∀ name ∈ names, ∀ c ∈ name, isNameChar c = true) (hmem : w ∈ names)
    (hstarts : Starts previous) (after : Text) :
    (head names).HitsAt previous (w ++ ['(']) w after := by
  refine ⟨?_, by simp⟩
  rw [List.append_assoc, List.singleton_append]
  cases hhead : head names previous (w ++ '(' :: after) with
  | none =>
    exfalso
    rw [head, if_neg (by
      rw [Option.any_eq_true]
      rintro ⟨c, hc, hbars⟩
      rw [bars_of_starts hstarts c hc] at hbars
      cases hbars)] at hhead
    have hnone := List.findSome?_eq_none_iff.mp hhead w hmem
    rw [isPrefixOf?_append] at hnone
    simp [Text.trimLeft, show isBlank '(' = false by decide] at hnone
  | some hit =>
    obtain ⟨-, hvalue, blanks, after', hrest, hblank, hwidth⟩ :=
      run_of_hit hnames (hnames w hmem) (by simp [isNameChar]) hhead
    cases blanks with
    | nil =>
      rw [List.append_nil] at hwidth
      rw [← hwidth]
      rw [← hvalue]
    | cons b blanks =>
      have hb := hblank b List.mem_cons_self
      rw [List.cons_append] at hrest
      rw [← (List.cons.inj hrest).1] at hb
      exact absurd hb (by decide)

/-- The names that a step collects. -/
def namesOf : Nat → List Text
  | 1 => [factorialName]
  | 3 => ["sqrt".toList, "vec".toList]
  | 4 => ["floor".toList, "ceil".toList]
  | 5 => Symbol.functionNames
  | 7 => [binomialName]
  | _ => []

theorem namesOf_spec : ∀ r ∈ [1, 3, 4, 5, 7], [] ∉ namesOf r ∧ ∀ name ∈ namesOf r,
    '_' ∉ name ∧ name.length ≠ 1 ∧ ∀ c ∈ name, isNameChar c = true := by decide

theorem namesOf_disjoint : ∀ r ∈ [1, 3, 4, 5, 7], ∀ s ∈ [1, 3, 4, 5, 7], r ≠ s →
    ∀ name ∈ namesOf r, name ∉ namesOf s := by decide

/-- A construct around one part is a call that a step collects, or starts with no name of any. -/
theorem wrapper_cases (k : Wrapper) :
    (k.rank ∈ [1, 3, 4, 5, 7] ∧ k.word ∈ namesOf k.rank ∧ k.opening = ['('] ∧ k.closing = [')']) ∨
      (k.rank ∉ [1, 3, 4, 5, 7] ∧ ∀ r ∈ [1, 3, 4, 5, 7], k.word ∉ namesOf r) := by
  cases k with
  | factorial => exact .inl ⟨by decide, by decide, rfl, rfl⟩
  | command name h => exact .inl ⟨(by decide : 3 ∈ [1, 3, 4, 5, 7]), h, rfl, rfl⟩
  | rounding name h => exact .inl ⟨(by decide : 4 ∈ [1, 3, 4, 5, 7]), h, rfl, rfl⟩
  | function name h => exact .inl ⟨(by decide : 5 ∈ [1, 3, 4, 5, 7]), h, rfl, rfl⟩
  | absolute => exact .inr ⟨(by decide : 9 ∉ [1, 3, 4, 5, 7]), fun r hr => (namesOf_spec r hr).1⟩
  | subscript v =>
    refine .inr ⟨(by decide : 11 ∉ [1, 3, 4, 5, 7]), fun r hr hmem => ?_⟩
    exact ((namesOf_spec r hr).2 _ hmem).1 (by simp [Wrapper.word])
  | power v =>
    refine .inr ⟨(by decide : 12 ∉ [1, 3, 4, 5, 7]), fun r hr hmem => ?_⟩
    exact ((namesOf_spec r hr).2 _ hmem).2.1 rfl

theorem joiner_cases (j : Joiner) :
    (j.rank ∈ [1, 3, 4, 5, 7] ∧ j.word ∈ namesOf j.rank) ∨
      (j.rank ∉ [1, 3, 4, 5, 7] ∧ ∀ r ∈ [1, 3, 4, 5, 7], j.word ∉ namesOf r) := by
  cases j with
  | vector => exact .inr ⟨by decide, fun r hr => (namesOf_spec r hr).1⟩
  | binomial => exact .inl ⟨by decide, by decide⟩
  | fraction => exact .inr ⟨by decide, fun r hr => (namesOf_spec r hr).1⟩

/-- What opens a construct ends a name, and no call starts in it. -/
theorem misses_opening {r : Nat} (hr : r ∈ [1, 3, 4, 5, 7]) (text : Text)
    (htext : text ∈ [['('], ['^', '('], ['|'], ['<']]) (rest : Text) :
    (∀ c ∈ (text ++ rest).head?, isNameChar c = false) ∧
      ∀ {previous}, (head (namesOf r)).Misses previous text rest := by
  obtain ⟨hne, hspec⟩ := namesOf_spec r hr
  have hsigns : ∀ text ∈ [['('], ['^', '('], ['|'], ['<']], text ≠ [] ∧
      ∀ c ∈ text, isNameChar c = false := by decide
  obtain ⟨htextne, hsigns⟩ := hsigns text htext
  refine ⟨fun c hc => ?_, Pattern.misses_of_forall fun c hc _ _ =>
    misses_sign (fun name hname => (hspec name hname).2.2) hne (hsigns c hc) _⟩
  rw [List.head?_append_of_ne_nil _ htextne] at hc
  exact hsigns c (List.mem_of_mem_head? hc)

/-- A step that collects calls of a rank finds them in a formula, and nothing else. -/
theorem finds_names {m r bound : Nat} (hr : r ∈ [1, 3, 4, 5, 7])
    {build : Text → Text → Extract (Option Text)}
    (hbuild : ∀ ⦃e : Formula Leaf⦄ ⦃G : Table⦄, e.Fits m bound → e.rank = r → e.Covered G →
      ∃ (word arg : Text) (latex : Marked) (G₁ : Table),
        e.source Leaf.text = word ++ ['('] ++ (arg ++ [')']) ∧ word ∈ namesOf r ∧
        Balanced (fun _ => True) arg ∧ (build word arg).Gives G (some latex.text) G₁ ∧
        Becomes G e (G₁ ++ [latex]) (.leaf (.mark G₁.length))) :
    Finds (head (namesOf r)) build (fun e => e.rank = r) m bound := by
  obtain ⟨hne, hspec⟩ := namesOf_spec r hr
  have hnames := fun name hname => (hspec name hname).2.2
  refine ⟨?_, ?_, ?_, ?_, ?_⟩
  · -- A leaf may be spelt as a name, but there is no bracket behind it.
    intro l previous rest hstarts hends
    have key : ∀ c ∈ [')', '|', '>', ','], isNameChar c = false ∧ isBlank c = false ∧ c ≠ '(' := by
      decide
    exact misses_run hnames (fun c hc => Leaf.isNameChar_of_mem hc)
      (fun c hc => (key c (hends c hc)).1) (.inr fun c hc => (key c (hends c hc)).2)
  · intro k e previous rest _ hown hstarts
    have hword : k.word ∉ namesOf r := by
      rcases wrapper_cases k with ⟨hrank, hmem, -, -⟩ | ⟨-, hnone⟩
      · exact namesOf_disjoint k.rank hrank r hr hown _ hmem
      · exact hnone r hr
    obtain ⟨hhead, hmiss⟩ := misses_opening hr k.opening
      (by cases k <;> simp [Wrapper.opening]) rest
    exact Pattern.misses_append (misses_run hnames (fun c hc => Wrapper.isNameChar_of_mem hc) hhead
      (.inl hword)) hmiss
  · intro j a b previous rest _ hown hstarts
    have hword : j.word ∉ namesOf r := by
      rcases joiner_cases j with ⟨hrank, hmem⟩ | ⟨-, hnone⟩
      · exact namesOf_disjoint j.rank hrank r hr hown _ hmem
      · exact hnone r hr
    obtain ⟨hhead, hmiss⟩ := misses_opening hr j.opening
      (by cases j <;> simp [Joiner.opening]) rest
    exact Pattern.misses_append (misses_run hnames (fun c hc => Joiner.isNameChar_of_mem hc) hhead
      (.inl hword)) hmiss
  · intro c previous text hc
    have key : ∀ c ∈ [')', '/', '(', ',', ' ', '|', '>'], isNameChar c = false := by decide
    exact misses_sign hnames hne (key c hc) text
  · intro e G hfits hown hG
    obtain ⟨word, arg, latex, G₁, hsource, hmem, harg, hgives, hbecomes⟩ := hbuild hfits hown hG
    exact ⟨word ++ ['('], arg, word, latex, G₁, hsource, fun previous after hstarts =>
      hitsAt_name hnames hmem hstarts after, harg, hgives, hbecomes⟩

/-- **A step that collects calls of a rank clears it.** -/
theorem clears_step {m r : Nat} (hr : r ∈ [1, 3, 4, 5, 7]) (hfactorial : r = 1 ∨ 1 ≤ m)
    (hgap : ∀ s ∈ ranks, m < s → s ≠ r → r < s)
    {build : Treatment → Text → Text → Extract (Option Text)}
    (hbuild : ∀ ⦃treat : Treatment⦄ ⦃bound : Nat⦄, treat.Solves bound →
      ∀ ⦃e : Formula Leaf⦄ ⦃G : Table⦄, e.Fits m (bound + 1) → e.rank = r → e.Covered G →
      ∃ (word arg : Text) (latex : Marked) (G₁ : Table),
        e.source Leaf.text = word ++ ['('] ++ (arg ++ [')']) ∧ word ∈ namesOf r ∧
        Balanced (fun _ => True) arg ∧ (build treat word arg).Gives G (some latex.text) G₁ ∧
        Becomes G e (G₁ ++ [latex]) (.leaf (.mark G₁.length))) :
    Step.Clears (step (namesOf r) build) m r := by
  intro treat bound rounds hsolves hrounds e G he hG
  have hzero : r ≠ 0 := by
    rintro rfl
    exact absurd hr (by decide)
  obtain ⟨e', n, G', htrimmed, hbecomes, hgives⟩ :=
    (finds_names hr (hbuild hsolves)).putsAside.gives_all
      (fun e habove => hfactorial.elim (fun h => h.symm) fun h => absurd habove.1 (by
        simp only [Wrapper.rank]
        omega))
      (fun e hown => by cases e with
        | leaf l => exact absurd hown.symm hzero
        | wrap k e => exact Nat.succ_pos _
        | join j a b => exact Nat.succ_pos _)
      gives_collect_nil hrounds he hG
  exact ⟨e', G', hgives, hbecomes, htrimmed.above_rank hgap he.above, htrimmed.proper he.proper,
    htrimmed.nodes_le.trans he.small⟩

/-- A step that collects calls of one argument, and writes them as their frame says. -/
theorem clears_wrapper (m r : Nat) (hr : r ∈ [1, 3, 4, 5]) (hfactorial : r = 1 ∨ 1 ≤ m)
    (hgap : ∀ s ∈ ranks, m < s → s ≠ r → r < s)
    {build : Treatment → Text → Text → Extract (Option Text)}
    (hlatex : ∀ (treat : Treatment) (k : Wrapper) (a : Formula Leaf), k.rank = r →
      build treat k.word (a.source Leaf.text) = do
        let inner ← treat true (a.source Leaf.text)
        return some ((k.frame (isCompoundSource (a.source Leaf.text))).1 ++
          (inner ++ (k.frame (isCompoundSource (a.source Leaf.text))).2))) :
    Step.Clears (step (namesOf r) build) m r := by
  refine clears_step (List.mem_append_left [7] hr) hfactorial hgap ?_
  intro treat bound hsolves e G he hrank hG
  cases e with
  | leaf l =>
    rw [← hrank] at hr
    simp [Formula.rank] at hr
  | join j a b =>
    rw [← hrank] at hr
    cases j <;> simp [Formula.rank, Joiner.rank] at hr
  | wrap k a =>
    rcases wrapper_cases k with ⟨-, hmem, hopening, hclosing⟩ | ⟨hnone, -⟩
    · obtain ⟨l, G₁, hgives, hbecomes⟩ := hsolves true (Formula.trim_source a)
        (Nat.lt_succ_iff.mp he.part.2) he.part.1.proper hG
      refine ⟨k.word, a.source Leaf.text, _, G₁, ?_, hrank ▸ hmem, a.balanced, ?_,
        hbecomes.store_wrap⟩
      · rw [source, hopening, hclosing, List.append_assoc]
      · rw [hlatex treat k a hrank]
        refine hgives.bind (gives_pure_eq ?_ _)
        simp [Becomes.wrapped]
    · rw [show k.rank = r from hrank] at hnone
      exact absurd (List.mem_append_left [7] hr) hnone

end Call

/-! ## The steps -/

theorem clears_factorials : Step.Clears Construct.factorials 0 1 := by
  refine Call.clears_wrapper 0 1 (by decide) (.inl rfl) (by decide) fun treat k a hk => ?_
  cases k <;> simp [Wrapper.rank] at hk
  refine bind_congr fun inner => ?_
  rw [a.trim_source, a.isCompound_source]
  cases isCompoundSource (a.source Leaf.text) <;> rfl

theorem clears_rootsAndArrows : Step.Clears Construct.rootsAndArrows 1 3 := by
  refine Call.clears_wrapper 1 3 (by decide) (.inr (by decide)) (by decide) fun treat k a hk => ?_
  cases k <;> simp [Wrapper.rank] at hk
  refine bind_congr fun inner => congrArg (fun text => pure (some text)) ?_
  simp [Latex.command, Latex.braced, Wrapper.word, Wrapper.frame]

theorem clears_floorsAndCeilings : Step.Clears Construct.floorsAndCeilings 3 4 := by
  refine Call.clears_wrapper 3 4 (by decide) (.inr (by decide)) (by decide) fun treat k a hk => ?_
  cases k <;> simp [Wrapper.rank] at hk
  refine bind_congr fun inner => congrArg (fun text => pure (some text)) ?_
  simp [Wrapper.word, Wrapper.frame]

theorem clears_functions : Step.Clears Construct.functions 4 5 := by
  refine Call.clears_wrapper 4 5 (by decide) (.inr (by decide)) (by decide) fun treat k a hk => ?_
  cases k <;> simp [Wrapper.rank] at hk
  refine bind_congr fun inner => congrArg (fun text => pure (some text)) ?_
  simp [Wrapper.word, Wrapper.frame]

theorem clears_binomials : Step.Clears Construct.binomials 6 7 := by
  refine Call.clears_step (r := 7) (by decide) (.inr (by decide)) (by decide) ?_
  intro treat bound hsolves e G he hrank hG
  cases e with
  | leaf l => cases hrank
  | wrap k a => cases k <;> cases hrank
  | join j a b =>
    cases j with
    | vector => cases hrank
    | fraction => cases hrank
    | binomial =>
      obtain ⟨l, G₁, hgives, hbecomes⟩ := hsolves true (Formula.trim_source a)
        (Nat.lt_succ_iff.mp he.first.2) he.first.1.proper hG.1
      obtain ⟨l', G₂, hgives', hbecomes'⟩ := hsolves true (Formula.trim_space_source b)
        (Nat.lt_succ_iff.mp he.second.2) he.second.1.proper (hbecomes.keeps hG.2).1
      refine ⟨binomialName, a.source Leaf.text ++ ([',', ' '] ++ b.source Leaf.text), _, G₂, ?_,
        List.mem_singleton.mpr rfl, ?_, ?_, hbecomes.store_join hbecomes' hG.2⟩
      · simp [source, Joiner.word, Joiner.opening, Joiner.middle, Joiner.closing]
      · exact a.balanced.append (.sign rfl rfl trivial (.sign rfl rfl trivial b.balanced))
      · have hne : ∀ e : Formula Leaf, (e.source Leaf.text).isEmpty = false := fun e =>
          List.isEmpty_eq_false_iff.mpr e.source_ne_nil
        simp only [Formula.splitTop_source he.above.2.1 he.above.2.2, Formula.trim_source,
          Formula.trim_space_source, hne, Bool.or_self, Bool.false_eq_true, if_false]
        refine hgives.bind (hgives'.bind (gives_pure_eq (congrArg some ?_) _))
        rw [Becomes.text_joined, Joiner.frame_binomial]
        simp [Latex.command, Latex.braced]

/-! ## Operators with bounds

No construct of a formula starts with an operator that takes bounds. -/

namespace Bound

variable {previous : Option Char} {w rest : Text}

theorem prefix_of_hit {text : Text} {hit : Hit (Text × Text)} (h : head previous text = some hit) :
    (∀ c ∈ previous, isNameChar c = false) ∧ ∃ o ∈ operators, o.1 <+: text := by
  obtain ⟨matched, after, rfl, -, -, ⟨blanks, mark, blanks', -, -, -, rfl⟩, hmem, hprevious⟩ :=
    recognises_head h
  refine ⟨fun c hc => Call.isNameChar_of_barsName (hprevious c hc), hit.value, hmem, ?_⟩
  rw [List.append_assoc]
  exact List.prefix_append _ _

theorem operators_spec : ∀ o ∈ operators, 2 < o.1.length ∧ ∀ c ∈ o.1, c.isAlpha = true := by decide

/-- An operator at the front of a run of name characters is the front of the run. -/
theorem prefix_run {o : Text × Text} (ho : o ∈ operators)
    (hrest : ∀ c ∈ rest.head?, isNameChar c = false) (h : o.1 <+: w ++ rest) : o.1 <+: w := by
  rcases List.prefix_or_prefix_of_prefix h (List.prefix_append w rest) with hw | ⟨more, hmore⟩
  · exact hw
  · rw [← hmore, List.prefix_append_right_inj] at h
    cases more with
    | nil => simp [← hmore]
    | cons c more =>
      obtain ⟨tail, rfl⟩ := h
      have hname := isNameChar_of_isAlpha ((operators_spec o ho).2 c (by simp [← hmore]))
      rw [hrest c rfl] at hname
      cases hname

theorem misses_run (hw : ∀ c ∈ w, isNameChar c = true)
    (hrest : ∀ c ∈ rest.head?, isNameChar c = false) (hmiss : ∀ o ∈ operators, ¬ o.1 <+: w) :
    head.Misses previous w rest := by
  have hwithin : ∀ {c : Char} {w : Text}, isNameChar c = true → (∀ d ∈ w, isNameChar d = true) →
      head.Misses (some c) w rest := by
    intro c w hc hw
    induction w generalizing c with
    | nil => exact Pattern.misses_nil
    | cons d w ih =>
      refine ⟨?_, ih (hw d List.mem_cons_self) fun x hx => hw x (List.mem_cons_of_mem d hx)⟩
      rw [head, if_pos (by simp [Call.barsName, hc])]
  cases w with
  | nil => exact Pattern.misses_nil
  | cons d w =>
    refine ⟨?_, hwithin (hw d List.mem_cons_self) fun x hx => hw x (List.mem_cons_of_mem d hx)⟩
    by_contra hne
    obtain ⟨hit, hhit⟩ := Option.ne_none_iff_exists'.mp hne
    obtain ⟨-, o, ho, hprefix⟩ := prefix_of_hit hhit
    exact hmiss o ho (prefix_run ho hrest hprefix)

theorem misses_sign {c : Char} (hc : isNameChar c = false) (text : Text) :
    head previous (c :: text) = none := by
  by_contra hne
  obtain ⟨hit, hhit⟩ := Option.ne_none_iff_exists'.mp hne
  obtain ⟨-, o, ho, hprefix⟩ := prefix_of_hit hhit
  have hrun := prefix_run (w := []) ho (by simpa using hc) hprefix
  have hlength := (operators_spec o ho).1
  rw [List.prefix_nil.mp hrun] at hlength
  cases hlength

/-- No leaf starts with an operator. -/
theorem not_prefix_leaf (l : Leaf) : ∀ o ∈ operators, ¬ o.1 <+: l.text := by
  intro o ho hprefix
  obtain ⟨hlength, halpha⟩ := operators_spec o ho
  have hhead : ∀ c ∈ l.text.head?, c.isAlpha = true := by
    intro c hc
    cases hname : o.1 with
    | nil =>
      rw [hname] at hlength
      cases hlength
    | cons d name =>
      rw [hname] at hprefix halpha
      obtain ⟨tail, htail⟩ := hprefix
      rw [← htail] at hc
      obtain rfl := Option.some.inj hc
      exact halpha d List.mem_cons_self
  rcases l with (v | n) | n
  · have := hprefix.length_le
    simp only [Leaf.text, Atom.text, List.length_singleton] at this
    omega
  · obtain ⟨c, digits, hdigits⟩ := List.exists_cons_of_ne_nil n.2.1
    have hdigit := n.2.2 c (by rw [hdigits]; exact List.mem_cons_self)
    rw [isDigit_of_isAlpha (hhead c (by simp [Leaf.text, Atom.text, hdigits]))] at hdigit
    cases hdigit
  · cases hhead '_' rfl

theorem not_prefix_word (k : Wrapper) : ∀ o ∈ operators, ¬ o.1 <+: k.word := by
  intro o ho hprefix
  have hlength := (operators_spec o ho).1
  rcases k.word_cases with ⟨hmem, -, -⟩ | rfl | ⟨v, rfl⟩ | ⟨v, rfl⟩
  · exact (by decide : ∀ name ∈ callNames, ∀ o ∈ operators, ¬ o.1 <+: name) _ hmem o ho hprefix
  all_goals
    have := hprefix.length_le
    simp only [Wrapper.word, List.length_cons, List.length_nil] at this
    omega

/-- Nothing in a formula is an operator with bounds. -/
theorem finds_nothing {build : Text × Text → Text → Extract (Option Text)} (m bound : Nat) :
    Call.Finds head build (fun _ => False) m bound where
  leaf hstarts hends := by
    have key : ∀ c ∈ [')', '|', '>', ','], isNameChar c = false := by decide
    exact misses_run (fun c hc => Leaf.isNameChar_of_mem hc) (fun c hc => key c (hends c hc))
      (not_prefix_leaf _)
  wrap {k _ _} rest _ _ _ := by
    have hsigns : k.opening ≠ [] ∧ ∀ c ∈ k.opening, isNameChar c = false := by
      cases k <;> simp [Wrapper.opening, isNameChar]
    refine Pattern.misses_append (misses_run (fun c hc => Wrapper.isNameChar_of_mem hc) ?_
      (not_prefix_word k))
      (Pattern.misses_of_forall fun c hc _ text => misses_sign (hsigns.2 c hc) text)
    rw [List.head?_append_of_ne_nil _ hsigns.1]
    exact fun c hc => hsigns.2 c (List.mem_of_mem_head? hc)
  join {j _ _ _} rest _ _ _ := by
    have hsigns : j.opening ≠ [] ∧ ∀ c ∈ j.opening, isNameChar c = false := by
      cases j <;> simp [Joiner.opening, isNameChar]
    have hword : ∀ o ∈ operators, ¬ o.1 <+: j.word := by cases j <;> decide
    refine Pattern.misses_append (misses_run (fun c hc => Joiner.isNameChar_of_mem hc) ?_ hword)
      (Pattern.misses_of_forall fun c hc _ text => misses_sign (hsigns.2 c hc) text)
    rw [List.head?_append_of_ne_nil _ hsigns.1]
    exact fun c hc => hsigns.2 c (List.mem_of_mem_head? hc)
  sign previous text hc := by
    have key : ∀ c ∈ [')', '/', '(', ',', ' ', '|', '>'], isNameChar c = false := by decide
    exact misses_sign (key _ hc) text
  hit _ hown := hown.elim

end Bound

theorem clears_boundedOperators : Step.Clears Construct.boundedOperators 1 1 := by
  intro treat bound rounds _ hrounds e G he hG
  obtain ⟨e', n, G', htrimmed, hbecomes, hgives⟩ :=
    (Bound.finds_nothing 1 (bound + 1)).putsAside.gives_all
      (fun e habove => absurd habove.1 (by decide)) (fun _ h => h.elim) Call.gives_collect_nil
      hrounds he hG
  rw [htrimmed.eq_self (htrimmed.count_eq_zero fun _ => id)] at hgives hbecomes
  exact ⟨e, G', hgives, hbecomes, he⟩

end MathNotes
