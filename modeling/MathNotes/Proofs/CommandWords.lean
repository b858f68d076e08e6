import MathNotes.Proofs.RewriteSteps

/-!
# Commands

A backslash makes a command of the letters behind it, and all of them: a command that is written in
front of a letter becomes another command.  Here is what may follow a backslash.

* A `Vocabulary` lists the signs that may follow one, the commands, those commands that a line holds
  itself (its `hosts`), and those that are left open for letters (`loose`).
* A command ends where its name ends: the characters of a name behind a backslash are one of the
  commands, or a fragment behind a command takes care of what follows (`Vocabulary.Word`).
* While a line is rewritten, its commands are read in the same way (`Written.reads`).  Only an
  exponent may take the last letter of a command with it.
-/

namespace MathNotes

/-! ## Backslashes -/

namespace Text

/-- Every backslash of the text is followed by what `P` allows, when `rest` stands behind the
text. -/
def Spelt (P : Text → Prop) (text rest : Text) : Prop :=
  ∀ a r, text = a ++ '\\' :: r → P (r ++ rest)

variable {P Q : Text → Prop} {a b c : Text}

theorem spelt_append : Spelt P (a ++ b) c ↔ Spelt P a (b ++ c) ∧ Spelt P b c := by
  constructor
  · intro h
    exact ⟨fun x r hx => by simpa using h x (r ++ b) (by simp [hx]),
      fun x r hx => h (a ++ x) r (by simp [hx])⟩
  · rintro ⟨ha, hb⟩ x r hx
    rcases char_cases hx with ⟨t, -, ht⟩ | ⟨t, ht, rfl⟩
    · exact hb t r ht
    · simpa using ha x t ht

theorem spelt_of_notMem (h : '\\' ∉ a) : Spelt P a b := by
  rintro x r rfl
  simp at h

theorem spelt_nil : Spelt P [] b := spelt_of_notMem (by simp)

/-- A backslash, and the text behind it. -/
theorem spelt_backslash : Spelt P ('\\' :: a) b ↔ P (a ++ b) ∧ Spelt P a b := by
  have hsplit : Spelt P (['\\'] ++ a) b ↔ _ := spelt_append
  rw [List.singleton_append] at hsplit
  rw [hsplit]
  refine and_congr_left fun _ => ⟨fun h => h [] [] rfl, ?_⟩
  rintro h (_ | ⟨d, x⟩) r hx
  · obtain ⟨-, rfl⟩ := List.cons.inj hx
    exact h
  · simp at hx

theorem spelt_cons {d : Char} (hd : d ≠ '\\') : Spelt P (d :: a) b ↔ Spelt P a b := by
  have hsplit : Spelt P ([d] ++ a) b ↔ _ := spelt_append
  rw [List.singleton_append] at hsplit
  rw [hsplit]
  exact and_iff_right (spelt_of_notMem (by simpa using hd.symm))

/-- What stands behind the text may change, if every end of the text allows it. -/
theorem Spelt.exchange (h : Spelt P a b) (hP : ∀ r, P (r ++ b) → Q (r ++ c)) : Spelt Q a c :=
  fun x r hx => hP r (h x r hx)

theorem Spelt.mono (h : Spelt P a b) (hP : ∀ r, P r → Q r) : Spelt Q a b :=
  h.exchange fun _ => hP _

end Text

/-! ## Names -/

namespace Text

/-- The characters of a name at the front of a text. -/
def nameRun (text : Text) : Text := text.takeWhile isNameChar

/-- No character of a name stands at the front of the text. -/
def Stops (text : Text) : Prop := ∀ c ∈ text.head?, isNameChar c = false

variable {a b : Text}

theorem stops_nil : Stops [] := by simp [Stops]

theorem stops_cons {c : Char} : Stops (c :: a) ↔ isNameChar c = false := by simp [Stops]

theorem nameRun_of_stops (h : a.Stops) : a.nameRun = [] :=
  @takeWhile_append_stop isNameChar [] a (by simp) h

/-- A name at the front of a text may go on behind it. -/
theorem nameRun_append_of_names (h : ∀ c ∈ a, isNameChar c = true) :
    nameRun (a ++ b) = a ++ nameRun b :=
  List.takeWhile_append_of_pos h

/-- Behind a sign no name at the front of a text goes on. -/
theorem nameRun_append_of_sign (h : ∃ c ∈ a, isNameChar c = false) :
    nameRun (a ++ b) = nameRun a := by
  obtain ⟨c, hc, hsign⟩ := h
  induction a with
  | nil => cases hc
  | cons d a ih =>
    by_cases hd : isNameChar d = true
    · have hmem : c ∈ a := by
        rcases List.mem_cons.mp hc with rfl | hmem
        · rw [hd] at hsign
          cases hsign
        · exact hmem
      simpa [nameRun, hd] using ih hmem
    · simp [nameRun, hd]

theorem nameRun_append_of_stops (h : b.Stops) : nameRun (a ++ b) = nameRun a := by
  by_cases ha : ∀ c ∈ a, isNameChar c = true
  · rw [nameRun_append_of_names ha, nameRun_of_stops h, List.append_nil]
    exact (List.takeWhile_eq_self_iff.mpr ha).symm
  · push Not at ha
    obtain ⟨c, hc, hsign⟩ := ha
    exact nameRun_append_of_sign ⟨c, hc, by simpa using hsign⟩

end Text

/-! ## What may follow a backslash -/

/-- The signs and commands that may follow a backslash. -/
structure Vocabulary where
  signs : List Char
  commands : List Text
  /-- The commands that a line may hold before its constructs are put aside. -/
  hosts : List Text
  /-- The commands that letters may run into. -/
  loose : List Text
  sign : ∀ c ∈ signs, isNameChar c = false
  alpha : ∀ name ∈ commands ++ (hosts ++ loose), name ≠ [] ∧ ∀ c ∈ name, c.isAlpha = true
  hosts_subset : hosts ⊆ commands

namespace Vocabulary

variable (V : Vocabulary)

/-- A fragment may follow a name behind a backslash: it does not run into the command, or it holds
the last letter of the command, which carries an exponent. -/
def Fits (name latex : Text) : Prop :=
  (name ∈ V.commands ∧ latex ≠ [] ∧ latex.Stops) ∨
    ∃ c, name ++ [c] ∈ V.hosts ∧ (latex.head? = some '{' ∨ ∃ rest, latex = c :: '^' :: rest)

/-- The characters of a name behind a backslash. -/
inductive Word (F : Fragments) : Text → Prop
  | whole {name : Text} (h : name ∈ V.commands) : Word F name
  | filled {name more latex : Text} {n : Nat} (hn : F[n]? = some latex) (h : V.Fits name latex) :
      Word F (name ++ (Marker.ofNat n ++ more))

/-- What may follow a backslash. -/
def Reads (F : Fragments) (rest : Text) : Prop :=
  (∃ c ∈ rest.head?, c ∈ V.signs) ∨ (∃ name ∈ V.loose, name <+: rest) ∨ V.Word F rest.nameRun

/-- The vocabulary of a line whose constructs are put aside one after the other. -/
def lines : Vocabulary where
  signs := ['{']
  commands := V.hosts
  hosts := V.hosts
  loose := []
  sign := by decide
  alpha name h := V.alpha name (by simp only [List.mem_append] at h ⊢; tauto)
  hosts_subset := List.Subset.refl _

variable {V} {F F' : Fragments} {name latex : Text}

theorem Fits.alpha (h : V.Fits name latex) : ∀ c ∈ name, c.isAlpha = true := by
  rcases h with ⟨hname, -⟩ | ⟨c, hhost, -⟩
  · exact (V.alpha name (List.mem_append_left _ hname)).2
  · intro d hd
    exact (V.alpha _ (List.mem_append_right _ (List.mem_append_left _ hhost))).2 d (by simp [hd])

theorem Word.mono {word : Text} (h : V.Word F word)
    (hF : F <+: F') : V.Word F' word := by
  cases h with
  | whole h => exact .whole h
  | filled hn h =>
    obtain ⟨more, rfl⟩ := hF
    refine .filled ?_ h
    rw [List.getElem?_append_left (List.getElem?_eq_some_iff.mp hn).1, hn]

theorem Word.ne_nil {word : Text} (h : V.Word F word) : word ≠ [] := by
  cases h with
  | whole h => exact (V.alpha word (List.mem_append_left _ h)).1
  | filled => simp [Marker.ofNat_eq]

theorem Reads.mono {rest : Text} (h : V.Reads F rest)
    (hF : F <+: F') : V.Reads F' rest :=
  h.imp_right (Or.imp_right fun h => h.mono hF)

/-- Something follows a backslash. -/
theorem Reads.exists_head {rest : Text} (h : V.Reads F rest) :
    ∃ c ∈ rest.head?, c ∈ V.signs ∨ isNameChar c = true := by
  rcases h with ⟨c, hc, hsign⟩ | ⟨name, hname, more, rfl⟩ | hword
  · exact ⟨c, hc, .inl hsign⟩
  · obtain ⟨hne, halpha⟩ :=
      V.alpha name (List.mem_append_right _ (List.mem_append_right _ hname))
    obtain ⟨c, name, rfl⟩ := List.exists_cons_of_ne_nil hne
    exact ⟨c, rfl, .inr (isNameChar_of_isAlpha (halpha c List.mem_cons_self))⟩
  · cases rest with
    | nil => exact absurd rfl hword.ne_nil
    | cons c rest =>
      refine ⟨c, rfl, .inr ?_⟩
      by_contra hc
      rw [Text.nameRun_of_stops (Text.stops_cons.mpr (by simpa using hc))] at hword
      exact hword.ne_nil rfl

/-- Behind something that follows a backslash, no more than its first character matters, if that
belongs to no name. -/
theorem Reads.exchange {r b b' : Text} (h : V.Reads F (r ++ b)) (hr : r ≠ []) (hb : b.Stops)
    (hb' : b'.Stops) : V.Reads F (r ++ b') := by
  rcases h with hsign | ⟨name, hname, hlead⟩ | hword
  · refine .inl ?_
    rwa [List.head?_append_of_ne_nil _ hr] at hsign ⊢
  · refine .inr (.inl ⟨name, hname, ?_⟩)
    have halpha := (V.alpha name (List.mem_append_right _ (List.mem_append_right _ hname))).2
    -- The name ends in front of the sign.
    obtain ⟨more, hmore⟩ := hlead
    rcases List.append_eq_append_iff.mp hmore with ⟨t, rfl, -⟩ | ⟨t, rfl, ht⟩
    · exact ⟨t ++ b', by simp⟩
    · cases t with
      | nil => exact ⟨b', by simp⟩
      | cons c t =>
        have hc := isNameChar_of_isAlpha (halpha c (by simp))
        rw [ht] at hb
        rw [hb c rfl] at hc
        cases hc
  · refine .inr (.inr ?_)
    rw [Text.nameRun_append_of_stops hb] at hword
    rwa [Text.nameRun_append_of_stops hb']

/-- What follows a backslash of a line may be replaced behind `r`, if a word is read that goes on to
there: a brace and a word that ends before are found as they were. -/
theorem Reads.exchange_word {r b b' : Text} (h : V.lines.Reads F (r ++ b)) (hF : F <+: F')
    (hbrace : r = [] → b.head? ≠ some '{')
    (hword : (∀ c ∈ r, isNameChar c = true) → V.lines.Word F (r ++ b.nameRun) →
      V.lines.Word F' (r ++ b'.nameRun)) : V.lines.Reads F' (r ++ b') := by
  rcases h with ⟨c, hc, hsign⟩ | ⟨name, hname, -⟩ | hread
  · obtain rfl : c = '{' := List.mem_singleton.mp hsign
    by_cases hr : r = []
    · rw [hr, List.nil_append] at hc
      exact absurd hc (hbrace hr)
    · rw [List.head?_append_of_ne_nil _ hr] at hc
      exact .inl ⟨'{', by rwa [List.head?_append_of_ne_nil _ hr], hsign⟩
  · cases hname
  · refine .inr (.inr ?_)
    by_cases hr : ∃ c ∈ r, isNameChar c = false
    · rw [Text.nameRun_append_of_sign hr] at hread ⊢
      exact hread.mono hF
    · have hnames : ∀ c ∈ r, isNameChar c = true := by simpa using hr
      rw [Text.nameRun_append_of_names hnames] at hread ⊢
      exact hword hnames hread

end Vocabulary

/-! ## Rewriting a line -/

section Constructs

variable {treat : Treatment} {before after source latex : Text} {s s' : Extraction}

/-- A shape that starts with a sign has LaTeX that starts with a sign. -/
theorem Listed.stops {previous : Option Char} {shape : Shape} (h : Listed previous shape)
    (hne : shape.lead.1 ≠ []) (hstops : shape.lead.1.Stops) :
    shape.lead.2 ≠ [] ∧ shape.lead.2.Stops := by
  -- Names do not start with a sign.
  have hnamed : ∀ {name more : Text}, (∃ c ∈ name.head?, isNameChar c = true) →
      ¬ Text.Stops (name ++ more) := by
    rintro (_ | ⟨c, name⟩) more ⟨d, hd, hname⟩ hstops
    · cases hd
    · obtain rfl : c = d := by simpa using hd
      rw [hstops c rfl] at hname
      cases hname
  have hsign : ∀ {text : Text}, (∃ c ∈ text.head?, isNameChar c = false) →
      text ≠ [] ∧ text.Stops := by
    rintro (_ | ⟨c, text⟩) ⟨d, hd, hsign⟩
    · cases hd
    · obtain rfl : c = d := by simpa using hd
      exact ⟨by simp, Text.stops_cons.mpr hsign⟩
  have hcalls : ∀ name ∈ ["sqrt".toList, "vec".toList, "floor".toList, "ceil".toList] ++
      Symbol.functionNames, ∃ c ∈ name.head?, isNameChar c = true := by decide
  have hoperators : ∀ operator ∈ Bound.operators, ∃ c ∈ operator.1.head?, isNameChar c = true := by
    decide
  cases h with
  | compoundFactorial =>
    exact absurd hstops (by rw [List.append_assoc]; exact hnamed ⟨'f', rfl, rfl⟩)
  | factorial => exact absurd hstops (by rw [List.append_assoc]; exact hnamed ⟨'f', rfl, rfl⟩)
  | binomial => exact absurd hstops (by rw [List.append_assoc]; exact hnamed ⟨'c', rfl, rfl⟩)
  | command _ hname =>
    refine absurd hstops ?_
    rw [List.append_assoc]
    exact hnamed (hcalls _ (List.mem_append_left _ (by simp at hname ⊢; tauto)))
  | rounded _ hname =>
    refine absurd hstops ?_
    rw [List.append_assoc]
    exact hnamed (hcalls _ (List.mem_append_left _ (by simp at hname ⊢; tauto)))
  | function _ hname =>
    refine absurd hstops ?_
    rw [List.append_assoc]
    exact hnamed (hcalls _ (List.mem_append_right _ hname))
  | unbounded hop => exact absurd hstops (hnamed (hoperators _ hop))
  | lowerBound hop => exact absurd hstops (hnamed (hoperators _ hop))
  | bothBounds hop => exact absurd hstops (hnamed (hoperators _ hop))
  | script => exact absurd rfl hne
  | bareScript => exact absurd rfl hne
  | power => exact absurd rfl hne
  | barePower => exact absurd rfl hne
  | fraction => exact hsign ⟨'\\', rfl, rfl⟩
  | vector => exact hsign ⟨'\\', rfl, rfl⟩
  | set => exact hsign ⟨'\\', rfl, rfl⟩
  | conditionalSet => exact hsign ⟨'\\', rfl, rfl⟩
  | absolute => exact hsign ⟨'\\', rfl, rfl⟩

/-- How a construct and its LaTeX start where a name could go on into them: with signs, with a
script on the last character of the name, or with an exponent on a marker. -/
inductive StartsBehind : Text → Text → Prop
  | sign {source latex : Text} (hne : source ≠ []) (hstops : source.Stops) (hne' : latex ≠ [])
      (hstops' : latex.Stops) : StartsBehind source latex
  | exponent {base : Char} {rest rest' : Text} (hbase : isLetterOrNumber base = true) :
      StartsBehind (base :: '^' :: rest) (base :: '^' :: rest')
  | subscript {base d : Char} {rest latex : Text} (hbase : base.isAlpha = true) (hd : d ≠ '_') :
      StartsBehind (base :: '_' :: d :: rest) latex
  | power {rest rest' : Text} : StartsBehind ('_' :: '_' :: 'P' :: 'H' :: rest) ('{' :: rest')

theorem StartsBehind.signs {c d : Char} {rest rest' : Text} (hc : isNameChar c = false)
    (hd : isNameChar d = false) : StartsBehind (c :: rest) (d :: rest') :=
  .sign (by simp) (Text.stops_cons.mpr hc) (by simp) (Text.stops_cons.mpr hd)

theorem IsBase.startsBehind {base mark d : Char} {rest rest' : Text} (h : IsBase mark base)
    (hd : mark = '_' → d ≠ '_') :
    StartsBehind (base :: mark :: d :: rest) (base :: mark :: rest') := by
  rcases h with ⟨rfl, halpha⟩ | ⟨rfl, hletter | rfl | rfl⟩
  · exact .subscript halpha (hd rfl)
  · exact .exponent hletter
  · exact .signs (by decide) (by decide)
  · exact .signs (by decide) (by decide)

/-- **How a construct starts that is written behind a backslash or a name.** -/
theorem Written.startsBehind (h : Written treat before after source s latex s')
    (hbar : ∃ c ∈ before.getLast?, Call.barsName c = true) : StartsBehind source latex := by
  obtain ⟨x, hx, hbars⟩ := hbar
  -- Behind a backslash or a name, an edge needs a sign.
  have hedge : ∀ {text : Text}, Operand.Edge before text → text.Stops := by
    intro text hedge
    rcases hedge with hnone | ⟨hstops, -⟩
    · rw [hnone x hx] at hbars
      cases hbars
    · exact hstops
  cases h with
  | @listed shape source latex _ _ edge hne hlisted =>
    have hstops := hedge edge
    rw [Text.Stops, List.head?_append_of_ne_nil _ hne] at hstops
    obtain ⟨hne', hstops'⟩ := hlisted.stops hne hstops
    refine .sign (by simp [hne]) (hedge edge) (by simp [hne']) ?_
    rwa [Text.Stops, List.head?_append_of_ne_nil _ hne']
  | @fraction left right blanks blanks' _ _ _ _ _ edge hne =>
    exact .sign (by simp [hne]) (hedge (edge.append_right hne _)) (by simp [Latex.command])
      (Text.stops_cons.mpr (by decide))
  | script hbase => exact hbase.startsBehind fun _ => by decide
  | @bareScript base mark run _ hbase hrun =>
    rcases hrun with hrun | ⟨rfl, digits, rfl, -⟩
    · obtain ⟨d, run, rfl⟩ := List.exists_cons_of_ne_nil hrun.ne_nil
      refine hbase.startsBehind fun _ hd => ?_
      have halnum := hrun.all d List.mem_cons_self
      rw [hd] at halnum
      cases halnum
    · exact hbase.startsBehind fun h => by cases h
  | group => exact .signs (by decide) (by decide)
  | power => exact .power
  | barePower => exact .power
  | bracedPower => exact .power

end Constructs

namespace Vocabulary

variable {V : Vocabulary} {F F' : Fragments} {latex r u more : Text} {n : Nat}

/-- Where the marker of a word stands, when the word is cut in two. -/
theorem filled_cases {name : Text} (h : r ++ u = name ++ (Marker.ofNat n ++ more)) :
    (∃ more', r = name ++ (Marker.ofNat n ++ more')) ∨
    (∃ p m, r = name ++ p ∧ Marker.ofNat n = p ++ m ∧ m ≠ [] ∧ u = m ++ more) ∨
    ∃ m, name = r ++ m ∧ m ≠ [] ∧ u = m ++ (Marker.ofNat n ++ more) := by
  rcases List.append_eq_append_iff.mp h with ⟨m, rfl, hm⟩ | ⟨p, rfl, hp⟩
  · by_cases hne : m = []
    · subst hne
      exact .inr (.inl ⟨[], Marker.ofNat n, by simp, by simp, by simp [Marker.ofNat_eq], hm⟩)
    · exact .inr (.inr ⟨m, rfl, hne, hm⟩)
  · rcases List.append_eq_append_iff.mp hp.symm with ⟨m, hm, rfl⟩ | ⟨more', rfl, -⟩
    · by_cases hne : m = []
      · subst hne
        exact .inl ⟨[], by simpa using hm.symm⟩
      · exact .inr (.inl ⟨p, m, rfl, hm, hne, rfl⟩)
    · exact .inl ⟨more', rfl⟩

/-- A marker behind a word, when its fragment starts with a sign. -/
theorem Word.append_marker (h : V.Word F r) (hF : F <+: F') (hn : F'[n]? = some latex)
    (hne : latex ≠ []) (hstops : latex.Stops) (more : Text) :
    V.Word F' (r ++ (Marker.ofNat n ++ more)) := by
  cases h.mono hF with
  | whole hname => exact .filled hn (.inl ⟨hname, hne, hstops⟩)
  | filled hm hfits =>
    rw [List.append_assoc, List.append_assoc]
    exact .filled hm hfits

/-- A marker behind a part of a word that a marker in the word is read from. -/
theorem Word.of_filled {name latex' more' : Text} {m : Nat} (hm : F[m]? = some latex')
    (hfits : V.Fits name latex') (hF : F <+: F') (hr : r = name ++ (Marker.ofNat m ++ more'))
    (u : Text) : V.Word F' (r ++ u) := by
  subst hr
  rw [List.append_assoc, List.append_assoc]
  exact (Word.filled hm hfits).mono hF

/-- An exponent may take the last character of a word with it. -/
theorem Word.exponent {base : Char} {rest : Text} (h : V.lines.Word F (r ++ [base]))
    (hbase : isLetterOrNumber base = true) (hF : F <+: F')
    (hn : F'[n]? = some (base :: '^' :: rest)) (more : Text) :
    V.lines.Word F' (r ++ (Marker.ofNat n ++ more)) := by
  generalize hword : r ++ [base] = word at h
  cases h with
  | whole hname =>
    rw [← hword] at hname
    exact .filled hn (.inr ⟨base, hname, .inr ⟨rest, rfl⟩⟩)
  | @filled _ _ _ k hm hfits =>
    rcases filled_cases hword with ⟨more', hr⟩ | ⟨p, m', -, hp, hne, hu⟩ | ⟨m', -, hne, hu⟩
    · exact .of_filled hm hfits hF hr _
    · -- The last character of a marker carries no exponent.
      obtain rfl : m' = [base] := by
        obtain ⟨c, m', rfl⟩ := List.exists_cons_of_ne_nil hne
        rw [List.cons_append] at hu
        obtain ⟨rfl, hnil⟩ := List.cons.inj hu
        rw [(List.append_eq_nil_iff.mp hnil.symm).1]
      have hmarker : Marker.ofNat k = (Marker.lead ++ Text.ofNat k ++ ['_']) ++ ['_'] := by
        simp [Marker.ofNat, Marker.ofDigits, Marker.tail]
      obtain rfl : base = '_' := by
        simpa using (List.append_inj' (hp.symm.trans hmarker) rfl).2
      exact absurd hbase (by decide +kernel)
    · obtain ⟨c, m', rfl⟩ := List.exists_cons_of_ne_nil hne
      simp [Marker.ofNat_eq] at hu

/-- A subscript takes no character of a command with it. -/
theorem Word.subscript {base : Char} (h : V.Word F (r ++ base :: '_' :: u))
    (hbase : base.isAlpha = true) (hu : u.head? ≠ some '_') (hF : F <+: F') (more : Text) :
    V.Word F' (r ++ more) := by
  generalize hword : r ++ base :: '_' :: u = word at h
  cases h with
  | whole hname =>
    have halpha := (V.alpha _ (List.mem_append_left _ hname)).2 '_' (by simp [← hword])
    cases halpha
  | filled hm hfits =>
    rcases filled_cases hword with ⟨more', hr⟩ | ⟨p, m', -, hp, hne, hcut⟩ | ⟨m', hname, hne, hcut⟩
    · exact .of_filled hm hfits hF hr _
    · -- No letter of a marker stands in front of an underscore.
      by_cases hp' : p = []
      · rw [hp', List.nil_append] at hp
        rw [← hp, Marker.ofNat_eq] at hcut
        obtain ⟨rfl, -⟩ := List.cons.inj hcut
        cases hbase
      · rcases Marked.ofNat_split hp.symm hp' hne with ⟨-, t, rfl⟩ | ⟨-, t, rfl⟩ |
          ⟨-, d, t, rfl, hd⟩ | ⟨c, d, t, rfl, hc, -⟩ | ⟨t, -, -, -, rfl⟩ | ⟨t, -, -, -, rfl⟩
        · obtain ⟨rfl, -⟩ := List.cons.inj hcut
          cases hbase
        · simp at hcut
        · obtain ⟨-, hrest⟩ := List.cons.inj hcut
          obtain ⟨rfl, -⟩ := List.cons.inj hrest
          cases hd
        · obtain ⟨rfl, -⟩ := List.cons.inj hcut
          rw [isAlpha_of_isDigit hc] at hbase
          cases hbase
        · obtain ⟨rfl, -⟩ := List.cons.inj hcut
          cases hbase
        · obtain ⟨rfl, -⟩ := List.cons.inj hcut
          cases hbase
    · obtain ⟨c, m', rfl⟩ := List.exists_cons_of_ne_nil hne
      rw [List.cons_append] at hcut
      obtain ⟨rfl, hrest⟩ := List.cons.inj hcut
      cases m' with
      | nil =>
        rw [List.nil_append, Marker.ofNat_eq] at hrest
        obtain ⟨-, hbehind⟩ := List.cons.inj hrest
        exact absurd (by rw [hbehind]; rfl) hu
      | cons d m' =>
        rw [List.cons_append] at hrest
        obtain ⟨rfl, -⟩ := List.cons.inj hrest
        have halpha := hfits.alpha '_' (by simp [hname])
        cases halpha

/-- An exponent on a marker leaves the words in front of it as they are. -/
theorem Word.power (h : V.Word F (r ++ '_' :: '_' :: 'P' :: 'H' :: u)) {rest : Text}
    (hF : F <+: F') (hn : F'[n]? = some ('{' :: rest)) (more : Text) :
    V.Word F' (r ++ (Marker.ofNat n ++ more)) := by
  generalize hword : r ++ '_' :: '_' :: 'P' :: 'H' :: u = word at h
  cases h with
  | whole hname =>
    have halpha := (V.alpha _ (List.mem_append_left _ hname)).2 '_' (by simp [← hword])
    cases halpha
  | @filled name _ latex m hm hfits =>
    rcases filled_cases hword with ⟨more', hr⟩ | ⟨p, m', hr, hp, hne, hcut⟩ | ⟨m', hname, hne, hcut⟩
    · exact .of_filled hm hfits hF hr _
    · by_cases hp' : p = []
      · -- The marker itself carries the exponent.
        rw [hr, hp', List.append_nil]
        refine .filled hn (hfits.imp (fun h => ⟨h.1, by simp, Text.stops_cons.mpr (by decide)⟩) ?_)
        rintro ⟨c, hhost, -⟩
        exact ⟨c, hhost, .inl rfl⟩
      · -- Two markers share underscores: the first one is still read.
        have hmarker : ∃ t, m' ++ t = Marker.ofNat n ++ more := by
          rw [Marker.ofNat_eq n]
          rcases Marked.ofNat_split hp.symm hp' hne with ⟨-, t, rfl⟩ | ⟨-, t, rfl⟩ |
            ⟨-, d, t, rfl, hd⟩ | ⟨c, d, t, rfl, hc, -⟩ | ⟨t, -, -, -, rfl⟩ | ⟨t, -, -, -, rfl⟩
          · simp at hcut
          · simp at hcut
          · simp at hcut
          · obtain ⟨rfl, -⟩ := List.cons.inj hcut
            cases hc
          · exact ⟨_, rfl⟩
          · exact ⟨_, rfl⟩
        obtain ⟨t, ht⟩ := hmarker
        rw [hr, ← ht, List.append_assoc, ← List.append_assoc p, ← hp]
        exact (Word.filled hm hfits).mono hF
    · obtain ⟨c, m', rfl⟩ := List.exists_cons_of_ne_nil hne
      obtain ⟨rfl, -⟩ := List.cons.inj hcut
      have halpha := hfits.alpha '_' (by simp [hname])
      cases halpha

end Vocabulary

/-- **A word that goes on to a construct is read with the marker of the construct, too.** -/
theorem StartsBehind.word {V : Vocabulary} {source latex : Text} (h : StartsBehind source latex)
    {F F' : Fragments} {n : Nat} (hF : F <+: F') (hn : F'[n]? = some latex) {r after : Text}
    (hword : V.lines.Word F (r ++ Text.nameRun (source ++ after))) (more : Text) :
    V.lines.Word F' (r ++ (Marker.ofNat n ++ more)) := by
  cases h with
  | sign hne hstops hne' hstops' =>
    rw [Text.nameRun_of_stops, List.append_nil] at hword
    · exact hword.append_marker hF hn hne' hstops' _
    · rwa [Text.Stops, List.head?_append_of_ne_nil _ hne]
  | @exponent base rest _ hbase =>
    by_cases hname : isNameChar base = true
    · have hrun : Text.nameRun (base :: '^' :: rest ++ after) = [base] := by
        simp [Text.nameRun, hname, (by decide : isNameChar '^' = false)]
      rw [hrun] at hword
      exact hword.exponent hbase hF hn _
    · -- A letter outside ASCII belongs to no name.
      have hstops : ∀ text, Text.Stops (base :: text) := fun text =>
        Text.stops_cons.mpr (by simpa using hname)
      rw [List.cons_append, Text.nameRun_of_stops (hstops _), List.append_nil] at hword
      exact hword.append_marker hF hn (by simp) (hstops _) _
  | @subscript base d rest _ hbase hd =>
    have hrun : Text.nameRun (base :: '_' :: d :: rest ++ after) =
        base :: '_' :: Text.nameRun (d :: (rest ++ after)) := by
      simp [Text.nameRun, isNameChar_of_isAlpha hbase, (by decide : isNameChar '_' = true)]
    rw [hrun] at hword
    refine hword.subscript hbase ?_ hF _
    rw [Text.nameRun, List.takeWhile_cons]
    split
    · simpa using hd
    · simp
  | @power rest _ =>
    have hrun : Text.nameRun ('_' :: '_' :: 'P' :: 'H' :: rest ++ after) =
        '_' :: '_' :: 'P' :: 'H' :: Text.nameRun (rest ++ after) :=
      Text.nameRun_append_of_names (a := ['_', '_', 'P', 'H']) (by decide)
    rw [hrun] at hword
    exact hword.power hF hn _

/-- **The commands of a line are read in the same way once a construct is put aside.** -/
theorem Written.reads {V : Vocabulary} {treat : Treatment} {before after source latex : Text}
    {s s' : Extraction} (h : Written treat before after source s latex s') {x r : Text}
    (hbefore : before = x ++ '\\' :: r) {F F' : Fragments} {n : Nat} (hF : F <+: F')
    (hn : F'[n]? = some latex) (hread : V.lines.Reads F (r ++ (source ++ after))) :
    V.lines.Reads F' (r ++ (Marker.ofNat n ++ after)) := by
  refine hread.exchange_word hF (fun hr => ?_) fun hnames hword => ?_
  · obtain ⟨d, rest, rfl, hd⟩ := h.exists_head
    simpa using hd (by simp [hbefore, hr])
  · have hbar : ∃ c ∈ before.getLast?, Call.barsName c = true := by
      rcases List.eq_nil_or_concat r with rfl | ⟨r, c, rfl⟩
      · exact ⟨'\\', by simp [hbefore], rfl⟩
      · rw [List.concat_eq_append, ← List.cons_append, ← List.append_assoc] at hbefore
        exact ⟨c, by rw [hbefore, List.getLast?_concat]; rfl,
          by simp [Call.barsName, hnames c (by simp)]⟩
    rw [Text.nameRun_append_of_names fun c hc => Marker.nameChar_of_mem_ofNat hc]
    exact (h.startsBehind hbar).word hF hn hword _

end MathNotes
