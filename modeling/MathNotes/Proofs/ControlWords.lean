import MathNotes.Proofs.CommandFragments
import MathNotes.Proofs.Totality

/-!
# Control words

The letters behind a backslash are a control word.  LaTeX that is spelt with the vocabulary of a
line has control words of that vocabulary only, and they stay when fragments are put back
(`Fragments.spelt_fill`) and when names and operators are replaced (`Symbol.spelt_symbolPass`).

Of a run of name characters only the letters matter here: `Vocabulary.Admits` depends on the
character behind the backslash and on the letters that follow.  While text is replaced, the letters
behind a backslash may only change together with what follows them, so `Respelt` relates a text to
its replacement with the character in front of them.
-/

namespace MathNotes

open Vocabulary (of)

/-! ## Letters behind a backslash -/

/-- No letter stands at the front of the text. -/
def Text.Halts (text : Text) : Prop := ∀ c ∈ text.head?, c.isAlpha = false

namespace Text

theorem halts_nil : Halts [] := by simp [Halts]

theorem halts_cons {c : Char} {text : Text} : Halts (c :: text) ↔ c.isAlpha = false := by
  simp [Halts]

theorem Stops.halts {text : Text} (h : text.Stops) : text.Halts := by
  intro c hc
  by_contra halpha
  have hname := isNameChar_of_isAlpha (by simpa using halpha)
  rw [h c hc] at hname
  cases hname

theorem Halts.append {a b : Text} (ha : a.Halts) (hb : b.Halts) : Halts (a ++ b) := by
  cases a with
  | nil => exact hb
  | cons c a => exact ha

theorem letters_append {a b : Text} (ha : ∀ c ∈ a, c.isAlpha = true) (hb : b.Halts) :
    (a ++ b).takeWhile Char.isAlpha = a :=
  takeWhile_append_stop ha hb

end Text

namespace Vocabulary

variable {V : Vocabulary} {F : Fragments}

/-- What may follow a backslash in finished LaTeX: a sign, or letters that are a command or start
with a command that is left open. -/
def Admits (V : Vocabulary) (rest : Text) : Prop :=
  (∃ c ∈ rest.head?, c ∈ V.signs) ∨ rest.takeWhile Char.isAlpha ∈ V.commands ∨
    ∃ name ∈ V.loose, name <+: rest.takeWhile Char.isAlpha

theorem alpha_of_loose {name : Text} (h : name ∈ V.loose) :
    name ≠ [] ∧ ∀ c ∈ name, c.isAlpha = true :=
  V.alpha name (List.mem_append_right _ (List.mem_append_right _ h))

theorem alpha_of_command {name : Text} (h : name ∈ V.commands) :
    name ≠ [] ∧ ∀ c ∈ name, c.isAlpha = true :=
  V.alpha name (List.mem_append_left _ h)

/-- A command that an exponent took the last letter of is in the vocabulary as well. -/
theorem mem_commands_of_cut {source name : Text} {c : Char} (h : name ++ [c] ∈ (of source).hosts) :
    name ∈ (of source).commands := by
  by_cases hholds : source.HoldsCommands
  · have hhosts : (of source).hosts = hostCommands := if_pos hholds
    have hcommands : (of source).commands =
        listedCommands ++ ("textbackslash".toList :: hostCommands.map List.dropLast) :=
      congrArg (listedCommands ++ ·) (if_pos hholds)
    rw [hhosts] at h
    rw [hcommands]
    refine List.mem_append_right _ (List.mem_cons_of_mem _ (List.mem_map.mpr ⟨_, h, ?_⟩))
    exact List.dropLast_concat
  · have hhosts : (of source).hosts = [] := if_neg hholds
    rw [hhosts] at h
    cases h

theorem Reads.admits {source rest : Text} (h : (of source).Reads F rest) :
    (of source).Admits rest := by
  rcases h with hsign | ⟨name, hname, more, rfl⟩ | hword
  · exact .inl hsign
  · refine .inr (.inr ⟨name, hname, ?_⟩)
    rw [List.takeWhile_append_of_pos (alpha_of_loose hname).2]
    exact List.prefix_append _ _
  · refine .inr (.inl ?_)
    have hrest : rest = rest.nameRun ++ rest.dropWhile isNameChar :=
      List.takeWhile_append_dropWhile.symm
    have hhalts : Text.Halts (rest.dropWhile isNameChar) :=
      Text.Stops.halts fun c hc => head?_dropWhile_stops c hc
    rw [hrest]
    generalize rest.nameRun = word at hword
    cases hword with
    | whole hname => rwa [Text.letters_append (alpha_of_command hname).2 hhalts]
    | @filled name more _ n _ hfits =>
      have hmarker : Text.Halts (Marker.ofNat n ++ more ++ rest.dropWhile isNameChar) := by
        rw [Marker.ofNat_eq]
        exact Text.halts_cons.mpr (by decide)
      rw [List.append_assoc, Text.letters_append hfits.alpha hmarker]
      rcases hfits with ⟨hname, -⟩ | ⟨c, hhost, -⟩
      · exact hname
      · exact mem_commands_of_cut hhost

/-- Only the first character and the letters matter. -/
theorem Admits.congr {b b' : Text} (h : V.Admits b) (hhead : b.head? = b'.head?)
    (hletters : b.takeWhile Char.isAlpha = b'.takeWhile Char.isAlpha) : V.Admits b' := by
  rwa [Admits, hhead, hletters] at h

/-- What is no letter behind a backslash is a sign. -/
theorem Admits.exists_sign {b : Text} (h : V.Admits b) (hhalts : b.Halts) :
    ∃ c ∈ b.head?, c ∈ V.signs := by
  have hletters : b.takeWhile Char.isAlpha = [] := Text.letters_append (a := []) (by simp) hhalts
  rcases h with hsign | hname | ⟨name, hname, hlead⟩
  · exact hsign
  · rw [hletters] at hname
    exact absurd rfl (alpha_of_command hname).1
  · rw [hletters] at hlead
    exact absurd (List.prefix_nil.mp hlead) (alpha_of_loose hname).1

end Vocabulary

/-! ## Putting fragments back -/

namespace Marker

variable {f : Text → Text}

theorem piecesFrom_pattern (previous : Option Char) (text : Text) :
    pattern.piecesFrom previous 0 text = pattern.pieces text := by
  cases text with
  | nil => rfl
  | cons c text => rfl

theorem replace_cons {c : Char} {text : Text} (h : pattern none (c :: text) = none) :
    pattern.replace f (c :: text) = c :: pattern.replace f text := by
  rw [Pattern.replace, Pattern.pieces, Pattern.piecesFrom, h, List.flatMap_cons,
    piecesFrom_pattern]
  rfl

theorem replace_hit {matched digits after : Text} (h : pattern.HitsAt none matched digits after) :
    pattern.replace f (matched ++ after) = f digits ++ pattern.replace f after := by
  rw [Pattern.replace, Pattern.pieces, Pattern.piecesFrom_of_hitsAt h, List.flatMap_cons,
    piecesFrom_pattern]
  rfl

/-- A character that starts no marker stays. -/
theorem replace_cons_of_ne {c : Char} (hc : c ≠ '_') (text : Text) :
    pattern.replace f (c :: text) = c :: pattern.replace f text := by
  refine replace_cons (pattern_eq_none (read?_ne_lead fun rest h => ?_))
  exact hc (List.cons.inj h).1

/-- What stands in front of the first underscore stays. -/
theorem replace_append {a : Text} (ha : '_' ∉ a) (b : Text) :
    pattern.replace f (a ++ b) = a ++ pattern.replace f b := by
  induction a with
  | nil => rfl
  | cons c a ih =>
    obtain ⟨hc, ha⟩ := not_or.mp (mt List.mem_cons.mpr ha)
    rw [List.cons_append, replace_cons_of_ne (Ne.symm hc), ih ha, List.cons_append]

/-- A sign at the front stays there. -/
theorem stops_replace {text : Text} (h : text.Stops) : (pattern.replace f text).Stops := by
  cases text with
  | nil => exact Text.stops_nil
  | cons c text =>
    have hc := h c rfl
    rw [replace_cons_of_ne (by rintro rfl; cases hc)]
    exact Text.stops_cons.mpr hc

end Marker

namespace Fragments

variable {source : Text} {F : Fragments}

/-- A name without an underscore. -/
theorem notMem_of_alpha {name : Text} (h : ∀ c ∈ name, c.isAlpha = true) : '_' ∉ name :=
  fun hmem => by cases h _ hmem

/-- A word behind a backslash, once fragments are put back. -/
theorem reads_fill_word {word behind : Text} (h : (of source).Word F word)
    (hstops : behind.Stops) :
    (of source).Reads F (Marker.pattern.replace F.fill (word ++ behind)) := by
  cases h with
  | whole hname =>
    rw [Marker.replace_append (notMem_of_alpha (Vocabulary.alpha_of_command hname).2)]
    exact Vocabulary.reads_command hname (Marker.stops_replace hstops)
  | @filled name more latex n hn hfits =>
    have hfill : F.fill (Text.ofNat n) = latex := by
      rw [fill, decimalNumber_ofNat, hn, Option.getD_some]
    rw [List.append_assoc, List.append_assoc,
      Marker.replace_append (notMem_of_alpha hfits.alpha),
      Marker.replace_hit (Marker.hitsAt_ofNat none n _), hfill]
    rcases hfits with ⟨hname, hne, hstops⟩ | ⟨c, hhost, hhead | ⟨exponent, rfl⟩⟩
    · refine Vocabulary.reads_command hname ?_
      rwa [Text.Stops, List.head?_append_of_ne_nil _ hne]
    · refine Vocabulary.reads_command (Vocabulary.mem_commands_of_cut hhost) ?_
      obtain ⟨body, rfl⟩ := List.head?_eq_some_iff.mp hhead
      exact Text.stops_cons.mpr (by decide)
    · -- The fragment brings back the letter that the exponent took.
      have hjoined : ∀ text, name ++ (c :: '^' :: exponent ++ text) =
          (name ++ [c]) ++ '^' :: (exponent ++ text) := by simp
      rw [hjoined]
      exact Vocabulary.reads_command ((of source).hosts_subset hhost)
        (Text.stops_cons.mpr (by decide))

/-- What follows a backslash, once fragments are put back. -/
theorem reads_fill {rest : Text} (h : (of source).Reads F rest) :
    (of source).Reads F (Marker.pattern.replace F.fill rest) := by
  rcases h with ⟨c, hc, hsign⟩ | ⟨name, hname, more, rfl⟩ | hword
  · obtain ⟨rest, rfl⟩ := List.head?_eq_some_iff.mp hc
    have hne : c ≠ '_' := by
      rintro rfl
      cases (of source).sign _ hsign
    rw [Marker.replace_cons_of_ne hne]
    exact .inl ⟨c, rfl, hsign⟩
  · rw [Marker.replace_append (notMem_of_alpha (Vocabulary.alpha_of_loose hname).2)]
    exact .inr (.inl ⟨name, hname, List.prefix_append _ _⟩)
  · rw [show rest = rest.nameRun ++ rest.dropWhile isNameChar from
      List.takeWhile_append_dropWhile.symm]
    exact reads_fill_word hword fun c hc => head?_dropWhile_stops c hc

/-- **Putting fragments back keeps the spelling of commands.** -/
theorem spelt_fill (hF : ∀ latex ∈ F, ∀ out : Text, latex.Spelt ((of source).Reads F) out)
    {line : Text} (hline : line.Spelt ((of source).Reads F) []) :
    (Marker.pattern.replace F.fill line).Spelt ((of source).Reads F) [] := by
  induction hn : line.length using Nat.strongRecOn generalizing line with
  | ind n ih =>
    cases line with
    | nil => exact Text.spelt_nil
    | cons c line =>
      cases hhit : Marker.pattern none (c :: line) with
      | none =>
        rw [Marker.replace_cons hhit]
        have hshorter : line.length < n := by rw [← hn]; simp
        by_cases hc : c = '\\'
        · subst hc
          obtain ⟨hread, hrest⟩ := Text.spelt_backslash.mp hline
          rw [List.append_nil] at hread
          refine Text.spelt_backslash.mpr ⟨?_, ih _ hshorter hrest rfl⟩
          rw [List.append_nil]
          exact reads_fill hread
        · rw [Text.spelt_cons hc] at hline ⊢
          exact ih _ hshorter hline rfl
      | some hit =>
        have hat := Marker.recognises_pattern.proper.hitsAt hhit
        obtain ⟨hmatched, hdigits⟩ := Marker.recognises_pattern.spec hat
        have hcut := (List.take_append_drop hit.width (c :: line)).symm
        rw [hcut] at hline ⊢
        rw [Marker.replace_hit hat]
        have hlength := congrArg List.length hcut
        have hpos := List.length_pos_iff.mpr hat.2
        rw [List.length_append, hn] at hlength
        refine Text.spelt_append.mpr ⟨?_, ih _ (by omega) (Text.spelt_append.mp hline).2 rfl⟩
        rw [fill]
        cases hget : F[decimalNumber hit.value]? with
        | none => exact Text.spelt_of_notMem (Marker.notMem_ofDigits hdigits)
        | some latex => exact hF latex (List.mem_of_getElem? hget) _

end Fragments

/-! ## Replacing names and operators -/

/-- The second text may take the place of the first one behind `previous`: control words stay in
the vocabulary, and no letter comes to the front. -/
structure Respelt (V : Vocabulary) (previous : Option Char) (a b : Text) : Prop where
  /-- The texts may follow a backslash, or letters behind one. -/
  behind : (∃ c ∈ previous, c.isAlpha = true ∨ c = '\\') →
    ∀ r : Text, (∀ c ∈ r, c.isAlpha = true) → V.Admits (r ++ a) → V.Admits (r ++ b)
  spelt : a.Spelt V.Admits [] → b.Spelt V.Admits []
  halts : a.Halts → b.Halts

namespace Respelt

variable {V : Vocabulary} {previous : Option Char} {a b c : Text}

theorem refl (previous : Option Char) (a : Text) : Respelt V previous a a :=
  ⟨fun _ _ _ => id, id, id⟩

theorem trans (h : Respelt V previous a b) (h' : Respelt V previous b c) :
    Respelt V previous a c :=
  ⟨fun hp r hr => h'.behind hp r hr ∘ h.behind hp r hr, h'.spelt ∘ h.spelt, h'.halts ∘ h.halts⟩

/-- What may be replaced behind a backslash may be replaced anywhere. -/
theorem anywhere (h : Respelt V (some '\\') a b) (previous : Option Char) :
    Respelt V previous a b :=
  ⟨fun _ => h.behind ⟨'\\', rfl, .inr rfl⟩, h.spelt, h.halts⟩

/-- A character in front of the texts. -/
theorem cons {d : Char} (h : Respelt V (some d) a b) (previous : Option Char) :
    Respelt V previous (d :: a) (d :: b) where
  behind _ r hr hread := by
    by_cases hd : d.isAlpha = true
    · have hjoined : ∀ c ∈ r ++ [d], c.isAlpha = true := by
        simp only [List.mem_append, List.mem_singleton]
        rintro c (hc | rfl)
        · exact hr c hc
        · exact hd
      have hread' := h.behind ⟨d, rfl, .inl hd⟩ (r ++ [d]) hjoined (by simpa using hread)
      simpa using hread'
    · have hhalts : ∀ text, Text.Halts (d :: text) := fun text =>
        Text.halts_cons.mpr (by simpa using hd)
      refine hread.congr ?_ ?_
      · cases r with
        | nil => rfl
        | cons e r => rfl
      · rw [Text.letters_append hr (hhalts _), Text.letters_append hr (hhalts _)]
  spelt hspelt := by
    by_cases hd : d = '\\'
    · subst hd
      obtain ⟨hread, hrest⟩ := Text.spelt_backslash.mp hspelt
      rw [List.append_nil] at hread
      refine Text.spelt_backslash.mpr ⟨?_, h.spelt hrest⟩
      rw [List.append_nil]
      exact h.behind ⟨'\\', rfl, .inr rfl⟩ [] (by simp) hread
    · rw [Text.spelt_cons hd] at hspelt ⊢
      exact h.spelt hspelt
  halts hhalts := Text.halts_cons.mpr (Text.halts_cons.mp hhalts)

/-- A text in front of the texts. -/
theorem append {front : Text} (h : Respelt V (front.getLast?.or previous) a b) :
    Respelt V previous (front ++ a) (front ++ b) := by
  induction front generalizing previous with
  | nil => simpa using h
  | cons d front ih =>
    rw [getLast?_cons_or] at h
    exact (ih h).cons previous

end Respelt

/-- Replacing hits, if every hit may be replaced where it stands. -/
theorem Pattern.Reading.respelt {V : Vocabulary} {α : Type} {pattern : Pattern α}
    {replacement : α → Text} {tail tail' : Text} (htail : Respelt V (some '\\') tail tail')
    (hhit : ∀ ⦃previous matched value after⦄, pattern.HitsAt previous matched value after →
      ∀ {out : Text}, Respelt V matched.getLast? (after ++ tail) out →
        Respelt V previous (matched ++ (after ++ tail)) (replacement value ++ out))
    {previous : Option Char} {text : Text} {pieces : List (Piece α)}
    (hreading : pattern.Reading previous text pieces) :
    Respelt V previous (text ++ tail) (pieces.flatMap (Piece.write replacement) ++ tail') := by
  induction hreading with
  | rest _ =>
    rw [Piece.flatMap_write_chars]
    exact (htail.anywhere _).append
  | hit hat _ ih =>
    rw [List.flatMap_append, Piece.flatMap_write_chars, List.flatMap_cons, List.append_assoc,
      List.append_assoc, List.append_assoc, List.append_assoc]
    exact (hhit hat ih).append

/-- A command in front of something that is no letter. -/
theorem Vocabulary.spelt_command {V : Vocabulary} {name out : Text} (h : name ∈ V.commands)
    (hout : out.Halts) : Text.Spelt V.Admits ('\\' :: name) out := by
  obtain ⟨-, halpha⟩ := alpha_of_command h
  refine Text.spelt_backslash.mpr ⟨.inr (.inl ?_), Text.spelt_of_notMem fun hmem => ?_⟩
  · rwa [Text.letters_append halpha hout]
  · cases halpha _ hmem

theorem isLetter_of_isAlpha {c : Char} (h : c.isAlpha = true) : isLetter c = true :=
  ascii_forall (P := fun c => c.isAlpha = true → isLetter c = true) (by decide +kernel)
    (toNat_lt_of_isAlphanum (by simp [Char.isAlphanum, h])) h

namespace Symbol

variable {source : Text}

/-- The names and operators stand for commands. -/
theorem names_commands : ∀ p ∈ names ++ operators,
    p.2 = '\\' :: p.2.tail ∧ p.2.tail ∈ listedCommands := by decide +kernel

theorem respelt_names {text tail : Text} (htail : tail.Halts) :
    Respelt (of source) none (text ++ tail) (namePattern.replace id text ++ tail) := by
  have hwords : namePattern.Recognises _ := Pattern.recognises_wordPattern names_ne_nil
  refine (Pattern.reading_pieces hwords.proper text).respelt (.refl _ _) ?_
  intro previous matched value after hat out hrest
  obtain ⟨hmem, hbars, hfollows⟩ := hwords.spec hat
  obtain ⟨hvalue, hname⟩ := names_commands _ (List.mem_append_left _ hmem)
  have hhalts : Text.Halts (after ++ tail) := by
    refine Text.Halts.append (fun c hc => ?_) htail
    have := hfollows c hc
    rw [Char.isAlphanum, Bool.or_eq_false_iff] at this
    exact this.1
  rw [id, show value = '\\' :: value.tail from hvalue]
  refine ⟨?_, fun hspelt => ?_, fun _ => Text.halts_cons.mpr (by decide)⟩
  · -- A name is not replaced behind a backslash or a letter.
    rintro ⟨c, hc, halpha | rfl⟩
    · have := hbars c hc
      simp [Char.isAlphanum, halpha] at this
    · exact absurd (hbars _ hc) (by decide)
  · refine Text.spelt_append.mpr ⟨?_, hrest.spelt (Text.spelt_append.mp hspelt).2⟩
    rw [List.append_nil]
    exact Vocabulary.spelt_command (Vocabulary.mem_commands_of_listed hname) (hrest.halts hhalts)

theorem respelt_operators {text tail tail' : Text} (htail : tail.Halts)
    (hrespelt : Respelt (of source) (some '\\') tail tail') :
    Respelt (of source) none (text ++ tail) (operatorPattern.replace id text ++ tail') := by
  have hsigns : ∀ p ∈ operators, ∃ c ∈ p.1.head?, c.isAlpha = false ∧
      c ∉ "\x7b\x7d%#&$ ;".toList := by decide
  refine (Pattern.reading_pieces recognises_operatorPattern.proper text).respelt hrespelt ?_
  intro previous matched value after hat out hrest
  obtain ⟨command, hmem, hcommand⟩ := recognises_operatorPattern.spec hat
  obtain ⟨hslash, hname⟩ := names_commands _ (List.mem_append_right _ hmem)
  obtain ⟨c, hc, hsign, hno⟩ := hsigns _ hmem
  rw [show command = '\\' :: command.tail from hslash] at hcommand
  have hmatched : ∀ text, Text.Halts (matched ++ text) := by
    obtain ⟨rest, rfl⟩ := List.head?_eq_some_iff.mp hc
    exact fun _ => Text.halts_cons.mpr hsign
  have hvalue : ∀ text, Text.Halts (value ++ text) := by
    intro text
    rcases hcommand with ⟨rfl, -⟩ | rfl
    · exact Text.halts_cons.mpr (by decide)
    · exact Text.halts_cons.mpr (by decide)
  refine ⟨fun _ r hr hread => ?_, fun hspelt => ?_, fun _ => hvalue _⟩
  · cases r with
    | nil =>
      -- No operator stands right behind a backslash.
      obtain ⟨d, hd, hin⟩ := hread.exists_sign (hmatched _)
      rw [List.nil_append, List.head?_append_of_ne_nil _ hat.2] at hd
      obtain rfl : c = d := Option.mem_unique hc hd
      exact absurd hin hno
    | cons d r =>
      refine hread.congr rfl ?_
      rw [Text.letters_append hr (hmatched _), id, Text.letters_append hr (hvalue _)]
  · refine Text.spelt_append.mpr ⟨?_, hrest.spelt (Text.spelt_append.mp hspelt).2⟩
    rw [List.append_nil, id]
    have hlisted : command.tail ∈ (of source).commands := Vocabulary.mem_commands_of_listed hname
    rcases hcommand with ⟨rfl, hletter⟩ | rfl
    · refine Vocabulary.spelt_command hlisted
        (hrest.halts (Text.Halts.append (fun e he => ?_) htail))
      by_contra halpha
      have hl := isLetter_of_isAlpha (by simpa using halpha)
      rw [hletter e he] at hl
      cases hl
    · exact Text.spelt_append.mpr
        ⟨Vocabulary.spelt_command hlisted (Text.halts_cons.mpr (by decide)),
          Text.spelt_of_notMem (by decide)⟩

/-- A text outside prose, in front of something that is no letter. -/
theorem respelt_substituteNames (text : Text) {tail tail' : Text} (htail : tail.Halts)
    (hrespelt : Respelt (of source) (some '\\') tail tail') :
    Respelt (of source) none (text ++ tail) (substituteNames text ++ tail') :=
  (respelt_names htail).trans (respelt_operators htail hrespelt)

/-- Spans of prose with the texts behind them. -/
theorem respelt_spans {spans : List (Text × Text)}
    (h : ∀ p ∈ spans, p.1.head? = some '\\' ∧ p.1.getLast? = some '}') :
    Text.Halts (spans.flatMap fun p => id p.1 ++ p.2) ∧
      Respelt (of source) (some '\\') (spans.flatMap fun p => id p.1 ++ p.2)
        (spans.flatMap fun p => p.1 ++ substituteNames p.2) := by
  induction spans with
  | nil => exact ⟨Text.halts_nil, .refl _ _⟩
  | cons span spans ih =>
    obtain ⟨⟨hhead, hlast⟩, hspans⟩ := List.forall_mem_cons.mp h
    obtain ⟨hhalts, hrespelt⟩ := ih hspans
    rw [List.flatMap_cons, List.flatMap_cons, List.append_assoc, List.append_assoc, id]
    refine ⟨?_, Respelt.append ?_⟩
    · obtain ⟨rest, hspan⟩ := List.head?_eq_some_iff.mp hhead
      rw [hspan]
      exact Text.halts_cons.mpr (by decide)
    · -- The text behind a span stands behind a brace.
      obtain ⟨-, hspelt, hfront⟩ := respelt_substituteNames span.2 hhalts hrespelt
      rw [hlast]
      refine ⟨?_, hspelt, hfront⟩
      rintro ⟨c, hc, halpha | rfl⟩
      · obtain rfl : '}' = c := by simpa using hc
        cases halpha
      · cases hc

/-- The hits of a text, by the spans between which its gaps stand. -/
theorem spans_prose (latex : Text) : ∀ p ∈ (Piece.gaps (prosePattern.pieces latex)).2,
    p.1.head? = some '\\' ∧ p.1.getLast? = some '}' := by
  have hreading := Pattern.reading_pieces recognises_prosePattern.proper latex
  generalize prosePattern.pieces latex = pieces at hreading
  generalize (none : Option Char) = previous at hreading
  induction hreading with
  | @rest _ text _ =>
    rw [← List.append_nil (text.map Piece.char), Piece.gaps_chars]
    exact List.forall_mem_nil _
  | hit hat _ ih =>
    obtain ⟨rfl, content, hspan⟩ := recognises_prosePattern.spec hat
    rw [Piece.gaps_chars]
    refine List.forall_mem_cons.mpr ⟨?_, ih⟩
    rw [hspan]
    exact ⟨rfl, by rw [← List.append_assoc, List.getLast?_concat]⟩

/-- **Replacing names and operators in finished LaTeX keeps control words in the vocabulary.** -/
theorem spelt_symbolPass {latex : Text} (h : latex.Spelt (of source).Admits []) :
    (symbolPass latex).Spelt (of source).Admits [] := by
  obtain ⟨hhalts, hrespelt⟩ : _ ∧ Respelt (of source) _ _ _ := respelt_spans (spans_prose latex)
  have hpass := respelt_substituteNames (Piece.gaps (prosePattern.pieces latex)).1 hhalts hrespelt
  rw [gaps_prose] at hpass
  exact hpass.spelt h

end Symbol

/-! ## LaTeX -/

/-- A control word is the letters behind a backslash. -/
theorem Text.mem_controlWords_iff {text word : Text} : word ∈ text.controlWords ↔
    word ≠ [] ∧ ∃ a rest, text = a ++ '\\' :: rest ∧ word = rest.takeWhile Char.isAlpha := by
  induction text with
  | nil => simp [controlWords]
  | cons c text ih =>
    constructor
    · intro h
      have hrest : word ∈ controlWords text → word ≠ [] ∧ ∃ a rest,
          c :: text = a ++ '\\' :: rest ∧ word = rest.takeWhile Char.isAlpha := by
        intro hmem
        obtain ⟨hne, a, rest, rfl, hword⟩ := ih.mp hmem
        exact ⟨hne, c :: a, rest, rfl, hword⟩
      rw [controlWords] at h
      split at h
      · rename_i hc
        rcases List.mem_cons.mp h with rfl | h
        · exact ⟨hc.2, [], text, by simp [hc.1], rfl⟩
        · exact hrest h
      · exact hrest h
    · rintro ⟨hne, a, rest, htext, rfl⟩
      rw [controlWords]
      cases a with
      | nil =>
        obtain ⟨rfl, rfl⟩ := List.cons.inj htext
        rw [if_pos ⟨rfl, hne⟩]
        exact List.mem_cons_self
      | cons d a =>
        obtain ⟨rfl, rfl⟩ := List.cons.inj htext
        have hmem := ih.mpr ⟨hne, a, rest, rfl, rfl⟩
        split
        · exact List.mem_cons_of_mem _ hmem
        · exact hmem

/-- The control words of LaTeX that is spelt with the vocabulary of a line. -/
theorem Text.Spelt.controlWords {source latex : Text} (h : latex.Spelt (of source).Admits [])
    {word : Text} (hword : word ∈ latex.controlWords) : word ∈ listedCommands ∨
      (∃ p ∈ openEnded, p.1 <:+: source ∧ p.2 <+: word) ∨
      source.HoldsCommands ∧
        (word = "textbackslash".toList ∨ word ∈ hostCommands.map List.dropLast) := by
  obtain ⟨hne, a, rest, hlatex, rfl⟩ := mem_controlWords_iff.mp hword
  have hadmits := h a rest hlatex
  rw [List.append_nil] at hadmits
  rcases hadmits with ⟨c, hc, hsign⟩ | hmem | ⟨name, hname, hlead⟩
  · -- A sign is no letter.
    refine absurd (Text.letters_append (a := []) (by simp) fun d hd => ?_) hne
    obtain rfl : c = d := Option.mem_unique hc hd
    by_contra halpha
    have hname := isNameChar_of_isAlpha (by simpa using halpha)
    rw [(of source).sign c hsign] at hname
    cases hname
  · rcases List.mem_append.mp hmem with hlisted | hheld
    · exact .inl hlisted
    · split at hheld
      · rename_i hholds
        exact .inr (.inr ⟨hholds, List.mem_cons.mp hheld⟩)
      · cases hheld
  · obtain ⟨p, hp, rfl⟩ := List.mem_map.mp hname
    obtain ⟨hopen, hline⟩ := List.mem_filter.mp hp
    exact .inr (.inl ⟨p, hopen, by simpa using hline, hlead⟩)

namespace Expression

/-- **Every backslash of the LaTeX of a line is followed by what its vocabulary allows.** -/
theorem spelt_compile {settings : Settings} {line latex : Text} {unresolved : Bool}
    (h : '\\' ∉ line) (hcompile : compile settings line = .ok (latex, unresolved)) :
    latex.Spelt (of line).Admits [] := by
  obtain ⟨r, rfl, hr⟩ := exists_resolved hcompile
  obtain ⟨working, hworking, hsound, hline⟩ := exists_working (lawful_spelling line) settings
    (List.forall_mem_nil _) (Vocabulary.covers_constants h _)
  rw [hworking] at hr
  have hresolved := Fragments.resolveFrom_keeps
    (P := fun text => text.Spelt ((of line).Reads (segmented settings line).2.fragments) [])
    (fun _ => Fragments.spelt_fill hsound) (hline.spelt_segmentLine true) hr
  exact Symbol.spelt_symbolPass (hresolved.mono fun _ hread => hread.admits)

/-- **Control words do not run into letters.**  Every control word of the LaTeX of a line is a
listed command, but for three cases: it goes on behind a command that a construct of the line leaves
open; or the line holds commands before it is segmented, and prose shows the backslash of one, or an
exponent took its last letter.  Such a line has LaTeX if it is written without markers. -/
theorem compile_controlWords (settings : Settings) (line : Text) (h : '\\' ∉ line) :
    (∀ latex unresolved, compile settings line = .ok (latex, unresolved) →
      ∀ word ∈ latex.controlWords, word ∈ listedCommands ∨
        (∃ p ∈ openEnded, p.1 <:+: line ∧ p.2 <+: word) ∨
        line.HoldsCommands ∧
          (word = "textbackslash".toList ∨ word ∈ hostCommands.map List.dropLast)) ∧
    (¬ "PH".toList <:+: line → line.length ≤ 10 ^ Fault.digitLimit →
      ∃ latex unresolved, compile settings line = .ok (latex, unresolved)) := by
  refine ⟨fun latex unresolved hcompile word hword => ?_, fun hclear hsize => ?_⟩
  · exact (spelt_compile h hcompile).controlWords hword
  · exact exists_compile settings (Text.clear_iff_not_infix.mpr hclear) hsize

theorem compile_controlWords_floor :
    '\\' ∉ "floor(x)/2 + Math.pi^2 <= y".toList ∧
    ∃ latex unresolved, compile {} "floor(x)/2 + Math.pi^2 <= y".toList = .ok (latex, unresolved) ∧
      ∀ word ∈ latex.controlWords, word ∈ listedCommands ∨
        (∃ p ∈ openEnded, p.1 <:+: "floor(x)/2 + Math.pi^2 <= y".toList ∧ p.2 <+: word) ∨
        Text.HoldsCommands "floor(x)/2 + Math.pi^2 <= y".toList ∧
          (word = "textbackslash".toList ∨ word ∈ hostCommands.map List.dropLast) := by
  have hslash : '\\' ∉ "floor(x)/2 + Math.pi^2 <= y".toList := by decide
  obtain ⟨hwords, hexists⟩ := compile_controlWords {} _ hslash
  obtain ⟨latex, unresolved, hcompile⟩ := hexists (by decide +kernel) (by decide +kernel)
  exact ⟨hslash, latex, unresolved, hcompile, hwords latex unresolved hcompile⟩

-- Each of the three cases occurs.
example :
    ["floor(x)y", "the foo\x7b", "Math.pi^2^3"].map (fun line =>
      (compile {} line.toList).toOption.map fun result => Text.controlWords result.1) =
    [some ["lfloor".toList, "rfloory".toList], some ["text".toList, "textbackslash".toList],
      some ["p".toList]] := by
  decide +kernel

end Expression

end MathNotes
