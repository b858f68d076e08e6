import MathNotes.Proofs.Compilation

/-!
# Replacing names and operators once

The pass over finished LaTeX replaces names and operators by commands, and nothing that it writes is
replaced again (`Symbol.symbolPass_idempotent`).  Three things could go wrong, and none does:

* a command could bring a name or an operator about, by itself or with its neighbours: the letters
  behind a backslash are barred, and no sign of an operator is written;
* a replacement could uncover a name: runs of letters and digits are kept or end up behind a
  backslash, so no run that was left alone becomes a whole name;
* a replacement could open or close a span of prose: a command is never the start of one, and
  whether a brace closes one depends on the braces and on what is escaped, which a command behind a
  backslash leaves as it is (`Symbol.Sealed`).
-/

namespace MathNotes

/-! ## Replacing, character by character -/

namespace Pattern

variable {α : Type} {pattern : Pattern α} {f : α → Text} {previous : Option Char} {text out : Text}

theorem misses_of_find?_none (h : pattern.find? previous text = none) :
    pattern.Misses previous text [] := by
  induction text generalizing previous with
  | nil => exact misses_nil
  | cons c text ih =>
    rw [find?] at h
    split at h
    · cases h
    · rename_i hnone
      exact ⟨by rwa [List.append_nil], ih (Option.map_eq_none_iff.mp h)⟩

theorem Misses.right {rest after : Text} (h : pattern.Misses previous (text ++ rest) after) :
    pattern.Misses (text.getLast?.or previous) rest after := by
  induction text generalizing previous with
  | nil => exact h
  | cons c text ih =>
    rw [getLast?_cons_or]
    exact ih h.2

/-- In front of the first hit the pattern misses. -/
theorem misses_before (hp : pattern.Proper) {cut : Cut α}
    (h : pattern.find? previous text = some cut) :
    pattern.Misses previous cut.before (cut.matched ++ cut.after) := by
  induction text generalizing previous cut with
  | nil => cases h
  | cons c text ih =>
    rw [find?] at h
    split at h
    · cases h
      exact misses_nil
    · rename_i hnone
      obtain ⟨inner, hinner, rfl⟩ := Option.map_eq_some_iff.mp h
      refine ⟨?_, ih hinner⟩
      rw [← (find?_spec hp hinner).1]
      exact hnone

/-- What replacing makes of a text: where the pattern misses a character is kept, and a hit is
replaced. -/
inductive Replaces (pattern : Pattern α) (f : α → Text) : Option Char → Text → Text → Prop
  | nil {previous : Option Char} : Replaces pattern f previous [] []
  | keep {previous : Option Char} {c : Char} {text out : Text}
      (miss : pattern previous (c :: text) = none) (more : Replaces pattern f (some c) text out) :
      Replaces pattern f previous (c :: text) (c :: out)
  | hit {previous : Option Char} {matched after out : Text} {value : α}
      (hit : pattern.HitsAt previous matched value after)
      (more : Replaces pattern f matched.getLast? after out) :
      Replaces pattern f previous (matched ++ after) (f value ++ out)

theorem replaces_piecesFrom (hp : pattern.Proper) (f : α → Text) (previous : Option Char)
    (text : Text) : pattern.Replaces f previous text
      ((pattern.piecesFrom previous 0 text).flatMap (Piece.write f)) := by
  induction hn : text.length using Nat.strongRecOn generalizing previous text with
  | ind n ih =>
    cases text with
    | nil => exact .nil
    | cons c text =>
      cases hhit : pattern previous (c :: text) with
      | none =>
        rw [piecesFrom, hhit]
        exact .keep hhit (ih text.length (by simp [← hn]) _ _ rfl)
      | some hit =>
        have hat := hp.hitsAt hhit
        have hcut := (List.take_append_drop hit.width (c :: text)).symm
        have hlength := congrArg List.length hcut
        have hpos := List.length_pos_iff.mpr hat.2
        rw [List.length_append, hn] at hlength
        rw [hcut, piecesFrom_of_hitsAt hat]
        exact .hit hat (ih _ (by omega) _ _ rfl)

theorem replaces_replace (hp : pattern.Proper) (f : α → Text) (text : Text) :
    pattern.Replaces f none text (pattern.replace f text) :=
  replaces_piecesFrom hp f none text

end Pattern

namespace Symbol

variable {previous previous' : Option Char} {a b text out value matched after : Text}

/-! ## Commands -/

/-- A sign that an operator is written with. -/
def isSign (c : Char) : Bool := "<=>-+!".toList.contains c

/-- A character that neither ends a span of prose nor escapes the one behind it, and that can be
escaped. -/
def isOrdinary (c : Char) : Bool := !("\x7b\x7d\\\n".toList.contains c)

/-- What is written for a name or an operator: its command, perhaps with a space behind it. -/
def IsCommand (value : Text) : Prop := ∃ p ∈ names ++ operators, value = p.2 ∨ value = p.2 ++ [' ']

/-- What makes a command safe to write: no name, no operator and no span of prose starts in it. -/
def isSafe (value : Text) : Bool :=
  lettersBarred none value && isProseless value && value.all (!isSign ·) &&
    value.head? == some '\\' && !value.tail.isEmpty && value.tail.all isOrdinary

theorem IsCommand.isSafe (h : IsCommand value) : isSafe value = true := by
  have key : ∀ p ∈ names ++ operators, Symbol.isSafe p.2 = true ∧
      Symbol.isSafe (p.2 ++ [' ']) = true := by decide +kernel
  obtain ⟨p, hp, rfl | rfl⟩ := h
  · exact (key p hp).1
  · exact (key p hp).2

theorem IsCommand.exists_cons (h : IsCommand value) :
    ∃ c rest, value = '\\' :: c :: rest ∧ ∀ d ∈ c :: rest, isOrdinary d = true := by
  have hsafe := h.isSafe
  simp only [Symbol.isSafe, Bool.and_eq_true, beq_iff_eq, Bool.not_eq_true',
    List.isEmpty_eq_false_iff, List.all_eq_true] at hsafe
  obtain ⟨⟨⟨-, hhead⟩, htail⟩, hall⟩ := hsafe
  obtain ⟨rest, rfl⟩ := List.head?_eq_some_iff.mp hhead
  obtain ⟨c, rest, rfl⟩ := List.exists_cons_of_ne_nil htail
  exact ⟨c, rest, rfl, hall⟩

/-- Whether a name is barred behind a character. -/
def barsName (previous : Option Char) : Bool := previous.any fun c => c.isAlphanum || c == '\\'

/-- A pattern whose hits are replaced by commands, without uncovering what stands behind them. -/
structure Commanding (pattern : Pattern Text) : Prop where
  proper : pattern.Proper
  command : ∀ {previous matched value after}, pattern.HitsAt previous matched value after →
    IsCommand value
  ordinary : ∀ {previous matched value after}, pattern.HitsAt previous matched value after →
    ∀ c ∈ matched, isOrdinary c = true
  /-- No hit goes on a run of letters and digits. -/
  apart : ∀ {previous matched value after}, pattern.HitsAt previous matched value after →
    (∃ c ∈ previous, c.isAlphanum = true) → ∀ c ∈ matched.head?, c.isAlphanum = false
  barred : ∀ {previous matched value after}, pattern.HitsAt previous matched value after →
    barsName matched.getLast? = true → barsName value.getLast? = true

theorem commanding_namePattern : Commanding namePattern := by
  have hwords : namePattern.Recognises _ := Pattern.recognises_wordPattern names_ne_nil
  have hletters : ∀ p ∈ names, (∀ c ∈ p.1, isOrdinary c = true) ∧
      barsName p.2.getLast? = true := by decide +kernel
  refine ⟨hwords.proper, fun hat => ?_, fun hat => ?_, fun hat => ?_, fun hat => ?_⟩
  · exact ⟨_, List.mem_append_left _ (hwords.spec hat).1, .inl rfl⟩
  · exact (hletters _ (hwords.spec hat).1).1
  · rintro ⟨c, hc, halnum⟩
    have hbars := (hwords.spec hat).2.1 c hc
    simp [halnum] at hbars
  · exact fun _ => (hletters _ (hwords.spec hat).1).2

theorem commanding_operatorPattern : Commanding operatorPattern := by
  have hsigns : ∀ p ∈ operators, (∀ c ∈ p.1, isOrdinary c = true) ∧
      (∀ c ∈ p.1.head?, c.isAlphanum = false) ∧ barsName p.1.getLast? = false := by decide +kernel
  refine ⟨recognises_operatorPattern.proper, fun hat => ?_, fun hat => ?_, fun hat => ?_,
    fun hat => ?_⟩
  all_goals obtain ⟨command, hmem, hvalue⟩ := recognises_operatorPattern.spec hat
  · refine ⟨_, List.mem_append_right _ hmem, ?_⟩
    rcases hvalue with ⟨rfl, -⟩ | rfl
    · exact .inl rfl
    · exact .inr rfl
  · exact (hsigns _ hmem).1
  · exact fun _ => (hsigns _ hmem).2.1
  · intro hbars
    rw [(hsigns _ hmem).2.2] at hbars
    cases hbars

/-! ## Operators -/

/-- Whether an operator starts with two characters. -/
def startsOperator (c d : Char) : Bool := operators.any fun p => p.1.take 2 == [c, d]

theorem isSign_of_startsOperator {c d : Char} (h : startsOperator c d = true) :
    isSign c = true ∧ isSign d = true := by
  have key : ∀ p ∈ operators, ∀ c ∈ p.1.take 2, isSign c = true := by decide
  obtain ⟨p, hp, htake⟩ := List.any_eq_true.mp h
  rw [beq_iff_eq] at htake
  exact ⟨key p hp c (by simp [htake]), key p hp d (by simp [htake])⟩

/-- Two characters decide: what an operator of three starts with is an operator. -/
theorem operator_eq_none_iff : operatorPattern previous text = none ↔
    ∀ c d rest, text = c :: d :: rest → startsOperator c d = false := by
  constructor
  · rintro h c d rest rfl
    by_contra hstarts
    have key : ∀ p ∈ operators, ∃ q ∈ operators, q.1 = p.1.take 2 := by decide
    have hstarts : startsOperator c d = true := by simpa using hstarts
    obtain ⟨p, hp, htake⟩ := List.any_eq_true.mp hstarts
    obtain ⟨⟨word, command⟩, hq, hword⟩ := key p hp
    obtain rfl : word = [c, d] := hword.trans (beq_iff_eq.mp htake)
    have hnone := List.findSome?_eq_none_iff.mp h _ hq
    simp only [show c :: d :: rest = [c, d] ++ rest from rfl, isPrefixOf?_append] at hnone
    cases hnone
  · intro h
    by_contra hne
    obtain ⟨hit, hhit⟩ := Option.ne_none_iff_exists'.mp hne
    obtain ⟨matched, after, rfl, -, -, command, hmem, -⟩ := recognises_operatorPattern hhit
    have key : ∀ p ∈ operators, 1 < p.1.length := by decide
    match matched, key _ hmem with
    | c :: d :: matched, _ =>
      have hstarts : startsOperator c d = true := List.any_eq_true.mpr ⟨_, hmem, by simp⟩
      rw [h c d (matched ++ after) rfl] at hstarts
      cases hstarts

theorem misses_operators (h : text.IsChain fun c d => startsOperator c d = false) :
    operatorPattern.Misses previous text [] := by
  induction text generalizing previous with
  | nil => exact Pattern.misses_nil
  | cons c text ih =>
    refine ⟨operator_eq_none_iff.mpr ?_, ih h.tail⟩
    rintro _ d rest htext
    rw [List.append_nil] at htext
    obtain ⟨rfl, rfl⟩ := List.cons.inj htext
    exact (List.isChain_cons_cons.mp h).1

/-- **No operator is left** where operators are replaced. -/
theorem chain_replace (h : operatorPattern.Replaces id previous text out) :
    out.IsChain fun c d => startsOperator c d = false := by
  have hsign : ∀ {c d : Char}, isSign c = false ∨ isSign d = false →
      startsOperator c d = false := by
    intro c d hsign
    by_contra hstarts
    obtain ⟨hc, hd⟩ := isSign_of_startsOperator (by simpa using hstarts)
    simp [hc, hd] at hsign
  induction h with
  | nil => exact List.IsChain.nil
  | @keep previous c text out miss more ih =>
    refine List.isChain_cons.mpr ⟨fun d hd => ?_, ih⟩
    cases more with
    | nil => cases hd
    | keep =>
      obtain rfl := Option.some.inj hd
      exact operator_eq_none_iff.mp miss _ _ _ rfl
    | hit hat =>
      -- A command starts with a backslash, which is no sign.
      obtain ⟨e, rest, hvalue, -⟩ := (commanding_operatorPattern.command hat).exists_cons
      rw [id, hvalue] at hd
      obtain rfl := Option.some.inj hd
      exact hsign (.inr (by decide))
  | @hit previous matched after out value hat _ ih =>
    have hsafe := (commanding_operatorPattern.command hat).isSafe
    simp only [isSafe, Bool.and_eq_true, List.all_eq_true, Bool.not_eq_true'] at hsafe
    have hsigns : ∀ c ∈ value, isSign c = false := hsafe.1.1.1.2
    refine List.isChain_append.mpr ⟨?_, ih, fun c hc d _ => ?_⟩
    · rw [id, List.isChain_iff_forall_rel_of_append_cons_cons]
      rintro c d x y rfl
      exact hsign (.inl (hsigns c (by simp)))
    · exact hsign (.inl (hsigns c (List.mem_of_getLast? hc)))

/-! ## Names -/

/-- A name is a whole run of letters and digits. -/
theorem name_eq_none_iff : namePattern previous text = none ↔
    barsName previous = true ∨ text.takeWhile Char.isAlphanum ∉ names.map Prod.fst := by
  have halnum : ∀ p ∈ names, ∀ c ∈ p.1, c.isAlphanum = true := by decide
  constructor
  · intro h
    by_contra hno
    obtain ⟨hbars, hrun⟩ := not_or.mp hno
    obtain ⟨⟨word, command⟩, hmem, hword⟩ := List.mem_map.mp (not_not.mp hrun)
    have hpattern : namePattern previous text = names.findSome? _ := if_neg hbars
    rw [hpattern] at h
    have hnone := List.findSome?_eq_none_iff.mp h _ hmem
    have htext : text = word ++ text.dropWhile Char.isAlphanum := by
      rw [show word = text.takeWhile Char.isAlphanum from hword, List.takeWhile_append_dropWhile]
    have hstop : (text.dropWhile Char.isAlphanum).head?.any Char.isAlphanum = false := by
      cases hhead : (text.dropWhile Char.isAlphanum).head? with
      | none => rfl
      | some c => exact head?_dropWhile_stops c hhead
    generalize text.dropWhile Char.isAlphanum = rest at htext hstop
    subst htext
    simp only [isPrefixOf?_append, Option.bind_eq_bind, Option.bind_some, hstop, Bool.not_false,
      guard_true] at hnone
    cases hnone
  · intro h
    by_contra hne
    obtain ⟨hit, hhit⟩ := Option.ne_none_iff_exists'.mp hne
    obtain ⟨matched, after, rfl, -, -, hmem, hbars, hfollows⟩ :=
      Pattern.recognises_wordPattern names_ne_nil hhit
    rcases h with h | h
    · obtain ⟨c, hc, hbar⟩ := (Option.any_eq_true _ _).mp h
      rw [hbars c hc] at hbar
      cases hbar
    · rw [takeWhile_append_stop (halnum _ hmem) hfollows] at h
      exact h (List.mem_map.mpr ⟨_, hmem, rfl⟩)

/-- Behind a letter or digit, replacing keeps the run that it is part of. -/
theorem run_replace {pattern : Pattern Text} (hp : Commanding pattern)
    (h : pattern.Replaces id previous text out) (hprevious : ∃ c ∈ previous, c.isAlphanum = true) :
    out.takeWhile Char.isAlphanum = text.takeWhile Char.isAlphanum := by
  induction h with
  | nil => rfl
  | @keep _ c _ _ _ _ ih =>
    by_cases hc : c.isAlphanum = true
    · rw [List.takeWhile_cons_of_pos hc, List.takeWhile_cons_of_pos hc, ih ⟨c, rfl, hc⟩]
    · rw [List.takeWhile_cons_of_neg hc, List.takeWhile_cons_of_neg hc]
  | @hit _ matched _ _ _ hat =>
    obtain ⟨e, rest, hvalue, -⟩ := (hp.command hat).exists_cons
    obtain ⟨c, matched, rfl⟩ := List.exists_cons_of_ne_nil hat.2
    have hc : ¬ c.isAlphanum = true := by simp [hp.apart hat hprevious c rfl]
    rw [id, hvalue, List.cons_append, List.cons_append, List.takeWhile_cons_of_neg (by decide),
      List.cons_append, List.takeWhile_cons_of_neg hc]

/-- **No name is brought about by writing commands**: if there is none where the pattern misses,
there is none in what replacing makes of the text. -/
theorem misses_names_replace {pattern : Pattern Text} (hp : Commanding pattern)
    (h : pattern.Replaces id previous text out)
    (hbars : barsName previous = true → barsName previous' = true)
    (hmiss : ∀ before c rest, text = before ++ c :: rest →
      pattern (before.getLast?.or previous) (c :: rest) = none →
        namePattern (before.getLast?.or previous) (c :: rest) = none) :
    namePattern.Misses previous' out [] := by
  induction h generalizing previous' with
  | nil => exact Pattern.misses_nil
  | @keep previous c text out miss more ih =>
    refine ⟨?_, ih id fun before d rest htext hnone => ?_⟩
    · rw [List.append_nil]
      have hhere := hmiss [] c text rfl miss
      rw [name_eq_none_iff] at hhere ⊢
      refine hhere.imp hbars fun hrun => ?_
      by_cases hc : c.isAlphanum = true
      · rwa [List.takeWhile_cons_of_pos hc, run_replace hp more ⟨c, rfl, hc⟩,
          ← List.takeWhile_cons_of_pos hc]
      · rwa [List.takeWhile_cons_of_neg hc, ← List.takeWhile_cons_of_neg hc]
    · have hlater := hmiss (c :: before) d rest (by rw [htext]; rfl)
      rw [getLast?_cons_or] at hlater
      exact hlater hnone
  | @hit previous matched after out value hat _ ih =>
    have hsafe := (hp.command hat).isSafe
    simp only [isSafe, Bool.and_eq_true] at hsafe
    obtain ⟨e, more, hvalue, -⟩ := (hp.command hat).exists_cons
    have hne : value ≠ [] := by simp [hvalue]
    refine Pattern.misses_append ?_ (ih ?_ fun before c rest hafter hnone => ?_)
    · -- The first character of a command is no letter, so the one before it does not matter.
      have hletters := hsafe.1.1.1.1.1
      rw [id]
      rw [hvalue] at hletters ⊢
      exact names_of_lettersBarred (by simpa [lettersBarred] using hletters)
    · intro hbarred
      obtain ⟨last, hlast⟩ := Option.ne_none_iff_exists'.mp (mt List.getLast?_eq_none_iff.mp hne)
      have hkept := hp.barred hat hbarred
      rwa [id, hlast, Option.some_or, ← hlast]
    · have hlater := hmiss (matched ++ before) c rest (by rw [hafter, List.append_assoc])
      obtain ⟨last, hlast⟩ := Option.ne_none_iff_exists'.mp (mt List.getLast?_eq_none_iff.mp hat.2)
      rw [List.getLast?_append, Option.or_assoc, hlast, Option.some_or, ← hlast] at hlater
      exact hlater hnone

/-- **Names and operators are replaced once.** -/
theorem substituteNames_idempotent (text : Text) :
    substituteNames (substituteNames text) = substituteNames text := by
  have hnames : namePattern.Misses none (namePattern.replace id text) [] :=
    misses_names_replace commanding_namePattern
      (Pattern.replaces_replace commanding_namePattern.proper id text) id fun _ _ _ _ h => h
  have hreplaces := Pattern.replaces_replace commanding_operatorPattern.proper id
    (namePattern.replace id text)
  have hkept : namePattern.Misses none (substituteNames text) [] := by
    refine misses_names_replace commanding_operatorPattern hreplaces id
      fun before c rest htext _ => ?_
    rw [htext] at hnames
    simpa using hnames.right.1
  have hoperators : operatorPattern.Misses none (substituteNames text) [] :=
    misses_operators (chain_replace hreplaces)
  rw [substituteNames, Pattern.replace_of_misses hkept, Pattern.replace_of_misses hoperators]

/-! ## Spans of prose -/

/-- Whether the text behind the start of a span closes it. -/
def closesProse (text : Text) : Bool := (proseBodyWidth? text).isSome

theorem closesProse_brace (text : Text) : closesProse ('{' :: text) = false := by
  rw [closesProse, proseBodyWidth?.eq_def]
  rfl

theorem closesProse_cons {c : Char} (h : isOrdinary c = true) (text : Text) :
    closesProse (c :: text) = closesProse text := by
  have hc : c ≠ '{' ∧ c ≠ '}' ∧ c ≠ '\\' := by
    refine ⟨?_, ?_, ?_⟩ <;> · rintro rfl; exact absurd h (by decide)
  rw [closesProse, proseBodyWidth?.eq_def]
  simp [hc, closesProse]

theorem closesProse_escaped (c : Char) (text : Text) :
    closesProse ('\\' :: c :: text) = (c != '\n' && closesProse text) := by
  rw [closesProse, proseBodyWidth?.eq_def]
  by_cases hc : c = '\n'
  · simp [hc]
  · simp [hc, closesProse]

theorem closesProse_append (h : ∀ c ∈ a, isOrdinary c = true) (text : Text) :
    closesProse (a ++ text) = closesProse text := by
  induction a with
  | nil => rfl
  | cons c a ih =>
    rw [List.forall_mem_cons] at h
    rw [List.cons_append, closesProse_cons h.1, ih h.2]

/-- A span of prose is closed by both texts or by neither, also where their first character is
escaped. -/
structure Sealed (a b : Text) : Prop where
  closes : closesProse a = closesProse b
  escaped : closesProse ('\\' :: a) = closesProse ('\\' :: b)

namespace Sealed

theorem refl (a : Text) : Sealed a a := ⟨rfl, rfl⟩

theorem cons (h : Sealed a b) (c : Char) : Sealed (c :: a) (c :: b) where
  closes := by
    by_cases hslash : c = '\\'
    · exact hslash ▸ h.escaped
    · have hcloses := h.closes
      simp only [closesProse] at hcloses ⊢
      rw [proseBodyWidth?.eq_def, proseBodyWidth?.eq_def]
      simp only [beq_iff_eq, hslash, if_false]
      split_ifs <;> simp [hcloses]
  escaped := by rw [closesProse_escaped, closesProse_escaped, h.closes]

theorem ne_newline_of_isOrdinary {c : Char} (h : isOrdinary c = true) : (c != '\n') = true := by
  rw [bne_iff_ne]
  rintro rfl
  exact absurd h (by decide)

/-- A command in the place of ordinary characters. -/
theorem command (h : Sealed a b) (hmatched : ∀ c ∈ matched, isOrdinary c = true)
    (hne : matched ≠ []) (hvalue : IsCommand value) : Sealed (matched ++ a) (value ++ b) := by
  obtain ⟨c, rest, rfl, hrest⟩ := hvalue.exists_cons
  obtain ⟨d, matched, rfl⟩ := List.exists_cons_of_ne_nil hne
  rw [List.forall_mem_cons] at hmatched hrest
  simp only [List.cons_append]
  constructor
  · rw [closesProse_cons hmatched.1, closesProse_append hmatched.2, closesProse_escaped,
      ne_newline_of_isOrdinary hrest.1, Bool.true_and, closesProse_append hrest.2, h.closes]
  · rw [closesProse_escaped, ne_newline_of_isOrdinary hmatched.1, Bool.true_and,
      closesProse_append hmatched.2, closesProse_escaped, closesProse_cons hrest.1,
      closesProse_append hrest.2, h.closes]
    rfl

/-- **Replacing by commands closes no span of prose and opens none that was closed.** -/
theorem replace {pattern : Pattern Text} (hp : Commanding pattern)
    (hreplaces : pattern.Replaces id previous text out) (h : Sealed a b) :
    Sealed (text ++ a) (out ++ b) := by
  induction hreplaces with
  | nil => exact h
  | @keep _ c _ _ _ _ ih => exact ih.cons c
  | hit hat _ ih =>
    rw [List.append_assoc, List.append_assoc]
    exact ih.command (hp.ordinary hat) hat.2 (hp.command hat)

end Sealed

/-- What starts with no backslash, up to where the texts that follow start with one, was there
before commands were written. -/
theorem exists_lead {pattern : Pattern Text} (hp : Commanding pattern) {word : Text}
    (h : pattern.Replaces id previous text out) (hword : '\\' ∉ word)
    (hb : ∀ c ∈ b.head?, c = '\\') (hlead : word <+: out ++ b) :
    ∃ previous rest rest', text = word ++ rest ∧ out = word ++ rest' ∧
      pattern.Replaces id previous rest rest' := by
  induction word generalizing previous text out with
  | nil => exact ⟨previous, text, out, rfl, rfl, h⟩
  | cons c word ih =>
    rw [List.mem_cons, not_or] at hword
    cases h with
    | nil =>
      obtain ⟨more, hmore⟩ := hlead
      exact absurd (hb c (by rw [← List.nil_append b, ← hmore]; rfl)) (Ne.symm hword.1)
    | keep _ more =>
      rw [List.cons_append, List.cons_prefix_cons] at hlead
      obtain ⟨rfl, hlead⟩ := hlead
      obtain ⟨previous, rest, rest', rfl, rfl, hrest⟩ := ih more hword.2 hlead
      exact ⟨previous, rest, rest', rfl, rfl, hrest⟩
    | hit hat =>
      obtain ⟨d, rest, hvalue, -⟩ := (hp.command hat).exists_cons
      rw [id, hvalue, List.cons_append, List.cons_append, List.cons_prefix_cons] at hlead
      exact absurd hlead.1.symm hword.1

theorem prose_eq_none_iff {body : Text} :
    prosePattern previous (proseLead ++ body) = none ↔ closesProse body = false := by
  rw [prosePattern, isPrefixOf?_append, closesProse]
  cases hwidth : proseBodyWidth? body <;> simp [hwidth]

/-- **Replacing by commands opens no span of prose.** -/
theorem misses_prose_replace {pattern : Pattern Text} (hp : Commanding pattern)
    (before before' : Option Char) (h : pattern.Replaces id previous text out) (hab : Sealed a b)
    (hb : ∀ c ∈ b.head?, c = '\\') (hmiss : prosePattern.Misses before text a) :
    prosePattern.Misses before' out b := by
  induction h generalizing before before' with
  | nil => exact Pattern.misses_nil
  | @keep _ c text out _ more ih =>
    refine ⟨?_, ih _ _ hmiss.2⟩
    by_cases hlead : proseLead <+: c :: (out ++ b)
    · obtain ⟨rfl, hword⟩ : '\\' = c ∧ "text\x7b".toList <+: out ++ b :=
        List.cons_prefix_cons.mp hlead
      obtain ⟨_, rest, rest', rfl, rfl, hrest⟩ := exists_lead hp more (by decide) hb hword
      have hopen := hmiss.1
      rw [List.append_assoc] at hopen ⊢
      exact prose_eq_none_iff.mpr
        ((hab.replace hp hrest).closes.symm.trans (prose_eq_none_iff.mp hopen))
    · have hnone : proseLead.isPrefixOf? (c :: (out ++ b)) = none := by
        by_contra hne
        obtain ⟨rest, hrest⟩ := Option.ne_none_iff_exists'.mp hne
        exact hlead ⟨rest, (isPrefixOf?_eq_some_iff.mp hrest).symm⟩
      rw [prosePattern, hnone]
      rfl
  | @hit _ matched after out value hat _ ih =>
    have hsafe := (hp.command hat).isSafe
    simp only [isSafe, Bool.and_eq_true] at hsafe
    exact Pattern.misses_append (prose_of_isProseless hsafe.1.1.1.1.2) (ih _ _ hmiss.right)

theorem misses_prose_substituteNames (hab : Sealed a b) (ha : ∀ c ∈ a.head?, c = '\\')
    (hb : ∀ c ∈ b.head?, c = '\\') (h : prosePattern.Misses none text a) :
    prosePattern.Misses none (substituteNames text) b :=
  misses_prose_replace commanding_operatorPattern none none
    (Pattern.replaces_replace commanding_operatorPattern.proper id _) hab hb
    (misses_prose_replace commanding_namePattern none none
      (Pattern.replaces_replace commanding_namePattern.proper id text) (.refl a) ha h)

/-- A span of prose is closed whatever stands behind it. -/
theorem proseBodyWidth?_take {width : Nat} (h : proseBodyWidth? text = some width) (rest : Text) :
    proseBodyWidth? (text.take width ++ rest) = some width := by
  fun_induction proseBodyWidth? text generalizing width with
  | case1 => cases h
  | case2 c _ hc =>
    cases h
    rw [List.take_succ_cons, List.cons_append, proseBodyWidth?.eq_def]
    simp [hc]
  | case3 => cases h
  | case4 => cases h
  | case5 => cases h
  | case6 c hclose hopen hslash escaped text hnewline ih =>
    obtain ⟨n, hn, rfl⟩ := Option.map_eq_some_iff.mp h
    rw [List.take_succ_cons, List.take_succ_cons, List.cons_append, List.cons_append,
      proseBodyWidth?.eq_def]
    simp [hclose, hopen, hslash, hnewline, ih hn]
  | case7 c text hclose hopen hslash ih =>
    obtain ⟨n, hn, rfl⟩ := Option.map_eq_some_iff.mp h
    rw [List.take_succ_cons, List.cons_append, proseBodyWidth?.eq_def]
    simp [hclose, hopen, hslash, ih hn]

/-- A span of prose is found whatever stands in front of it and behind it. -/
theorem hitsAt_prose (h : prosePattern.HitsAt previous matched value after)
    (previous' : Option Char) (after' : Text) :
    prosePattern.HitsAt previous' matched value after' := by
  refine ⟨?_, h.2⟩
  have hfound := h.1
  simp only [prosePattern, Option.bind_eq_bind, Option.bind_eq_some_iff, Option.pure_def,
    Option.some.injEq, Hit.mk.injEq, isPrefixOf?_eq_some_iff] at hfound ⊢
  obtain ⟨body, hbody, width, hwidth, hvalue, hlength⟩ := hfound
  have hmatched : matched = proseLead ++ body.take width := by
    rw [← List.take_length_add_append, ← hbody, hlength, List.take_left]
  refine ⟨body.take width ++ after', ?_, width, proseBodyWidth?_take hwidth after', ?_, hlength⟩
  · rw [hmatched, List.append_assoc]
  · rw [hlength, List.take_left] at hvalue ⊢
    exact hvalue

/-- Inside the start of a span no other span is closed. -/
theorem sealed_span (h : prosePattern.HitsAt previous matched value after) (after' : Text) :
    Sealed (matched ++ after) (matched ++ after') := by
  obtain ⟨-, content, rfl⟩ := recognises_prosePattern.spec h
  have hopen : ∀ rest, closesProse (proseLead ++ rest) = false ∧
      closesProse ('\\' :: (proseLead ++ rest)) = false := by
    intro rest
    have hlead : proseLead ++ rest = '\\' :: 't' :: (['e', 'x', 't'] ++ '{' :: rest) := rfl
    have htext : ∀ c ∈ ['e', 'x', 't'], isOrdinary c = true := by decide
    rw [hlead, closesProse_escaped, closesProse_escaped, closesProse_cons (by decide),
      closesProse_append htext, closesProse_brace, Bool.and_false, Bool.and_false]
    exact ⟨rfl, rfl⟩
  simp only [List.append_assoc]
  exact ⟨(hopen _).1.trans (hopen _).1.symm, (hopen _).2.trans (hopen _).2.symm⟩

/-! ## The pass -/

theorem piecesFrom_prose (previous : Option Char) (text : Text) :
    prosePattern.piecesFrom previous 0 text = prosePattern.pieces text := by
  cases text <;> rfl

theorem symbolPass_of_misses (h : prosePattern.Misses none text []) :
    symbolPass text = substituteNames text := by
  have hpass := Pattern.piecesFrom_pass h
  rw [List.append_nil, piecesFrom_prose] at hpass
  rw [symbolPass, hpass, Piece.gaps_chars]
  simp [Pattern.piecesFrom, Piece.gaps]

/-- The pass up to the first span of prose, and behind it. -/
theorem symbolPass_behind (h : prosePattern.Misses none text (matched ++ after))
    (hat : prosePattern.HitsAt previous matched value after) :
    symbolPass (text ++ (matched ++ after)) =
      substituteNames text ++ (matched ++ symbolPass after) := by
  have hpass := Pattern.piecesFrom_pass h
  rw [Pattern.piecesFrom_of_hitsAt (hitsAt_prose hat _ _), piecesFrom_prose,
    piecesFrom_prose] at hpass
  obtain ⟨rfl, -⟩ := recognises_prosePattern.spec hat
  rw [symbolPass, hpass, Piece.gaps_chars]
  simp [Piece.gaps, symbolPass]

/-- Names and operators are replaced once, outside the spans of prose, and the spans are where they
were. -/
theorem symbolPass_twice (latex : Text) :
    symbolPass (symbolPass latex) = symbolPass latex := by
  induction hn : latex.length using Nat.strongRecOn generalizing latex with
  | ind n ih =>
    cases hfind : prosePattern.find? none latex with
    | none =>
      have hmisses := Pattern.misses_of_find?_none hfind
      rw [symbolPass_of_misses hmisses, symbolPass_of_misses
        (misses_prose_substituteNames (.refl []) (by simp) (by simp) hmisses),
        substituteNames_idempotent]
    | some cut =>
      have hp := recognises_prosePattern.proper
      obtain ⟨hlatex, hat⟩ := Pattern.find?_spec hp hfind
      have hmisses := Pattern.misses_before hp hfind
      have hhead : ∀ rest, ∀ c ∈ (cut.matched ++ rest).head?, c = '\\' := by
        obtain ⟨-, content, hspan⟩ := recognises_prosePattern.spec hat
        rw [hspan]
        rintro rest c hc
        exact (Option.some.inj hc).symm
      have hkept := misses_prose_substituteNames (sealed_span hat (symbolPass cut.after))
        (hhead _) (hhead _) hmisses
      have hshorter : cut.after.length < n := by
        have hpos := List.length_pos_iff.mpr hat.2
        rw [← hn, hlatex]
        simp only [List.length_append]
        omega
      rw [hlatex, symbolPass_behind hmisses hat, symbolPass_behind hkept (hitsAt_prose hat none _),
        substituteNames_idempotent, ih _ hshorter _ rfl]

/-- **The pass over finished LaTeX is idempotent.** -/
theorem symbolPass_idempotent (latex : Text) :
    ∃ once, Checked.symbolPass latex = .ok once ∧ Checked.symbolPass once = .ok once := by
  refine ⟨symbolPass latex, Checked.symbolPass_eq latex, ?_⟩
  rw [Checked.symbolPass_eq, symbolPass_twice]
  rfl

end Symbol

end MathNotes
