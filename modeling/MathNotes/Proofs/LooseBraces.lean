import MathNotes.Proofs.Braces
import MathNotes.Proofs.RewriteSteps

/-!
# Braces that are left

Matching walks over a text with a counter; what it finds can be said by counting delimiters in the
prefixes of the text.  A group is never closed when no prefix behind its start closes more than it
opens (`Text.Unclosed`), and what stands between two delimiters that match closes what it opens
(`Text.Matched`).

A brace is owned when it is escaped, or belongs to a script or a command (`SetBuilder.Owned`).  The
step for sets settles the other braces from left to right: each is put aside with the brace that
closes it, or escaped where there is none (`SetBuilder.Settles`).  Every move is judged by what is
already written in front of the brace, so an escaped brace is owned from then on, and a brace behind
a marker is judged as behind any name.  With a round for each brace, all that is left are owned ones
(`Construct.setBuilders_settled`).
-/

namespace MathNotes

/-! ## Matching by counting -/

namespace Text

/-- No prefix of the text closes more groups than it opens. -/
def Unclosed (opener closer : Char) (text : Text) : Prop :=
  ∀ read, read <+: text → read.count closer ≤ read.count opener

/-- The text closes the groups that it opens, and no others. -/
structure Matched (opener closer : Char) (text : Text) : Prop where
  closing_le : text.Unclosed opener closer
  closing_eq : text.count closer = text.count opener

end Text

namespace Delimiters

variable {opener closer : Char} {depth n : Nat} {text : Text}

/-- One step of matching: the group is closed, or its delimiters are counted. -/
theorem offset?_cons (h : opener ≠ closer) (depth : Nat) (c : Char) (text : Text) :
    (depth = 0 ∧ c = closer ∧ offset? ⟨[opener], [closer]⟩ depth (c :: text) = some 0) ∨
      ∃ inner, inner + [c].count closer = depth + [c].count opener ∧
        offset? ⟨[opener], [closer]⟩ depth (c :: text) =
          (offset? ⟨[opener], [closer]⟩ inner text).map (· + 1) := by
  rw [offset?.eq_def]
  by_cases hopen : c = opener
  · subst hopen
    exact .inr ⟨depth + 1, by simp [h], by simp [opens]⟩
  · by_cases hclose : c = closer
    · subst hclose
      cases depth with
      | zero => exact .inl ⟨rfl, rfl, by simp [opens, closes, h]⟩
      | succ depth => exact .inr ⟨depth, by simp [hopen], by simp [opens, closes, h]⟩
    · exact .inr ⟨depth, by simp [hopen, hclose],
        by simp [opens, closes, Ne.symm hopen, Ne.symm hclose]⟩

/-- Where nothing closes the group, no prefix closes more groups than are open. -/
theorem count_of_offset?_none (h : opener ≠ closer)
    (hnone : offset? ⟨[opener], [closer]⟩ depth text = none) :
    ∀ read, read <+: text → read.count closer ≤ read.count opener + depth := by
  induction text generalizing depth with
  | nil =>
    intro read hread
    rw [List.prefix_nil.mp hread]
    exact Nat.zero_le _
  | cons c text ih =>
    rcases offset?_cons h depth c text with ⟨-, -, hfound⟩ | ⟨inner, hinner, hrest⟩
    · rw [hfound] at hnone
      cases hnone
    · rw [hrest, Option.map_eq_none_iff] at hnone
      refine Text.forall_prefix_cons (Nat.zero_le _) fun read hread => ?_
      have hcount := ih hnone read hread
      rw [← List.singleton_append, List.count_append, List.count_append]
      omega

/-- What stands in front of the delimiter that closes the group closes all that is open in it. -/
theorem count_of_offset?_some (h : opener ≠ closer)
    (hsome : offset? ⟨[opener], [closer]⟩ depth text = some n) :
    (∀ read, read <+: text.take n → read.count closer ≤ read.count opener + depth) ∧
      (text.take n).count closer = (text.take n).count opener + depth := by
  induction text generalizing depth n with
  | nil => cases hsome
  | cons c text ih =>
    rcases offset?_cons h depth c text with ⟨rfl, -, hfound⟩ | ⟨inner, hinner, hrest⟩
    · obtain rfl : 0 = n := Option.some.inj (hfound.symm.trans hsome)
      refine ⟨fun read hread => ?_, rfl⟩
      rw [List.prefix_nil.mp hread]
      exact Nat.zero_le _
    · rw [hrest] at hsome
      obtain ⟨m, hm, rfl⟩ := Option.map_eq_some_iff.mp hsome
      obtain ⟨hread, htotal⟩ := ih hm
      rw [List.take_succ_cons]
      refine ⟨Text.forall_prefix_cons (Nat.zero_le _) fun read hpart => ?_, ?_⟩
      · have hcount := hread read hpart
        rw [← List.singleton_append, List.count_append, List.count_append]
        omega
      · rw [← List.singleton_append, List.count_append, List.count_append]
        omega

theorem unclosed_of_splitClosing? (h : opener ≠ closer)
    (hnone : splitClosing? ⟨[opener], [closer]⟩ text = none) : text.Unclosed opener closer :=
  count_of_offset?_none h (Option.map_eq_none_iff.mp hnone)

theorem matched_of_splitClosing? {content after : Text} (h : opener ≠ closer)
    (hsome : splitClosing? ⟨[opener], [closer]⟩ text = some (content, after)) :
    content.Matched opener closer := by
  obtain ⟨n, hn, heq⟩ := Option.map_eq_some_iff.mp hsome
  cases heq
  obtain ⟨hread, htotal⟩ := count_of_offset?_some h hn
  exact ⟨hread, htotal⟩

end Delimiters

/-! ## Braces with an owner -/

namespace Text

theorem ne_of_isPrefixOf?_none {c d : Char} {text : Text}
    (h : [c].isPrefixOf? (d :: text) = none) : c ≠ d := by
  rintro rfl
  simp [List.isPrefixOf?] at h

theorem not_mem_of_breakOn? {c : Char} {text before after : Text}
    (h : breakOn? [c] text = some (before, after)) : c ∉ before := by
  induction text generalizing before with
  | nil => cases h
  | cons d text ih =>
    rw [breakOn?] at h
    split at h
    · cases h
      exact List.not_mem_nil
    · rename_i hnone
      obtain ⟨⟨before', after'⟩, hrest, heq⟩ := Option.map_eq_some_iff.mp h
      cases heq
      rw [List.mem_cons, not_or]
      exact ⟨ne_of_isPrefixOf?_none hnone, ih hrest⟩

theorem not_mem_of_breakOn?_none {c : Char} {text : Text} (h : breakOn? [c] text = none) :
    c ∉ text := by
  induction text with
  | nil => exact List.not_mem_nil
  | cons d text ih =>
    rw [breakOn?] at h
    split at h
    · cases h
    · rename_i hnone
      rw [List.mem_cons, not_or]
      exact ⟨ne_of_isPrefixOf?_none hnone, ih (Option.map_eq_none_iff.mp h)⟩

end Text

namespace SetBuilder

/-- The text ends in a command: a backslash and letters, perhaps with white space behind them. -/
def EndsInCommand (text : Text) : Prop :=
  ∃ front name blanks : Text, text = front ++ '\\' :: (name ++ blanks) ∧ name ≠ [] ∧
    (∀ c ∈ name, c.isAlpha = true) ∧ blanks.Blank

/-- A brace behind the text is escaped, or belongs to a script or to a command. -/
def Owned (before : Text) : Prop :=
  (∃ c ∈ before.getLast?, c = '\\' ∨ c = '_' ∨ c = '^') ∨ EndsInCommand before

theorem endsInCommand_iff {text : Text} : endsInCommand text = true ↔ EndsInCommand text := by
  rw [endsInCommand, EndsInCommand]
  simp only [drop_takeWhile, Bool.and_eq_true, Bool.not_eq_true', List.isEmpty_eq_false_iff,
    beq_iff_eq, List.head?_eq_some_iff]
  constructor
  · rintro ⟨hne, more, hmore⟩
    obtain ⟨blanks, htext, hblank⟩ := Text.trimRight_append text
    have hcut := List.takeWhile_append_dropWhile (p := Char.isAlpha) (l := text.trimRight.reverse)
    rw [hmore] at hcut
    refine ⟨more.reverse, (text.trimRight.reverse.takeWhile Char.isAlpha).reverse, blanks, ?_,
      by simpa using hne, fun c hc => List.mem_takeWhile_imp (List.mem_reverse.mp hc), hblank⟩
    conv => lhs; rw [htext, ← List.reverse_reverse text.trimRight, ← hcut]
    simp
  · rintro ⟨front, name, blanks, rfl, hne, halpha, hblank⟩
    have htrim : (Text.trimRight (front ++ '\\' :: (name ++ blanks))).reverse =
        name.reverse ++ '\\' :: front.reverse := by
      have hcut : (front ++ '\\' :: (name ++ blanks)).reverse =
          blanks.reverse ++ (name.reverse ++ '\\' :: front.reverse) := by simp
      have hletter : ∀ c ∈ (name.reverse ++ '\\' :: front.reverse).head?, isBlank c = false := by
        intro c hc
        rw [List.head?_append_of_ne_nil _ (by simpa using hne)] at hc
        have hmem := List.mem_reverse.mp (List.mem_of_mem_head? hc)
        exact isBlank_of_isNameChar (isNameChar_of_isAlpha (halpha c hmem))
      rw [Text.trimRight, List.reverse_reverse, hcut]
      exact dropWhile_append_stop (fun c hc => hblank c (List.mem_reverse.mp hc)) hletter
    have hstop : ∀ c ∈ ('\\' :: front.reverse).head?, c.isAlpha = false := by simp
    have hname : ∀ c ∈ name.reverse, c.isAlpha = true := by simpa using halpha
    rw [htrim, takeWhile_append_stop hname hstop, dropWhile_append_stop hname hstop]
    exact ⟨by simpa using hne, front.reverse, rfl⟩

theorem isGroupArgument_iff {before : Text} : isGroupArgument before = true ↔ Owned before := by
  rw [isGroupArgument, Bool.or_eq_true, endsInCommand_iff, Owned, Option.any_eq_true]
  simp

/-! ## Settling braces -/

/-- What settling the braces of a text behind `before` gives: an owned brace is kept like any other
character, a brace that is never closed is escaped, and another one is replaced by a marker,
together with the brace that matches it and what stands between them. -/
inductive Settles : (before text out : Text) → Prop
  | nil {before : Text} : Settles before [] []
  | keep {before text out : Text} {c : Char} (owned : c = '{' → Owned before)
      (more : Settles (before ++ [c]) text out) : Settles before (c :: text) (c :: out)
  | escape {before text out : Text} (loose : ¬Owned before) (unclosed : text.Unclosed '{' '}')
      (more : Settles (before ++ ['\\', '{']) text out) :
      Settles before ('{' :: text) ('\\' :: '{' :: out)
  | set {before content text out : Text} (loose : ¬Owned before)
      (inside : content.Matched '{' '}') (n : Nat)
      (more : Settles (before ++ Marker.ofNat n) text out) :
      Settles before ('{' :: (content ++ '}' :: text)) (Marker.ofNat n ++ out)

namespace Settles

variable {before text out front back : Text}

theorem skip {skipped : Text} (h : '{' ∉ skipped) (more : Settles (before ++ skipped) text out) :
    Settles before (skipped ++ text) (skipped ++ out) := by
  induction skipped generalizing before with
  | nil => simpa using more
  | cons c skipped ih =>
    rw [List.mem_cons, not_or] at h
    refine .keep (fun hc => absurd hc.symm h.1) (ih h.2 ?_)
    simpa using more

theorem of_not_mem (h : '{' ∉ text) : Settles before text text := by
  have hskip : Settles before (text ++ []) (text ++ []) := skip h .nil
  rwa [List.append_nil] at hskip

/-- **The braces that are left have an owner.** -/
theorem owned (h : Settles before text out) (hout : out = front ++ '{' :: back) :
    Owned (before ++ front) := by
  induction h generalizing front with
  | nil => simp at hout
  | @keep before _ out c howned _ ih =>
    cases front with
    | nil =>
      rw [List.append_nil]
      exact howned (List.cons.inj hout).1
    | cons d front =>
      obtain ⟨rfl, hrest⟩ := List.cons.inj hout
      simpa using ih hrest
  | @escape before _ out _ _ _ ih =>
    rcases front with _ | ⟨c, _ | ⟨d, front⟩⟩
    · cases hout
    · obtain ⟨rfl, -⟩ := List.cons.inj hout
      exact .inl ⟨'\\', by simp, .inl rfl⟩
    · obtain ⟨rfl, hrest⟩ := List.cons.inj hout
      obtain ⟨rfl, hmore⟩ := List.cons.inj hrest
      simpa using ih hmore
  | @set before _ _ out _ _ n _ ih =>
    -- There is no brace in a marker.
    rcases char_cases hout with ⟨rest, rfl, hrest⟩ | ⟨rest, hmarker, -⟩
    · simpa using ih hrest
    · have hname := Marker.nameChar_of_mem_ofNat (hmarker ▸ List.mem_append_right front
        List.mem_cons_self)
      cases hname

end Settles

variable {treat : Treatment}

/-- **Collecting sets settles the braces**, if there is a round for each of them. -/
theorem settles_collect (rounds : Nat) (before text : Text) (s : Extraction)
    (hrounds : text.count '{' ≤ rounds) :
    ∃ out, (collect treat rounds before text s).1 = before ++ out ∧ Settles before text out := by
  induction rounds generalizing before text s with
  | zero =>
    have hnone : '{' ∉ text := List.count_eq_zero.mp (Nat.le_zero.mp hrounds)
    exact ⟨text, rfl, .of_not_mem hnone⟩
  | succ rounds ih =>
    rw [collect]
    cases hbreak : Text.breakOn? ['{'] text with
    | none =>
      exact ⟨text, rfl, .of_not_mem (Text.not_mem_of_breakOn?_none hbreak)⟩
    | some found =>
      obtain ⟨skipped, after⟩ := found
      have hskipped := Text.not_mem_of_breakOn? hbreak
      have htext : text = skipped ++ '{' :: after := Text.breakOn?_spec hbreak
      have hafter : after.count '{' ≤ rounds := by
        rw [htext, List.count_append, List.count_cons_self] at hrounds
        omega
      have hskip : ∀ {out}, Settles (before ++ skipped) ('{' :: after) out →
          Settles before text (skipped ++ out) := fun h => htext ▸ h.skip hskipped
      simp only
      -- The brace is kept, escaped or put aside with its set, and the rounds left do for the rest.
      by_cases hgroup : isGroupArgument (before ++ skipped) = true
      · rw [if_pos hgroup]
        obtain ⟨out, hout, hsettles⟩ := ih (before ++ skipped ++ ['{']) after s hafter
        refine ⟨skipped ++ '{' :: out, by rw [hout]; simp, hskip (.keep (fun _ => ?_) hsettles)⟩
        exact isGroupArgument_iff.mp hgroup
      · rw [if_neg hgroup]
        have hloose : ¬Owned (before ++ skipped) := mt isGroupArgument_iff.mpr hgroup
        cases hclosing : Delimiters.curly.splitClosing? after with
        | none =>
          obtain ⟨out, hout, hsettles⟩ := ih (before ++ skipped ++ ['\\', '{']) after s hafter
          refine ⟨skipped ++ '\\' :: '{' :: out, by rw [hout]; simp,
            hskip (.escape hloose ?_ hsettles)⟩
          exact Delimiters.unclosed_of_splitClosing? (by decide) hclosing
        | some found =>
          obtain ⟨content, behind⟩ := found
          have hcut := Delimiters.curly_splitClosing? hclosing
          have hbehind : behind.count '{' ≤ rounds := by
            rw [hcut, List.count_append, List.count_cons] at hafter
            omega
          obtain ⟨out, hout, hsettles⟩ :=
            ih (before ++ skipped ++ (latex treat content s).2.marker) behind
              ((latex treat content s).2.put (latex treat content s).1) hbehind
          refine ⟨skipped ++ ((latex treat content s).2.marker ++ out), ?_, hskip ?_⟩
          · rw [← List.append_assoc, ← List.append_assoc, ← hout]
            rfl
          · rw [hcut]
            exact .set hloose (Delimiters.matched_of_splitClosing? (by decide) hclosing) _ hsettles

end SetBuilder

namespace Construct

/-- After the step for sets every brace that is left is an argument of a command or a script, or
escaped: each of the others is replaced together with the brace that matches it, or escaped. -/
theorem setBuilders_settled (treat : Treatment) (rounds : Nat) (text : Text) (s : Extraction)
    (hrounds : text.count '{' ≤ rounds) :
    ∃ settled s', (Checked.setBuilders rounds treat.checked text).run s = (.ok settled, s') ∧
      (∀ front back, settled = front ++ '{' :: back → Checked.isGroupArgument front = .ok true) ∧
      SetBuilder.Settles [] text settled := by
  obtain ⟨out, hout, hsettles⟩ := SetBuilder.settles_collect rounds [] text s hrounds
  rw [List.nil_append] at hout
  refine ⟨out, (setBuilders rounds treat text s).2, ?_, fun front back hfront => ?_, hsettles⟩
  · rw [Checked.checks_setBuilders, Checked.run_sure, setBuilders, hout]
  · have howned : SetBuilder.isGroupArgument front = true :=
      SetBuilder.isGroupArgument_iff.mpr (hsettles.owned hfront)
    rw [Checked.isGroupArgument_eq, howned]
    rfl

theorem setBuilders_settled_interleaved :
    List.count '{' "\\sqrt \x7ba\x7d\x7bx|\x7by\x7d\x7d_\x7bi \x7b".toList ≤ 5 ∧
      ∃ settled s', (Checked.setBuilders 5 (treatment 64 31).checked
          "\\sqrt \x7ba\x7d\x7bx|\x7by\x7d\x7d_\x7bi \x7b").run {} = (.ok settled, s') ∧
        (∀ front back, settled = front ++ '{' :: back → Checked.isGroupArgument front = .ok true) ∧
        SetBuilder.Settles [] "\\sqrt \x7ba\x7d\x7bx|\x7by\x7d\x7d_\x7bi \x7b" settled :=
  ⟨by decide, setBuilders_settled _ _ _ _ (by decide)⟩

end Construct

end MathNotes
