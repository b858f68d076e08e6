import MathNotes.Checked.Basic
import MathNotes.Checked.Operand
import MathNotes.Proofs.Operands

/-!
# Operands are read inside their text

The operands around a slash, the base of an exponent, the command in front of a brace and the
neighbours of a pipe are read at positions of the whole text.  Each function here is given a cut of
the text, `before ++ after`, and the position of the cut, and none of its readings fails: a position
is moved to the left only while characters are left in front of it, to the right only while
characters are left behind it.  What is read is what `Operand`, `Fraction`, `Script`, `SetBuilder`
and `Pipe` find in the two parts of the cut.
-/

namespace MathNotes

namespace Text

theorem charAt_append_cons (before : Text) (c : Char) (after : Text) :
    charAt (before ++ c :: after) before.length = pure c := charAt_natCast (by simp)

theorem length_concat_sub_one (before : Text) (c : Char) :
    ((before ++ [c]).length : Int) - 1 = before.length := by simp

/-- The character in front of a cut. -/
theorem charAt_concat_append (before : Text) (c : Char) (after : Text) :
    charAt (before ++ [c] ++ after) ((before ++ [c]).length - 1) = pure c := by
  rw [length_concat_sub_one, List.append_assoc]
  exact charAt_append_cons ..

end Text

namespace Checked

/-! ## Brackets -/

/-- The bracket in front of a cut opens where the text in front of it is cut. -/
theorem opening?_concat_append (before after : Text) :
    Delimiters.round.opening? (before ++ [')'] ++ after) ((before ++ [')']).length - 1) =
      (Delimiters.round.splitOpening? before).map (·.1.length) := by
  rw [Text.length_concat_sub_one, List.append_assoc, Delimiters.round, Delimiters.opening?_natCast,
    if_pos (by simp), List.take_left, Delimiters.splitOpening?, Delimiters.splitClosing?,
    Delimiters.swap]
  cases Delimiters.offset? ⟨[')'], ['(']⟩ 0 before.reverse with
  | none => rfl
  | some n => simp; omega

/-- The group that opens at the character behind a cut closes where the rest of the text does. -/
theorem closing?_append_cons (before : Text) (c : Char) (rest : Text) :
    Delimiters.round.closing? (before ++ c :: rest) ((before.length : Int) + 1) =
      pure ((Delimiters.round.offset? 0 rest).map fun n =>
        ((before.length + 1 + n : Nat) : Int)) := by
  have hdrop : (before ++ c :: rest).drop (before.length + 1) = rest := by
    rw [← List.drop_drop, List.drop_left, List.drop_one, List.tail_cons]
  have hclosing := Delimiters.closing?_natCast (by decide : '(' ≠ ')') (before ++ c :: rest)
    (before.length + 1)
  rwa [hdrop] at hclosing

theorem splitClosing?_eq {opener closer : Char} (h : opener ≠ closer) (text : Text) :
    splitClosing? ⟨[opener], [closer]⟩ text =
      pure (Delimiters.splitClosing? ⟨[opener], [closer]⟩ text) := by
  have hclosing : Delimiters.closing? ⟨[opener], [closer]⟩ text 0 = pure _ :=
    Delimiters.closing?_natCast h text 0
  rw [splitClosing?, hclosing, pure_bind, Delimiters.splitClosing?, List.drop_zero]
  cases Delimiters.offset? ⟨[opener], [closer]⟩ 0 text with
  | none => rfl
  | some n =>
    have hfront : Text.slice text 0 ((0 + n : Nat) : Int) = text.take n := by
      rw [Nat.zero_add]
      exact Text.slice_natCast text 0 n
    have hrest : Text.slice text (((0 + n : Nat) : Int) + 1) text.length = text.drop (n + 1) := by
      rw [Nat.zero_add]
      exact (Text.slice_natCast text (n + 1) text.length).trans (by rw [List.take_length])
    simp only [Option.map_some, hfront, hrest]

/-- A group that ends in front of a cut ends there whatever follows. -/
theorem offset?_append_iff {pair : Delimiters} {depth n : Nat} {text : Text} (after : Text)
    (h : n < text.length) :
    pair.offset? depth (text ++ after) = some n ↔ pair.offset? depth text = some n := by
  induction text generalizing depth n with
  | nil => cases h
  | cons c rest ih =>
    have hrest : ∀ depth, (pair.offset? depth (rest ++ after)).map (· + 1) = some n ↔
        (pair.offset? depth rest).map (· + 1) = some n := by
      intro depth
      rw [Option.map_eq_some_iff, Option.map_eq_some_iff]
      constructor
      · rintro ⟨k, hk, rfl⟩
        exact ⟨k, (ih (Nat.lt_of_succ_lt_succ h)).mp hk, rfl⟩
      · rintro ⟨k, hk, rfl⟩
        exact ⟨k, (ih (Nat.lt_of_succ_lt_succ h)).mpr hk, rfl⟩
    rw [List.cons_append, Delimiters.offset?.eq_def,
      Delimiters.offset?.eq_def pair depth (c :: rest)]
    simp only
    split
    · exact hrest _
    · split
      · cases depth with
        | zero => rfl
        | succ inner => exact hrest inner
      · exact hrest _

/-! ## Operands -/

/-- Where the operand in front of a cut starts is read off the text in front of it. -/
theorem operandStart?_append (before after : Text) :
    operandStart? (before ++ after) before.length = pure (Operand.unscriptedStart? before) := by
  rcases List.eq_nil_or_concat before with rfl | ⟨front, c, rfl⟩
  · rfl
  rw [List.concat_eq_append, operandStart?, if_neg (by simp), Text.charAt_concat_append, pure_bind,
    Operand.unscriptedStart?, List.getLast?_concat]
  by_cases hc : c = ')'
  · subst hc
    rw [if_pos (by decide), if_pos (by decide), opening?_concat_append, List.dropLast_concat,
      Option.map_map]
    congr 1
    refine Option.map_congr ?_
    rintro ⟨lead, content⟩ hsplit
    rw [Function.comp_apply, Delimiters.round_splitOpening? hsplit, List.append_assoc,
      List.append_assoc, List.take_left]
  · rw [if_neg (by simpa using hc), if_neg (by simpa using hc), List.take_left]

/-- A width behind a cut as a position, if it is not nothing. -/
theorem ite_add_le (start width : Nat) :
    (if start + width ≤ start then none else some (start + width)) =
      (if width = 0 then none else some width).map (start + ·) := by
  cases width with
  | zero => simp
  | succ width => rw [if_neg (by omega), if_neg (by omega), Option.map_some]

theorem operandEnd?_group (before rest : Text) :
    operandEnd? (before ++ '(' :: rest) before.length =
      pure ((Operand.unscriptedWidth? before ('(' :: rest)).map (before.length + ·)) := by
  rw [operandEnd?, if_neg (by simp), Text.charAt_append_cons, pure_bind, if_pos (by decide),
    closing?_append_cons, pure_bind, Operand.unscriptedWidth?, Text.after?_cons_self]
  change pure _ = pure (Option.map _ (Option.map _ (Delimiters.round.offset? 0 rest)))
  rw [Option.map_map, Option.map_map]
  congr 2
  funext n
  simp only [Function.comp_apply]
  omega

theorem operandEnd?_atom (before : Text) {first : Char} (rest : Text) (h : first ≠ '(') :
    operandEnd? (before ++ first :: rest) before.length =
      pure ((Operand.unscriptedWidth? before (first :: rest)).map (before.length + ·)) := by
  have hround : (first == '(') = false := beq_eq_false_iff_ne.mpr h
  obtain ⟨atom, behind, htext, hatom, -⟩ := Operand.atomWidth_spec (first :: rest)
  rw [operandEnd?, if_neg (by simp), Text.charAt_append_cons, pure_bind, Operand.unscriptedWidth?,
    Text.after?]
  simp only [hround, Bool.false_eq_true, if_false]
  rw [htext] at hatom ⊢
  simp only [List.drop_left, List.take_left, ← hatom]
  rcases List.eq_nil_or_concat atom with rfl | ⟨front, c, rfl⟩
  · simp
  -- The last character of the atom stands in front of the position at which the atom ends.
  have hcut : before ++ (front ++ [c] ++ behind) = before ++ front ++ [c] ++ behind := by simp
  have hlength : before.length + (front ++ [c]).length = (before ++ front ++ [c]).length := by simp
  rw [List.concat_eq_append, hcut, hlength, if_neg (by simp), Text.charAt_concat_append,
    pure_bind, List.drop_left, List.take_left, List.getLast?_concat, ← List.append_assoc,
    Option.some_beq_some]
  have hwidth : (front ++ [c]).length = front.length + 1 := List.length_append
  have hjoined : before.length + (front.length + 1) - 1 = before.length + front.length := rfl
  rw [← hlength, hwidth, hjoined]
  cases (c == '_' && behind.head? == some '(' && (Marker.atEnd? (before ++ front ++ [c])).isNone)
  · exact congrArg pure (ite_add_le before.length (front.length + 1))
  · exact congrArg pure (ite_add_le before.length front.length)

/-- Where the operand behind a cut ends is read off the text behind it. -/
theorem operandEnd?_append (before text : Text) :
    operandEnd? (before ++ text) before.length =
      pure ((Operand.unscriptedWidth? before text).map (before.length + ·)) := by
  cases text with
  | nil => rw [operandEnd?, if_pos (by simp)]; rfl
  | cons first rest =>
    by_cases hfirst : first = '('
    · rw [hfirst]
      exact operandEnd?_group before rest
    · exact operandEnd?_atom before rest hfirst

/-- Moving to the base of a script stays inside the text in front of a cut. -/
theorem baseStart_append (before after : Text) (budget : Nat) {start : Nat}
    (h : start ≤ before.length) :
    baseStart (before ++ after) budget start = pure (Operand.baseStart before budget start) := by
  induction budget generalizing start with
  | zero => rfl
  | succ budget ih =>
    cases start with
    | zero => rfl
    | succ mark =>
      obtain ⟨front, c, back, rfl, rfl⟩ : ∃ front c back, before = front ++ c :: back ∧
          front.length = mark :=
        ⟨before.take mark, before[mark], before.drop (mark + 1), by simp, by simp; omega⟩
      have htake : (front ++ c :: back).take (front.length + 1) = front ++ [c] := by
        rw [← List.singleton_append, ← List.append_assoc]
        exact List.take_left' (by simp)
      rw [baseStart, Operand.baseStart, htake, List.getLast?_concat, List.append_assoc,
        List.cons_append, Text.charAt_append_cons, pure_bind, operandStart?_append, pure_bind,
        Nat.add_sub_cancel, List.take_left, Option.any_some]
      split
      · cases hbase : Operand.unscriptedStart? front with
        | none => rfl
        | some base =>
          have hle : base ≤ (front ++ c :: back).length := by
            obtain ⟨a, b, rfl, rfl, -⟩ := Operand.startsAt_unscripted hbase
            simp
          simpa using ih hle
      · rfl

/-- Widening by scripts stays inside the text behind a cut. -/
theorem scriptedEnd_append (before text : Text) (budget : Nat) {width : Nat}
    (h : width ≤ text.length) :
    scriptedEnd (before ++ text) budget (before.length + width) =
      pure (before.length + Operand.scriptedWidth before text budget width) := by
  induction budget generalizing width with
  | zero => rfl
  | succ budget ih =>
    obtain ⟨a, b, rfl, rfl⟩ : ∃ a b, text = a ++ b ∧ a.length = width :=
      ⟨text.take width, text.drop width, by simp, List.length_take_of_le h⟩
    rw [scriptedEnd, Operand.scriptedWidth, List.drop_left]
    cases b with
    | nil => rw [if_pos (by simp)]
    | cons mark rest =>
      have hcut : before ++ (a ++ mark :: rest) = before ++ a ++ mark :: rest := by simp
      have hlength : before.length + a.length = (before ++ a).length := by simp
      have hnext := operandEnd?_append (before ++ a ++ [mark]) rest
      rw [List.append_assoc (before ++ a), List.singleton_append,
        show (before ++ a ++ [mark]).length = (before ++ a).length + 1 from List.length_append]
        at hnext
      rw [if_neg (by simp), hcut, hlength, hnext, Text.charAt_append_cons, pure_bind, pure_bind,
        List.take_length_add_append, List.take_succ_cons, List.take_zero, ← List.append_assoc]
      by_cases hmark : Operand.isScriptMark mark = true
      · simp only [if_pos hmark]
        cases hmore : Operand.unscriptedWidth? (before ++ a ++ [mark]) rest with
        | none => simp only [Option.map_none, hlength]
        | some more =>
          have hle : a.length + 1 + more ≤ (a ++ mark :: rest).length := by
            obtain ⟨x, y, rfl, rfl, -⟩ := Operand.endsAt_unscripted hmore
            simp
            omega
          simpa [Nat.add_assoc] using ih hle
      · simp only [if_neg hmark, hlength]

/-- A text that starts with a bracket is one group when the bracket is closed at its end. -/
theorem ungrouped_cons (inner : Text) :
    Operand.ungrouped ('(' :: inner) =
      if Delimiters.round.offset? 0 inner = some (inner.length - 1) then inner.dropLast
      else '(' :: inner := by
  rw [Operand.ungrouped, Text.after?_cons_self, Option.bind_some, Delimiters.splitClosing?]
  cases hoffset : Delimiters.round.offset? 0 inner with
  | none => simp
  | some n =>
    obtain ⟨c, -, hinner⟩ := Delimiters.offset?_spec hoffset
    have hlength := congrArg List.length hinner
    simp only [List.length_append, List.length_take, List.length_cons, List.length_drop] at hlength
    simp only [Option.map_some, Option.some.injEq]
    cases hrest : inner.drop (n + 1) with
    | nil =>
      rw [List.drop_eq_nil_iff] at hrest
      rw [if_pos (by omega), List.dropLast_eq_take, show inner.length - 1 = n by omega]
    | cons d rest =>
      have hshort := congrArg List.length hrest
      rw [List.length_drop, List.length_cons] at hshort
      rw [if_neg (by omega)]

/-- A group closes at the last character of an operand exactly when the operand alone is closed
there. -/
theorem closing_getD_iff (before inner after : Text) :
    ((Delimiters.round.offset? 0 (inner ++ after)).map
        fun n => ((before.length + 1 + n : Nat) : Int)).getD (-1) =
        ((before.length + ('(' :: inner).length : Nat) : Int) - 1 ↔
      Delimiters.round.offset? 0 inner = some (inner.length - 1) := by
  rcases eq_or_ne inner [] with rfl | hne
  · cases Delimiters.round.offset? 0 ([] ++ after) with
    | none => simp [Delimiters.offset?]
    | some n => simp [Delimiters.offset?]; omega
  · have hpos := List.length_pos_iff.mpr hne
    rw [← offset?_append_iff after (by omega)]
    cases Delimiters.round.offset? 0 (inner ++ after) <;> simp <;> omega

/-- What stands between the first and the last character of an operand. -/
theorem slice_inside (before : Text) (first : Char) (inner after : Text) :
    Text.slice (before ++ first :: (inner ++ after)) ((before.length : Int) + 1)
      (((before.length + (first :: inner).length : Nat) : Int) - 1) = inner.dropLast := by
  have hstart : (before.length : Int) + 1 = ((before.length + 1 : Nat) : Int) := rfl
  have hstop : ((before.length + (first :: inner).length : Nat) : Int) - 1 =
      ((before.length + inner.length : Nat) : Int) := by
    rw [List.length_cons]
    omega
  rw [hstart, hstop, Text.slice_natCast, List.take_length_add_append, ← List.drop_drop,
    List.drop_left]
  rcases List.eq_nil_or_concat inner with rfl | ⟨front, c, rfl⟩ <;> simp

/-- An operand loses its brackets when they close it, whatever follows it. -/
theorem operandText_append (before after : Text) {operand : Text} (h : operand ≠ []) :
    operandText (before ++ (operand ++ after)) before.length (before.length + operand.length) =
      pure (Operand.ungrouped operand) := by
  have hslice : Text.slice (before ++ (operand ++ after)) before.length
      (before.length + operand.length : Nat) = operand := by
    rw [Text.slice_natCast, ← List.append_assoc, ← List.length_append, List.take_left,
      List.drop_left]
  obtain ⟨first, inner, rfl⟩ := List.exists_cons_of_ne_nil h
  rw [operandText, hslice, List.cons_append, Text.charAt_append_cons, pure_bind]
  by_cases hfirst : first = '('
  · subst hfirst
    rw [if_pos (by decide), closing?_append_cons, pure_bind, ungrouped_cons, slice_inside]
    simp only [closing_getD_iff]
    split <;> rfl
  · rw [if_neg (by simpa using hfirst), Operand.ungrouped, Text.after?,
      if_neg (by simpa using hfirst)]
    rfl

/-! ## Fractions -/

theorem backOverBlanks_append (before after : Text) :
    backOverBlanks (before ++ after) before.length = pure (Text.trimRight before).length := by
  induction before using List.reverseRecOn generalizing after with
  | nil => rfl
  | append_singleton front c ih =>
    rw [List.length_append, List.length_singleton, backOverBlanks, List.append_assoc,
      List.singleton_append, Text.charAt_append_cons, pure_bind, ih (c :: after), Text.trimRight,
      Text.trimRight, List.reverse_concat, List.dropWhile_cons]
    split <;> simp

theorem overBlanks_append (before text : Text) :
    overBlanks (before ++ text) text.length before.length =
      pure (before.length + (text.takeWhile isBlank).length) := by
  induction text generalizing before with
  | nil => rfl
  | cons c rest ih =>
    have hnext := ih (before ++ [c])
    rw [List.append_assoc, List.singleton_append, List.length_append, List.length_singleton]
      at hnext
    rw [List.length_cons, overBlanks, Text.charAt_append_cons, pure_bind, hnext,
      List.takeWhile_cons]
    split
    · rw [List.length_cons, Nat.add_right_comm, Nat.add_assoc]
    · rfl

/-- The operand in front of a cut, where no white space is left, with its base. -/
theorem operandBefore_append {left : Text} {first : Nat} (after : Text)
    (h : Operand.unscriptedStart? left = some first) :
    (do
      let start ← baseStart (left ++ after) left.length first
      return some (⟨start, ← operandText (left ++ after) start left.length,
        (← Text.charAt (left ++ after) ((left.length : Int) - 1)) == ')'⟩ : FractionOperand)) =
      pure ((Operand.start? left).map fun start =>
        ⟨start, Operand.ungrouped (left.drop start), left.getLast? == some ')'⟩) := by
  have hstarts := Operand.startsAt_unscripted h
  have hfirst : first ≤ left.length := by
    obtain ⟨a, b, rfl, rfl, -⟩ := hstarts
    simp
  obtain ⟨a, b, hleft, ha, hne, -⟩ := Operand.startsAt_baseStart left.length hstarts
  rw [baseStart_append left after _ hfirst, pure_bind, Operand.start?, h, Option.map_some,
    Option.map_some, ← ha]
  subst hleft
  have htext := operandText_append a after hne
  rw [← List.append_assoc, ← List.length_append] at htext
  obtain ⟨front, c, rfl⟩ := (List.eq_nil_or_concat b).resolve_left hne
  rw [htext, pure_bind, List.concat_eq_append, ← List.append_assoc, Text.charAt_concat_append,
    pure_bind, List.getLast?_concat, Option.some_beq_some, List.append_assoc, List.drop_left]

/-- **The operand in front of a slash** is read off the text in front of it. -/
theorem operandBefore?_append (before after : Text) :
    operandBefore? (before ++ after) before.length =
      pure ((Operand.start? before.trimRight).map fun start =>
        ⟨start, Operand.ungrouped (before.trimRight.drop start),
          before.trimRight.getLast? == some ')'⟩) := by
  obtain ⟨blanks, hbefore, -⟩ := Text.trimRight_append before
  have hcut : before ++ after = before.trimRight ++ (blanks ++ after) := by
    rw [← List.append_assoc, ← hbefore]
  rw [operandBefore?, backOverBlanks_append, pure_bind, hcut, operandStart?_append, pure_bind]
  cases hstart : Operand.unscriptedStart? before.trimRight with
  | none => rw [Operand.start?, hstart]; rfl
  | some first => exact operandBefore_append _ hstart

theorem unscriptedWidth?_pos {before text : Text} {width : Nat}
    (h : Operand.unscriptedWidth? before text = some width) : 0 < width := by
  rw [Operand.unscriptedWidth?] at h
  split at h
  · obtain ⟨n, -, rfl⟩ := Option.map_eq_some_iff.mp h
    omega
  · obtain ⟨hpositive, hwidth⟩ := Option.ite_none_left_eq_some.mp h
    exact Option.some.inj hwidth ▸ Nat.pos_of_ne_zero hpositive

theorem le_scriptedWidth (before text : Text) (budget width : Nat) :
    width ≤ Operand.scriptedWidth before text budget width := by
  induction budget generalizing width with
  | zero => exact Nat.le_refl width
  | succ budget ih =>
    rw [Operand.scriptedWidth]
    split
    · split
      · split
        · exact (by omega : width ≤ width + 1 + _).trans (ih _)
        · exact Nat.le_refl width
      · exact Nat.le_refl width
    · exact Nat.le_refl width

/-- The operand behind a cut, where no white space is left, with its scripts. -/
theorem operandAfter_append (before : Text) {right : Text} {first : Nat}
    (h : Operand.unscriptedWidth? before right = some first) :
    (do
      let grouped := (← Text.charAt (before ++ right) before.length) == '('
      let stop ← scriptedEnd (before ++ right) right.length (before.length + first)
      return some (⟨stop, ← operandText (before ++ right) before.length stop, grouped⟩ :
        FractionOperand)) =
      pure ((Operand.width? before right).map fun width =>
        ⟨before.length + width, Operand.ungrouped (right.take width),
          right.head? == some '('⟩) := by
  have hends := Operand.endsAt_unscripted h
  have hfirst : first ≤ right.length := by
    obtain ⟨a, b, rfl, rfl, -⟩ := hends
    simp
  have hpositive := (unscriptedWidth?_pos h).trans_le
    (le_scriptedWidth before right right.length first)
  obtain ⟨a, b, hright, ha, -⟩ := Operand.endsAt_scripted right.length hends
  rw [scriptedEnd_append before right _ hfirst, Operand.width?, h, Option.map_some, Option.map_some,
    ← ha]
  rw [← ha] at hpositive
  subst hright
  obtain ⟨c, more, rfl⟩ := List.exists_cons_of_length_pos hpositive
  have hhead : Text.charAt (before ++ (c :: more ++ b)) before.length = pure c :=
    Text.charAt_append_cons before c (more ++ b)
  have hoperand := operandText_append before b (List.cons_ne_nil c more)
  simp only [hhead, hoperand, pure_bind, List.take_left]
  rw [List.cons_append, List.head?_cons, Option.some_beq_some]

/-- A text cut behind the white space that follows a slash. -/
theorem cut_behind_blanks (before after : Text) :
    before ++ '/' :: after.takeWhile isBlank ++ after.trimLeft = before ++ '/' :: after := by
  rw [List.append_assoc, List.cons_append, Text.trimLeft, List.takeWhile_append_dropWhile]

/-- **The operand behind a slash** is read off the text behind it. -/
theorem operandAfter?_append (before after : Text) :
    operandAfter? (before ++ '/' :: after) before.length =
      pure ((Operand.width? (before ++ '/' :: after.takeWhile isBlank) after.trimLeft).map
        fun width => ⟨(before ++ '/' :: after.takeWhile isBlank).length + width,
          Operand.ungrouped (after.trimLeft.take width), after.trimLeft.head? == some '('⟩) := by
  have hstart : overBlanks (before ++ '/' :: after) ((before ++ '/' :: after).length -
      (before.length + 1)) (before.length + 1) =
      pure (before ++ '/' :: after.takeWhile isBlank).length := by
    have hblanks := overBlanks_append (before ++ ['/']) after
    rw [List.append_assoc, List.singleton_append] at hblanks
    convert hblanks using 2 <;> simp <;> omega
  rw [operandAfter?, hstart, pure_bind, ← cut_behind_blanks, operandEnd?_append, pure_bind]
  cases hwidth : Operand.unscriptedWidth? (before ++ '/' :: after.takeWhile isBlank)
      after.trimLeft with
  | none => rw [Operand.width?, hwidth]; rfl
  | some first =>
    have hahead : (before ++ '/' :: after.takeWhile isBlank ++ after.trimLeft).length -
        (before ++ '/' :: after.takeWhile isBlank).length = after.trimLeft.length := by
      rw [List.length_append, Nat.add_sub_cancel_left]
    rw [hahead]
    exact operandAfter_append _ hwidth

/-- **No reading around a slash fails**, and the fraction there is the one between the texts on
either side. -/
theorem fractionAt?_append (grouped : Bool) (before after : Text) :
    fractionAt? grouped (before ++ '/' :: after) before.length =
      pure (Fraction.at? grouped before after) := by
  rw [fractionAt?, operandBefore?_append, operandAfter?_append, pure_bind, pure_bind, Fraction.at?]
  cases hleft : Operand.start? before.trimRight with
  | none => rfl
  | some start =>
    cases hright : Operand.width? (before ++ '/' :: after.takeWhile isBlank) after.trimLeft with
    | none => rfl
    | some width =>
      have hstart : start ≤ before.trimRight.length := by
        obtain ⟨a, b, hab, rfl, -⟩ := Operand.start?_spec hleft
        simp [hab]
      have hfront : (before ++ '/' :: after).take start = before.trimRight.take start := by
        obtain ⟨blanks, hbefore, -⟩ := Text.trimRight_append before
        conv => lhs; rw [hbefore, List.append_assoc, List.take_append_of_le_length hstart]
      have hback : (before ++ '/' :: after).drop
          ((before ++ '/' :: after.takeWhile isBlank).length + width) =
          after.trimLeft.drop width := by
        rw [← cut_behind_blanks before after, List.drop_length_add_append]
      simp only [Option.map_some, hfront, hback]
      split <;> rfl

theorem fractionFrom?_append (grouped : Bool) (behind rest : Text) :
    fractionFrom? grouped (behind.reverse ++ rest) behind.length rest =
      pure (Fraction.findFrom? grouped behind rest) := by
  induction rest generalizing behind with
  | nil => rfl
  | cons c rest ih =>
    have hnext := ih (c :: behind)
    rw [List.reverse_cons, List.append_assoc, List.singleton_append, List.length_cons] at hnext
    rw [fractionFrom?, Fraction.findFrom?, hnext]
    by_cases hslash : c = '/'
    · subst hslash
      have hat := fractionAt?_append grouped behind.reverse rest
      rw [List.length_reverse] at hat
      rw [if_pos (by decide), if_pos (by decide), hat, pure_bind]
      cases Fraction.at? grouped behind.reverse rest <;> rfl
    · rw [if_neg (by simpa using hslash), if_neg (by simpa using hslash)]

/-- **Looking for a fraction never fails.** -/
theorem fractionFrom?_eq (grouped : Bool) (text : Text) :
    fractionFrom? grouped text 0 text = pure (Fraction.find? grouped text) :=
  fractionFrom?_append grouped [] text

/-! ## Exponents, sets and absolute values -/

theorem exponentBase?_append (before after : Text) :
    exponentBase? (before ++ after) before.length = pure (Script.exponentBase? before) := by
  rcases List.eq_nil_or_concat before with rfl | ⟨front, c, rfl⟩
  · rfl
  rw [List.concat_eq_append, exponentBase?, if_neg (by simp), List.take_left, Script.exponentBase?]
  cases Marker.atEnd? (front ++ [c]) with
  | some found => rfl
  | none =>
    rw [Text.charAt_concat_append, pure_bind, List.getLast?_concat]
    by_cases hc : c = ')'
    · subst hc
      simp only [beq_self_eq_true, if_true, opening?_concat_append, List.dropLast_concat,
        Option.map_map, Function.comp_def, Text.slice_natCast, List.take_left]
    · simp only [beq_eq_false_iff_ne.mpr hc, Bool.false_eq_true, if_false]
      split <;> rfl

theorem isGroupArgument_eq (before : Text) :
    isGroupArgument before = pure (SetBuilder.isGroupArgument before) := by
  rcases List.eq_nil_or_concat before with rfl | ⟨front, c, rfl⟩
  · rfl
  have hlast : Text.charAt (front ++ [c]) (-1) = pure c := by
    have hposition : (-1 : Int) + (front ++ [c]).length = front.length := by
      rw [List.length_append, List.length_singleton]
      omega
    rw [Text.charAt, if_pos (by decide), hposition]
    change ((front ++ [c])[front.length]?).elim _ _ = _
    rw [List.getElem?_concat_length]
    rfl
  rw [List.concat_eq_append, isGroupArgument, if_neg (by simp), hlast, pure_bind,
    SetBuilder.isGroupArgument, List.getLast?_concat, Option.any_some]

theorem charBefore?_append (passed rest : Text) :
    charBefore? (passed ++ rest) passed.length = pure passed.getLast? := by
  rcases List.eq_nil_or_concat passed with rfl | ⟨front, c, rfl⟩
  · rfl
  · rw [List.concat_eq_append, charBefore?, if_pos (by simp), Text.charAt_concat_append,
      List.getLast?_concat]
    rfl

theorem charBehind?_append (passed : Text) (c : Char) (rest : Text) :
    charBehind? (passed ++ c :: rest) passed.length = pure rest.head? := by
  cases rest with
  | nil => rw [charBehind?, if_neg (by simp)]; rfl
  | cons d rest =>
    have hnext : Text.charAt (passed ++ c :: d :: rest) ((passed.length : Int) + 1) = pure d :=
      Text.charAt_natCast (n := passed.length + 1) (by simp)
    rw [charBehind?, if_pos (by simp), hnext]
    rfl

theorem walkPipes_append (passed rest : Text) (state : Pipe.State) :
    walkPipes (passed ++ rest) state passed.length rest =
      pure (Pipe.walk state passed.length passed.getLast? rest) := by
  induction rest generalizing passed state with
  | nil => rfl
  | cons c rest ih =>
    have hnext : ∀ state, walkPipes (passed ++ c :: rest) state (passed.length + 1) rest =
        pure (Pipe.walk state (passed.length + 1) (some c) rest) := by
      intro state
      have hrest := ih (passed ++ [c]) state
      rwa [List.append_assoc, List.singleton_append, List.length_append, List.length_singleton,
        List.getLast?_concat] at hrest
    rw [walkPipes, Pipe.walk, charBefore?_append, charBehind?_append, pure_bind, pure_bind]
    split
    · cases Pipe.step state passed.length passed.getLast? rest.head? with
      | none => rfl
      | some state => exact hnext state
    · exact hnext state

/-- **Looking for a pair of pipes never fails.** -/
theorem pipePair?_eq (text : Text) : pipePair? text = pure (Pipe.pair? text) := by
  have hwalk : walkPipes text ⟨[], none⟩ 0 text = _ := walkPipes_append [] text ⟨[], none⟩
  rw [pipePair?, hwalk, pure_bind, Pipe.pair?, List.length_nil, List.getLast?_nil]
  rcases Pipe.walk ⟨[], none⟩ 0 none text with _ | ⟨_ | ⟨innermost, outer⟩, first⟩ <;> rfl

end Checked

end MathNotes
