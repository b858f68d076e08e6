import MathNotes.Proofs.LooseBraces

/-!
# Delimiters that belong together

A group can be found from either end: `closing?` walks from the opening delimiter to the right, and
`opening?` walks from the closing delimiter to the left.  Both count, and neither looks beyond the
group, so unmatched delimiters around it do not matter.

What makes two delimiters a pair is said without a walk (`Encloses`): what stands between them
closes the groups that it opens, and no others.  Read from right to left with the delimiters
swapped, such a text is again one (`Text.Matched.reverse`), so each walk finds exactly these pairs
(`closing?_iff_encloses`, `opening?_iff_encloses`), and the two are inverse to each other.
-/

namespace MathNotes

variable {opener closer : Char} {text : Text}

namespace Text

/-- **Read from right to left, matched delimiters are matched**: what a suffix opens beyond what it
closes would be missing from the prefix in front of it. -/
theorem Matched.reverse (h : text.Matched opener closer) :
    Matched closer opener text.reverse where
  closing_le := by
    intro read hread
    obtain ⟨front, hfront⟩ : read.reverse <:+ text := by
      rw [← List.reverse_reverse text]
      exact List.reverse_suffix.mpr hread
    have hle := h.closing_le front ⟨read.reverse, hfront⟩
    have heq := h.closing_eq
    rw [← hfront, List.count_append, List.count_append, List.count_reverse,
      List.count_reverse] at heq
    omega
  closing_eq := by
    rw [List.count_reverse, List.count_reverse]
    exact h.closing_eq.symm

/-- A slice between two positions is what stands between them. -/
theorem slice_append (before content after : Text) :
    slice (before ++ (content ++ after)) before.length (before.length + content.length : Nat) =
      content := by
  rw [slice_natCast, ← List.append_assoc, ← List.length_append, List.take_left, List.drop_left]

end Text

namespace Delimiters

/-- A text that closes no more groups than are open is walked over; what it leaves open is open
behind it. -/
theorem offset?_append_counted (h : opener ≠ closer) {content : Text} {depth inner : Nat}
    (hread : ∀ read, read <+: content → read.count closer ≤ read.count opener + depth)
    (htotal : inner + content.count closer = depth + content.count opener) (rest : Text) :
    offset? ⟨[opener], [closer]⟩ depth (content ++ rest) =
      (offset? ⟨[opener], [closer]⟩ inner rest).map (· + content.length) := by
  induction content generalizing depth with
  | nil =>
    obtain rfl : inner = depth := by simpa using htotal
    simp
  | cons c content ih =>
    rcases offset?_cons h depth c (content ++ rest) with
      ⟨rfl, rfl, -⟩ | ⟨next, hnext, hrest⟩
    · have hfirst := hread [c] ⟨content, rfl⟩
      simp [h.symm] at hfirst
    · rw [← List.singleton_append, List.count_append, List.count_append] at htotal
      have hmore : ∀ read, read <+: content → read.count closer ≤ read.count opener + next := by
        intro read hprefix
        have hle := hread (c :: read) (List.cons_prefix_cons.mpr ⟨rfl, hprefix⟩)
        rw [← List.singleton_append, List.count_append, List.count_append] at hle
        omega
      rw [List.cons_append, hrest, ih hmore (by omega), Option.map_map]
      rfl

/-- **A group ends behind its content**: the walk stops at a closing delimiter exactly when what it
has passed is matched. -/
theorem offset?_eq_some_iff (h : opener ≠ closer) {n : Nat} :
    offset? ⟨[opener], [closer]⟩ 0 text = some n ↔
      ∃ content after, text = content ++ closer :: after ∧ content.length = n ∧
        content.Matched opener closer := by
  constructor
  · intro hsome
    obtain ⟨c, hc, htext⟩ := offset?_spec hsome
    obtain rfl : closer = c := by simpa [closes] using hc
    obtain ⟨hread, htotal⟩ := count_of_offset?_some h hsome
    have hlength : (text.take n).length = n := by
      rw [List.length_take, Nat.min_eq_left]
      have := congrArg List.length htext
      simp only [List.length_append, List.length_take, List.length_cons] at this
      omega
    exact ⟨text.take n, text.drop (n + 1), htext, hlength, hread, htotal⟩
  · rintro ⟨content, after, rfl, rfl, hinside⟩
    have htotal : 0 + content.count closer = 0 + content.count opener := by
      rw [hinside.closing_eq]
    have hread : ∀ read, read <+: content → read.count closer ≤ read.count opener + 0 :=
      hinside.closing_le
    rw [offset?_append_counted h hread htotal, offset?.eq_def]
    simp [opens, closes, h]

/-- A delimiter at `first` and one at `last` belong together: what stands between them closes the
groups that it opens, and no others. -/
def Encloses (opener closer : Char) (text : Text) (first last : Nat) : Prop :=
  ∃ before content after : Text, text = before ++ opener :: (content ++ closer :: after) ∧
    before.length = first ∧ first + 1 + content.length = last ∧ content.Matched opener closer

/-! ## From the opening delimiter -/

theorem closing?_iff_encloses (h : opener ≠ closer) {first last : Nat} :
    text[first]? = some opener ∧
        closing? ⟨[opener], [closer]⟩ text (first + 1) = .ok (some last) ↔
      Encloses opener closer text first last := by
  have hclosing := closing?_natCast h text (first + 1)
  rw [Nat.cast_succ] at hclosing
  rw [hclosing, Except.ok.injEq, Option.map_eq_some_iff]
  constructor
  · rintro ⟨hfirst, n, hn, hlast⟩
    obtain ⟨content, after, hrest, rfl, hinside⟩ := (offset?_eq_some_iff h).mp hn
    have htext := eq_take_cons_drop hfirst
    have hlength := (List.getElem?_eq_some_iff.mp hfirst).1
    rw [hrest] at htext
    refine ⟨text.take first, content, after, htext, ?_, Int.ofNat.inj hlast, hinside⟩
    rw [List.length_take, Nat.min_eq_left hlength.le]
  · rintro ⟨before, content, after, rfl, rfl, rfl, hinside⟩
    refine ⟨by simp, content.length, (offset?_eq_some_iff h).mpr ⟨content, after, ?_, rfl, hinside⟩,
      rfl⟩
    rw [← List.drop_drop, List.drop_left, List.drop_one, List.tail_cons]

/-! ## From the closing delimiter -/

theorem opening?_iff_encloses (h : opener ≠ closer) {first last : Nat} :
    opening? ⟨[opener], [closer]⟩ text last = some first ↔
      Encloses opener closer text first last := by
  rw [opening?_natCast, Option.ite_none_right_eq_some, Option.map_eq_some_iff]
  constructor
  · rintro ⟨hlast, n, hn, hfirst⟩
    obtain ⟨content, before, hfront, rfl, hinside⟩ := (offset?_eq_some_iff h.symm).mp hn
    have hlength := (List.getElem?_eq_some_iff.mp hlast).1
    have htake : text.take last = before.reverse ++ opener :: content.reverse := by
      rw [← List.reverse_reverse (text.take last), hfront]
      simp
    have hcount : last = before.length + 1 + content.length := by
      have := congrArg List.length htake
      simp only [List.length_take, Nat.min_eq_left hlength.le, List.length_append,
        List.length_reverse, List.length_cons] at this
      omega
    refine ⟨before.reverse, content.reverse, text.drop (last + 1), ?_, ?_, ?_, hinside.reverse⟩
    · conv => lhs; rw [eq_take_cons_drop hlast, htake]
      simp
    · rw [List.length_reverse]
      omega
    · rw [List.length_reverse]
      omega
  · rintro ⟨before, content, after, rfl, rfl, rfl, hinside⟩
    have hcut : before ++ opener :: (content ++ closer :: after) =
        (before ++ opener :: content) ++ closer :: after := by simp
    have hlength : before.length + 1 + content.length = (before ++ opener :: content).length := by
      simp only [List.length_append, List.length_cons]
      omega
    rw [hcut, hlength, List.take_left]
    refine ⟨by simp, content.length, (offset?_eq_some_iff h.symm).mpr
      ⟨content.reverse, before.reverse, by simp, List.length_reverse, hinside.reverse⟩, ?_⟩
    rw [← hlength]
    omega

/-! ## The group -/

theorem Encloses.slice {first last : Nat} (h : Encloses opener closer text first last) :
    (Text.slice text (first + 1) last).Matched opener closer := by
  obtain ⟨before, content, after, rfl, rfl, rfl, hinside⟩ := h
  have hslice := Text.slice_append (before ++ [opener]) content (closer :: after)
  rw [List.append_assoc, List.singleton_append, List.length_append, List.length_singleton] at hslice
  rw [← Nat.cast_succ, Nat.succ_eq_add_one, hslice]
  exact hinside

theorem Encloses.group? (h : opener ≠ closer) {first last : Nat}
    (henclosed : Encloses opener closer text first last) :
    Delimiters.group? ⟨[opener], [closer]⟩ text first =
      .ok (some (Text.slice text (first + 1) last, (last : Int) + 1)) := by
  obtain ⟨hfirst, hclosing⟩ := (closing?_iff_encloses h).mpr henclosed
  have hlength := (List.getElem?_eq_some_iff.mp hfirst).1
  have hopens : (!opens ⟨[opener], [closer]⟩ opener) = false := by simp [opens]
  rw [Delimiters.group?, if_neg (by omega), Text.charAt_natCast hfirst]
  change (if (!opens ⟨[opener], [closer]⟩ opener) = true then _ else _) = _
  rw [hopens, if_neg Bool.false_ne_true, hclosing]
  change (if (last : Int) = -1 then pure none
    else pure (some (Text.slice text (first + 1) last, (last : Int) + 1))) = Except.ok _
  exact if_neg (by omega)

/-- **Matching from the left and from the right are inverse to each other.**  Both find exactly the
delimiters that belong together; what stands between these is matched, and is the content of the
group. -/
theorem closing?_iff_opening? (opener closer : Char) (h : opener ≠ closer) (text : Text)
    (first last : Nat) :
    (text[first]? = some opener ∧
          closing? ⟨[opener], [closer]⟩ text (first + 1) = .ok (some last) ↔
        opening? ⟨[opener], [closer]⟩ text last = some first) ∧
      (opening? ⟨[opener], [closer]⟩ text last = some first ↔
        Encloses opener closer text first last) ∧
      (opening? ⟨[opener], [closer]⟩ text last = some first →
        (Text.slice text (first + 1) last).Matched opener closer ∧
          group? ⟨[opener], [closer]⟩ text first =
            .ok (some (Text.slice text (first + 1) last, (last : Int) + 1))) := by
  refine ⟨(closing?_iff_encloses h).trans (opening?_iff_encloses h).symm, opening?_iff_encloses h,
    fun hopening => ?_⟩
  have henclosed := (opening?_iff_encloses h).mp hopening
  exact ⟨henclosed.slice, henclosed.group? h⟩

theorem closing?_iff_opening?_unmatched :
    '(' ≠ ')' ∧ opening? ⟨['('], [')']⟩ "x)(a(b)c)((" 8 = some 2 ∧
      closing? ⟨['('], [')']⟩ "x)(a(b)c)((" 3 = .ok (some 8) ∧
      Text.Matched '(' ')' "a(b)c" ∧
      group? ⟨['('], [')']⟩ "x)(a(b)c)((" 2 = .ok (some ("a(b)c", 9)) := by
  obtain ⟨hiff, -, hgroup⟩ := closing?_iff_opening? '(' ')' (by decide) "x)(a(b)c)((" 2 8
  have hopening : opening? ⟨['('], [')']⟩ "x)(a(b)c)((" (8 : Nat) = some 2 := by decide
  exact ⟨by decide, hopening, (hiff.mpr hopening).2, (hgroup hopening).1, (hgroup hopening).2⟩

end Delimiters

end MathNotes
