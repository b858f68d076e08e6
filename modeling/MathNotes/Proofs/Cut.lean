import MathNotes.Bracket.Matching
import MathNotes.Bracket.Pipe
import MathNotes.Bracket.TopLevel
import MathNotes.Proofs.Scan

/-!
# Cuts

Functions that look for a bracket, a separator or a needle cut the text where they find it.  Each
lemma here gives the text back from its parts.
-/

namespace MathNotes

namespace Delimiters

theorem offset?_spec {pair : Delimiters} {depth n : Nat} {text : Text}
    (h : pair.offset? depth text = some n) :
    ∃ c, pair.closes c = true ∧ text = text.take n ++ c :: text.drop (n + 1) := by
  induction text generalizing depth n with
  | nil => cases h
  | cons d rest ih =>
    rw [offset?.eq_def] at h
    simp only at h
    split at h
    · obtain ⟨k, hk, rfl⟩ := Option.map_eq_some_iff.mp h
      obtain ⟨c, hc, hrest⟩ := ih hk
      exact ⟨c, hc, congrArg (d :: ·) hrest⟩
    · split at h
      · rename_i hcloses
        cases depth with
        | zero =>
          cases h
          exact ⟨d, hcloses, rfl⟩
        | succ inner =>
          obtain ⟨k, hk, rfl⟩ := Option.map_eq_some_iff.mp h
          obtain ⟨c, hc, hrest⟩ := ih hk
          exact ⟨c, hc, congrArg (d :: ·) hrest⟩
      · obtain ⟨k, hk, rfl⟩ := Option.map_eq_some_iff.mp h
        obtain ⟨c, hc, hrest⟩ := ih hk
        exact ⟨c, hc, congrArg (d :: ·) hrest⟩

theorem splitClosing?_spec {pair : Delimiters} {text content after : Text}
    (h : pair.splitClosing? text = some (content, after)) :
    ∃ c, pair.closes c = true ∧ text = content ++ c :: after := by
  obtain ⟨n, hn, heq⟩ := Option.map_eq_some_iff.mp h
  cases heq
  exact offset?_spec hn

theorem splitOpening?_spec {pair : Delimiters} {text before content : Text}
    (h : pair.splitOpening? text = some (before, content)) :
    ∃ c, pair.opens c = true ∧ text = before ++ c :: content := by
  obtain ⟨⟨content', before'⟩, hsplit, heq⟩ := Option.map_eq_some_iff.mp h
  cases heq
  obtain ⟨c, hc, htext⟩ := splitClosing?_spec hsplit
  refine ⟨c, hc, ?_⟩
  rw [← List.reverse_reverse text, htext]
  simp

theorem round_splitClosing? {text content after : Text}
    (h : round.splitClosing? text = some (content, after)) : text = content ++ ')' :: after := by
  obtain ⟨c, hc, htext⟩ := splitClosing?_spec h
  obtain rfl : ')' = c := by simpa [closes, round] using hc
  exact htext

theorem curly_splitClosing? {text content after : Text}
    (h : curly.splitClosing? text = some (content, after)) : text = content ++ '}' :: after := by
  obtain ⟨c, hc, htext⟩ := splitClosing?_spec h
  obtain rfl : '}' = c := by simpa [closes, curly] using hc
  exact htext

theorem round_splitOpening? {text before content : Text}
    (h : round.splitOpening? text = some (before, content)) : text = before ++ '(' :: content := by
  obtain ⟨c, hc, htext⟩ := splitOpening?_spec h
  obtain rfl : '(' = c := by simpa [opens, round] using hc
  exact htext

/-! ### Positions -/

section Positions

variable {opener closer : Char}

theorem closing?_natCast (h : opener ≠ closer) (text : Text) (start : Nat) :
    closing? ⟨[opener], [closer]⟩ text start =
      .ok ((offset? ⟨[opener], [closer]⟩ 0 (text.drop start)).map fun n =>
        ((start + n : Nat) : Int)) := by
  rw [closing?, if_neg (by simpa using h)]
  change Except.ok (Option.map _ (offset? _ 0 (text.drop start) >>= fun n => pure (n : Int))) = _
  cases offset? ⟨[opener], [closer]⟩ 0 (text.drop start) <;> rfl

theorem opening?_natCast (text : Text) (stop : Nat) :
    opening? ⟨[opener], [closer]⟩ text stop =
      if text[stop]? = some closer then
        (offset? ⟨[closer], [opener]⟩ 0 (text.take stop).reverse).map (stop - 1 - ·)
      else none := by
  have hcloses : (text[stop]?).any (closes ⟨[opener], [closer]⟩) = true ↔
      text[stop]? = some closer := by
    simp [Option.any_eq_true, closes]
  change (if (text[stop]?).any (closes ⟨[opener], [closer]⟩) = true then _ else none) = _
  simp only [hcloses]
  rfl

end Positions

end Delimiters

namespace Text

/-- A slice between two positions that count from the front. -/
theorem slice_natCast (text : Text) (start stop : Nat) :
    slice text start stop = (text.take stop).drop start := by
  have hgap : ∀ n : Nat, gapAt text n = min n text.length := fun n => by
    rw [gapAt, if_neg (by omega), Int.toNat_natCast]
  rw [slice, hgap, hgap, ← List.take_eq_take_min]
  rcases Nat.le_total start text.length with hstart | hstart
  · rw [Nat.min_eq_left hstart]
  · rw [Nat.min_eq_right hstart, List.drop_of_length_le (List.length_take_le' ..),
      List.drop_of_length_le ((List.length_take_le' ..).trans hstart)]

theorem charAt_natCast {text : Text} {n : Nat} {c : Char} (h : text[n]? = some c) :
    charAt text n = .ok c := by
  rw [charAt, if_neg (by omega)]
  change (text[n]?).elim _ _ = _
  rw [h]
  rfl

theorem breakOn?_spec {needle text before after : Text}
    (h : breakOn? needle text = some (before, after)) : text = before ++ (needle ++ after) := by
  induction text generalizing before with
  | nil =>
    rw [breakOn?] at h
    split at h
    · rename_i hneedle
      cases h
      simpa using hneedle
    · cases h
  | cons c rest ih =>
    rw [breakOn?] at h
    split at h
    · rename_i hfound
      cases h
      rw [List.nil_append]
      exact isPrefixOf?_eq_some_iff.mp hfound
    · obtain ⟨⟨before', after'⟩, hrest, heq⟩ := Option.map_eq_some_iff.mp h
      cases heq
      rw [List.cons_append, ih hrest]

theorem splitTopFrom_ne_nil (separator : Text) (depth : Nat) (text : Text) :
    splitTopFrom separator depth text ≠ [] := by
  cases text with
  | nil => simp [splitTopFrom]
  | cons c rest =>
    rw [splitTopFrom]
    split
    · simp
    · split <;> simp

theorem join_splitTopFrom (separator : Text) (depth : Nat) (text : Text) :
    join separator (splitTopFrom separator depth text) = text := by
  induction text generalizing depth with
  | nil => rfl
  | cons d rest ih =>
    rw [splitTopFrom]
    have hrest := ih (bracketDepth depth d)
    have hne := splitTopFrom_ne_nil separator (bracketDepth depth d) rest
    generalize splitTopFrom separator (bracketDepth depth d) rest = parts at hrest hne
    cases parts with
    | nil => exact absurd rfl hne
    | cons part parts =>
      split
      · rename_i hd
        obtain ⟨rfl, -⟩ : separator = [d] ∧ _ := by simpa using hd
        rw [← hrest]
        simp [join, List.intercalate]
      · rw [← hrest]
        cases parts <;> simp [join, List.intercalate]

/-- The parts between separators, with the separators, are the text. -/
theorem join_splitTop (separator text : Text) : join separator (splitTop separator text) = text :=
  join_splitTopFrom separator 0 text

theorem findTopFrom?_spec {target : Char} {depth n : Nat} {text : Text}
    (h : findTopFrom? [target] depth text = some n) :
    text = text.take n ++ target :: text.drop (n + 1) := by
  induction text generalizing depth n with
  | nil => cases h
  | cons c rest ih =>
    rw [findTopFrom?] at h
    split at h
    · obtain ⟨k, hk, rfl⟩ := Option.map_eq_some_iff.mp h
      exact congrArg (c :: ·) (ih hk)
    · split at h
      · obtain ⟨k, hk, rfl⟩ := Option.map_eq_some_iff.mp h
        exact congrArg (c :: ·) (ih hk)
      · split at h
        · rename_i htarget
          cases h
          obtain ⟨rfl, -⟩ : target = c ∧ _ := by simpa using htarget
          rfl
        · obtain ⟨k, hk, rfl⟩ := Option.map_eq_some_iff.mp h
          exact congrArg (c :: ·) (ih hk)

theorem findTop?_spec {target : Char} {n : Nat} {text : Text}
    (h : findTop? [target] text = some n) : text = text.take n ++ target :: text.drop (n + 1) :=
  findTopFrom?_spec h

end Text

/-! ## Pipes -/

namespace Pipe

/-- The positions that a walk holds are positions of pipes in the text that it has passed, and a
pair is in order. -/
structure Marks (passed : Text) (state : State) : Prop where
  opened : ∀ i ∈ state.opened, passed[i]? = some '|'
  first : ∀ p ∈ state.first, p.1 < p.2 ∧ passed[p.1]? = some '|' ∧ passed[p.2]? = some '|'

theorem getElem?_grow {passed : Text} {i : Nat} (h : passed[i]? = some '|') (more : Text) :
    (passed ++ more)[i]? = some '|' := by
  rw [List.getElem?_append_left (List.getElem?_eq_some_iff.mp h).1, h]

theorem Marks.grow {passed : Text} {state : State} (h : Marks passed state) (more : Text) :
    Marks (passed ++ more) state where
  opened i hi := getElem?_grow (h.opened i hi) more
  first p hp := by
    obtain ⟨hlt, h₁, h₂⟩ := h.first p hp
    exact ⟨hlt, getElem?_grow h₁ more, getElem?_grow h₂ more⟩

/-- One pipe: it opens, or it closes the innermost open one. -/
theorem Marks.step {passed : Text} {state state' : State} {previous next : Option Char}
    (h : Marks passed state) (hstep : step state passed.length previous next = some state') :
    Marks (passed ++ ['|']) state' := by
  have hgrow := h.grow ['|']
  have hhere : (passed ++ ['|'])[passed.length]? = some '|' := by simp
  rw [Pipe.step] at hstep
  split at hstep
  · cases hstep
    exact ⟨fun i hi => (List.mem_cons.mp hi).elim (fun he => he ▸ hhere) (hgrow.opened i),
      hgrow.first⟩
  · split at hstep
    · cases hstep
    · rename_i innermost outer hopened
      cases hstep
      have hmem : innermost ∈ state.opened := by simp [hopened]
      refine ⟨fun i hi => hgrow.opened i (by simp [hopened, hi]), fun p hp => ?_⟩
      rw [Option.mem_def, Option.or_eq_some_iff] at hp
      rcases hp with hp | ⟨-, hp⟩
      · exact hgrow.first p hp
      · cases hp
        exact ⟨(List.getElem?_eq_some_iff.mp (h.opened _ hmem)).1, hgrow.opened _ hmem, hhere⟩

theorem Marks.walk {passed text : Text} {state state' : State} {previous : Option Char}
    (h : Marks passed state) (hwalk : walk state passed.length previous text = some state') :
    Marks (passed ++ text) state' := by
  induction text generalizing passed state previous with
  | nil =>
    cases hwalk
    simpa using h
  | cons c rest ih =>
    have hlength : passed.length + 1 = (passed ++ [c]).length := by simp
    rw [Pipe.walk] at hwalk
    rw [show passed ++ c :: rest = (passed ++ [c]) ++ rest by simp]
    split at hwalk
    · rename_i hc
      rw [beq_iff_eq] at hc
      subst hc
      split at hwalk
      · cases hwalk
      · rename_i hstep
        rw [hlength] at hwalk
        exact ih (h.step hstep) hwalk
    · rw [hlength] at hwalk
      exact ih (h.grow [c]) hwalk

/-- **The text is cut at a pair of pipes.** -/
theorem pair?_spec {text : Text} {first last : Nat} (h : pair? text = some (first, last)) :
    text = text.take first ++ '|' :: ((text.take last).drop (first + 1) ++
      '|' :: text.drop (last + 1)) := by
  rw [pair?] at h
  split at h
  · rename_i found hwalk
    subst h
    have hstart : Marks [] ⟨[], none⟩ := ⟨by simp, by simp⟩
    obtain ⟨hlt, hfirst, hlast⟩ := (hstart.walk hwalk).first (first, last) rfl
    simp only [List.nil_append] at hlt hfirst hlast
    have hfront : (text.take last)[first]? = some '|' := by
      rw [List.getElem?_take_of_lt hlt, hfirst]
    have hcut := eq_take_cons_drop hfront
    rw [List.take_take, Nat.min_eq_left hlt.le] at hcut
    rw [← List.cons_append, ← List.append_assoc, ← hcut]
    exact eq_take_cons_drop hlast
  · cases h

end Pipe

end MathNotes
