import MathNotes.Fragment.Resolution
import MathNotes.Proofs.Table
import Mathlib.Data.Nat.Digits.Lemmas

/-!
# Passes and full expansions

Resolving replaces all markers of a line at once, pass after pass.  The full expansion of a line
(`Fragments.expand`) goes depth first instead, and the nesting height (`Fragments.height`) says how
deep it goes.  For a line and a table in which markers stand for earlier fragments, a pass keeps the
expansion and lowers the height by one (`Table.expand_pass`, `Table.height_pass`), so that a budget
of passes is enough exactly when it reaches the height (`Table.resolveFrom_spec`).
-/

namespace MathNotes

/-! ## Numbers that are short enough to be read -/

namespace Fault

/-- What can be counted to the limit is counted with far fewer digits. -/
theorem le_pow_digitLimit {n : Nat} (h : n ≤ digitLimit) : n ≤ 10 ^ digitLimit :=
  h.trans (Nat.lt_pow_self (by decide)).le

theorem length_textOfNat_le {n : Nat} (h : n < 10 ^ digitLimit) :
    (Text.ofNat n).length ≤ digitLimit :=
  (Nat.length_toDigits_le_iff (by decide) (by decide)).mpr h

end Fault

/-! ## Expansion and height of texts -/

namespace Fragments

/-- The full expansion of a text, depth first: every marker of one of the first `bound` fragments is
replaced by the full expansion of its fragment, whose own markers stand for earlier ones. -/
def expandBelow (fragments : Fragments) (bound : Nat) (text : Text) : Text :=
  Marker.pattern.replace (fun digits =>
    if decimalNumber digits < bound then
      expandBelow fragments (decimalNumber digits) (fragments.getD (decimalNumber digits) [])
    else Marker.ofDigits digits) text
termination_by bound

/-- The full expansion of a text. -/
def expand (fragments : Fragments) (text : Text) : Text :=
  fragments.expandBelow fragments.length text

/-- The greatest of some numbers, zero if there are none. -/
def greatest (numbers : List Nat) : Nat := numbers.foldr max 0

/-- The nesting height of a text whose markers stand for the first `bound` fragments: zero without
markers, and otherwise one more than the greatest height of the fragments that they stand for. -/
def heightBelow (fragments : Fragments) (bound : Nat) (text : Text) : Nat :=
  greatest ((Marker.pattern.hits text).map fun digits =>
    if decimalNumber digits < bound then
      heightBelow fragments (decimalNumber digits) (fragments.getD (decimalNumber digits) []) + 1
    else 1)
termination_by bound

/-- The nesting height of a text. -/
def height (fragments : Fragments) (text : Text) : Nat :=
  fragments.heightBelow fragments.length text

@[simp] theorem greatest_nil : greatest [] = 0 := rfl

@[simp] theorem greatest_cons (n : Nat) (numbers : List Nat) :
    greatest (n :: numbers) = max n (greatest numbers) := rfl

theorem greatest_append (a b : List Nat) : greatest (a ++ b) = max (greatest a) (greatest b) := by
  induction a with
  | nil => simp
  | cons n a ih => rw [List.cons_append, greatest_cons, ih, greatest_cons, Nat.max_assoc]

theorem greatest_le {bound : Nat} {numbers : List Nat} (h : ∀ n ∈ numbers, n ≤ bound) :
    greatest numbers ≤ bound := by
  induction numbers with
  | nil => simp
  | cons n numbers ih =>
    have hn := h n List.mem_cons_self
    have hrest := ih fun k hk => h k (List.mem_cons_of_mem _ hk)
    rw [greatest_cons]
    omega

theorem greatest_map_flatMap (f : Nat → Nat) (g : Nat → List Nat) (numbers : List Nat) :
    greatest ((numbers.flatMap g).map f) =
      greatest (numbers.map fun n => greatest ((g n).map f)) := by
  induction numbers with
  | nil => rfl
  | cons n numbers ih =>
    rw [List.flatMap_cons, List.map_append, greatest_append, ih, List.map_cons, greatest_cons]

theorem greatest_map_succ (f : Nat → Nat) (numbers : List Nat) :
    greatest (numbers.map f) = greatest (numbers.map fun n => f n + 1) - 1 := by
  induction numbers with
  | nil => rfl
  | cons n numbers ih =>
    simp only [List.map_cons, greatest_cons, ih]
    omega

theorem greatest_map_pos {f : Nat → Nat} {numbers : List Nat} :
    0 < greatest (numbers.map fun n => f n + 1) ↔ numbers ≠ [] := by
  cases numbers with
  | nil => simp
  | cons n numbers =>
    simp only [List.map_cons, greatest_cons, ne_eq, reduceCtorEq, not_false_eq_true, iff_true]
    omega

end Fragments

namespace Table

variable {G : Table} {w : Marked}

/-! ## Both as functions of the sequence -/

theorem texts_getD (G : Table) (n : Nat) : G.texts.getD n [] = (G.getD n []).text := by
  simp only [texts, List.getD_eq_getElem?_getD, List.getElem?_map]
  cases G[n]? <;> rfl

/-- A fragment of which a marker stands in a text is expanded inside it. -/
theorem value_within {n : Nat} (hn : n ∈ w.numbers) : G.value n <:+: G.expand w :=
  Marked.fill_within G.value hn

theorem Ready.fragment (hG : G.Backward) (h : G.Ready w) {n : Nat} (hn : n ∈ w.numbers) :
    G.Ready (G.getD n []) where
  covers m hm := (hG n m hm).trans (h.covers n hn)
  clear := by
    rw [← hG.value_eq]
    exact h.clear.within (value_within hn)

theorem expandBelow_text (hG : G.Backward) (bound : Nat) (h : G.Ready w)
    (hbound : ∀ n ∈ w.numbers, n < bound) : G.texts.expandBelow bound w.text = G.expand w := by
  induction bound using Nat.strongRecOn generalizing w with
  | ind bound ih =>
    rw [Fragments.expandBelow, Marked.replace_text h.tidy]
    refine Marked.fill_congr _ fun n hn => ?_
    rw [decimalNumber_ofNat, if_pos (hbound n hn), texts_getD,
      ih n (hbound n hn) (h.fragment hG hn) (hG n), hG.value_eq]

/-- **The expansion of a line is the expansion of its sequence.** -/
theorem expand_text (hG : G.Backward) (h : G.Ready w) : G.texts.expand w.text = G.expand w := by
  refine expandBelow_text hG _ h ?_
  rw [texts_length]
  exact h.covers

/-- The height of a fragment. -/
def rank (G : Table) (n : Nat) : Nat := G.texts.heightBelow n (G.getD n []).text

theorem heightBelow_text (bound : Nat) (h : w.Tidy) (hbound : ∀ n ∈ w.numbers, n < bound) :
    G.texts.heightBelow bound w.text =
      Fragments.greatest (w.numbers.map fun n => G.rank n + 1) := by
  rw [Fragments.heightBelow, Marked.hits_text h, List.map_map]
  refine congrArg Fragments.greatest (List.map_congr_left fun n hn => ?_)
  rw [Function.comp_apply, decimalNumber_ofNat, if_pos (hbound n hn), texts_getD, rank]

theorem height_text (h : G.Ready w) :
    G.texts.height w.text = Fragments.greatest (w.numbers.map fun n => G.rank n + 1) := by
  refine heightBelow_text _ h.tidy ?_
  rw [texts_length]
  exact h.covers

theorem rank_eq (hG : G.Backward) {n : Nat} (h : G.Ready (G.getD n [])) :
    G.rank n = Fragments.greatest ((G.getD n []).numbers.map fun m => G.rank m + 1) :=
  heightBelow_text n h.tidy (hG n)

theorem height_fragment (hG : G.Backward) {n : Nat} (h : G.Ready (G.getD n [])) :
    G.texts.height (G.getD n []).text = G.rank n := by
  rw [height_text h, rank_eq hG h]

theorem rank_le (hG : G.Backward) {n : Nat} (h : G.Ready (G.getD n [])) :
    G.rank n ≤ n := by
  induction n using Nat.strongRecOn with
  | ind n ih =>
    rw [rank_eq hG h]
    refine Fragments.greatest_le fun k hk => ?_
    obtain ⟨m, hm, rfl⟩ := List.mem_map.mp hk
    exact (Nat.succ_le_succ (ih m (hG n m hm) (h.fragment hG hm))).trans (hG n m hm)

theorem height_le (hG : G.Backward) (h : G.Ready w) : G.texts.height w.text ≤ G.length := by
  rw [height_text h]
  refine Fragments.greatest_le fun k hk => ?_
  obtain ⟨m, hm, rfl⟩ := List.mem_map.mp hk
  exact (Nat.succ_le_succ (rank_le hG (h.fragment hG hm))).trans (h.covers m hm)

/-! ## One pass -/

/-- One pass: every marker is replaced by its fragment. -/
def pass (G : Table) (w : Marked) : Marked :=
  w.flatMap fun
    | .char c => [.char c]
    | .hit n => G.getD n []

theorem numbers_pass (G : Table) (w : Marked) :
    (G.pass w).numbers = w.numbers.flatMap fun n => (G.getD n []).numbers := by
  induction w with
  | nil => rfl
  | cons x w ih =>
    cases x with
    | char c => exact ih
    | hit n =>
      rw [pass, List.flatMap_cons, Marked.numbers_append, Marked.numbers_hit, List.flatMap_cons,
        ← ih]
      rfl

/-- **A pass keeps the full expansion.** -/
theorem expand_pass (hG : G.Backward) (w : Marked) : G.expand (G.pass w) = G.expand w := by
  induction w with
  | nil => rfl
  | cons x w ih =>
    cases x with
    | char c => exact congrArg (c :: ·) ih
    | hit n =>
      rw [pass, List.flatMap_cons, expand_append, expand_hit, hG.value_eq, ← ih]
      rfl

theorem Ready.pass (hG : G.Backward) (h : G.Ready w) : G.Ready (G.pass w) where
  covers m hm := by
    rw [numbers_pass, List.mem_flatMap] at hm
    obtain ⟨n, hn, hm⟩ := hm
    exact (hG n m hm).trans (h.covers n hn)
  clear := by
    rw [expand_pass hG]
    exact h.clear

/-- **A pass lowers the height by one.** -/
theorem height_pass (hG : G.Backward) (h : G.Ready w) :
    G.texts.height (G.pass w).text = G.texts.height w.text - 1 := by
  rw [height_text (h.pass hG), height_text h, numbers_pass, Fragments.greatest_map_flatMap,
    ← Fragments.greatest_map_succ]
  refine congrArg Fragments.greatest (List.map_congr_left fun n hn => ?_)
  rw [rank_eq hG (h.fragment hG hn)]

theorem occursIn_text (h : G.Ready w) :
    Marker.occursIn w.text = decide (0 < G.texts.height w.text) := by
  rw [height_text h, Marker.occursIn, Pattern.occursIn, Marked.hits_text h.tidy, Bool.eq_iff_iff,
    decide_eq_true_iff, Fragments.greatest_map_pos]
  simp

/-- Without markers a line is its own expansion. -/
theorem text_eq_expand (h : G.Ready w) (hzero : G.texts.height w.text = 0) :
    w.text = G.expand w := by
  have hnone : w.numbers = [] := by
    by_contra hne
    rw [height_text h] at hzero
    have hpos := Fragments.greatest_map_pos (f := G.rank) |>.mpr hne
    omega
  rw [Marked.eq_plain_of_numbers hnone, Marked.text_plain, expand_plain]

/-! ## Reading the fragments -/

theorem lookup_texts {n : Nat} (hn : n < G.length) :
    G.texts.lookup (Text.ofNat n) =
      if Fault.digitLimit < (Text.ofNat n).length then .error (.longMarker (Text.ofNat n).length)
      else .ok (G.getD n []).text := by
  rw [Fragments.lookup, decimalNumber_ofNat]
  simp [texts, hn]

theorem mapM_ok_iff {α β : Type} {f : α → Except Fault β} {items : List α} {results : List β} :
    items.mapM f = .ok results ↔ List.Forall₂ (fun x y => f x = .ok y) items results := by
  induction items generalizing results with
  | nil => simp [pure, Except.pure, eq_comm]
  | cons x items ih =>
    rw [List.mapM_cons, List.forall₂_cons_left_iff]
    cases hx : f x with
    | error e => simp [bind, Except.bind]
    | ok y =>
      cases hr : items.mapM f with
      | error e =>
        simp only [hr, reduceCtorEq, false_iff] at ih
        simp [bind, Except.bind, ih]
      | ok ys =>
        simp only [hr, Except.ok.injEq] at ih
        simp [bind, Except.bind, pure, Except.pure, ← ih, eq_comm]

/-- What a pass reads for an item. -/
def readItem (G : Table) : Piece Nat → Except Fault Text
  | .char c => .ok [c]
  | .hit n => G.texts.lookup (Text.ofNat n)

/-- What a pass writes for an item. -/
def passItem (G : Table) : Piece Nat → Text
  | .char c => [c]
  | .hit n => (G.getD n []).text

theorem text_pass (G : Table) (w : Marked) : (G.pass w).text = (w.map G.passItem).flatten := by
  induction w with
  | nil => rfl
  | cons x w ih =>
    rw [pass, List.flatMap_cons, Marked.text_append, List.map_cons, List.flatten_cons, ← ih]
    cases x <;> rfl

theorem readItem_eq_ok_iff {x : Piece Nat} (hx : G.Covers [x]) {item : Text} :
    G.readItem x = .ok item ↔
      item = G.passItem x ∧ ∀ n ∈ Marked.numbers [x], (Text.ofNat n).length ≤ Fault.digitLimit := by
  cases x with
  | char c => simp [readItem, passItem, eq_comm]
  | hit n =>
    have hn : n < G.length := hx n List.mem_cons_self
    simp only [readItem, lookup_texts hn, passItem, Marked.numbers_hit, Marked.numbers_nil,
      List.mem_singleton, forall_eq]
    split
    · simp only [reduceCtorEq, false_iff, not_and]
      omega
    · simp only [Except.ok.injEq]
      exact ⟨fun h => ⟨h.symm, by omega⟩, fun h => h.1.symm⟩

theorem mapM_readItem_eq_ok_iff (h : G.Covers w) {parts : List Text} :
    w.mapM G.readItem = .ok parts ↔
      parts = w.map G.passItem ∧ ∀ n ∈ w.numbers, (Text.ofNat n).length ≤ Fault.digitLimit := by
  rw [mapM_ok_iff]
  induction w generalizing parts with
  | nil => simp
  | cons x w ih =>
    obtain ⟨hx, hw⟩ := covers_append (u := [x]).mp h
    simp only [List.forall₂_cons_left_iff, readItem_eq_ok_iff hx, ih hw]
    have hnumbers : Marked.numbers (x :: w) = Marked.numbers [x] ++ Marked.numbers w :=
      Marked.numbers_append [x] w
    simp only [hnumbers, List.mem_append, or_imp, forall_and, List.map_cons]
    constructor
    · rintro ⟨_, _, ⟨rfl, h1⟩, ⟨rfl, h2⟩, rfl⟩
      exact ⟨rfl, h1, h2⟩
    · rintro ⟨rfl, h1, h2⟩
      exact ⟨_, _, ⟨rfl, h1⟩, ⟨rfl, h2⟩, rfl⟩

/-- **A pass over a text**: it gives a result when the numbers of all markers can be read, and then
it is the text of the pass. -/
theorem resolveOnce_eq_ok_iff (h : G.Ready w) {updated : Text} :
    G.texts.resolveOnce w.text = .ok updated ↔
      updated = (G.pass w).text ∧ ∀ n ∈ w.numbers, (Text.ofNat n).length ≤ Fault.digitLimit := by
  rw [Fragments.resolveOnce, Pattern.replaceM, Marked.pieces_text h.tidy, List.mapM_map,
    show (_ ∘ _ : Piece Nat → Except Fault Text) = G.readItem from
      funext fun x => by cases x <;> rfl, text_pass]
  have hparts : ∀ parts, w.mapM G.readItem = .ok parts ↔ _ := fun _ =>
    mapM_readItem_eq_ok_iff h.covers
  cases hw : w.mapM G.readItem with
  | error e =>
    simp only [hw, reduceCtorEq, false_iff, not_and] at hparts
    refine ⟨fun h => absurd h (by simp [bind, Except.bind]), fun h => absurd h.2 (hparts _ rfl)⟩
  | ok parts =>
    obtain ⟨rfl, hlimit⟩ := (hparts parts).mp hw
    simp only [bind, Except.bind, pure, Except.pure, Except.ok.injEq]
    exact ⟨fun h => ⟨h.symm, hlimit⟩, fun h => h.1.symm⟩

/-! ## Pass after pass -/

/-- A pass over a line with markers changes it. -/
theorem text_pass_ne (hG : G.Backward) (h : G.Ready w) (hpos : 0 < G.texts.height w.text) :
    (G.pass w).text ≠ w.text := by
  intro heq
  have hlower := height_pass hG h
  rw [heq] at hlower
  omega

/-- As many passes as the height of a line write it out. -/
theorem text_iterate_pass (hG : G.Backward) (h : G.Ready w) :
    (G.pass^[G.texts.height w.text] w).text = G.expand w := by
  induction hheight : G.texts.height w.text generalizing w with
  | zero => exact text_eq_expand h hheight
  | succ height ih =>
    have hlower := height_pass hG h
    rw [Function.iterate_succ_apply, ih (h.pass hG) (by omega), expand_pass hG]

/-- **What resolving gives, if it gives anything**: passes are made until no marker is left, or no
pass. -/
theorem resolveFrom_eq (hG : G.Backward) (h : G.Ready w) {passes budget : Nat} {r : Resolution}
    (hr : G.texts.resolveFrom passes budget w.text = .ok r) :
    r = ⟨(G.pass^[min budget (G.texts.height w.text)] w).text,
      passes + min budget (G.texts.height w.text), decide (budget < G.texts.height w.text)⟩ := by
  induction budget generalizing w passes with
  | zero =>
    rw [Fragments.resolveFrom, Except.ok.injEq, occursIn_text h] at hr
    rw [← hr, Nat.zero_min]
    rfl
  | succ budget ih =>
    rw [Fragments.resolveFrom, occursIn_text h] at hr
    by_cases hpos : 0 < G.texts.height w.text
    · rw [decide_eq_true hpos, if_pos rfl] at hr
      cases hu : G.texts.resolveOnce w.text with
      | error e =>
        rw [hu] at hr
        cases hr
      | ok updated =>
        obtain ⟨rfl, -⟩ := (resolveOnce_eq_ok_iff h).mp hu
        rw [hu] at hr
        simp only [bind, Except.bind, if_neg (text_pass_ne hG h hpos)] at hr
        have hmin : min (budget + 1) (G.texts.height w.text) =
            min budget (G.texts.height w.text - 1) + 1 := by omega
        rw [ih (h.pass hG) hr, height_pass hG h, hmin, Function.iterate_succ_apply,
          Nat.add_right_comm, Nat.add_assoc]
        simp only [Resolution.mk.injEq, decide_eq_decide, true_and]
        omega
    · rw [decide_eq_false hpos, if_neg Bool.false_ne_true, Except.ok.injEq] at hr
      have hzero : G.texts.height w.text = 0 := by omega
      rw [← hr, hzero, Nat.min_zero]
      rfl

theorem resolveFrom_spec (hG : G.Backward) (h : G.Ready w) {passes budget : Nat} {r : Resolution}
    (hr : G.texts.resolveFrom passes budget w.text = .ok r) :
    r.passes = passes + min budget (G.texts.height w.text) ∧
      r.unresolved = decide (budget < G.texts.height w.text) ∧
      (G.texts.height w.text ≤ budget → r.latex = G.expand w) := by
  rw [resolveFrom_eq hG h hr]
  refine ⟨rfl, rfl, fun hle => ?_⟩
  rw [Nat.min_eq_right hle]
  exact text_iterate_pass hG h

/-- Resolving gives a result when the numbers of all fragments can be read. -/
theorem exists_resolveFrom (hG : G.Backward) (h : G.Ready w)
    (hlimit : G.length ≤ 10 ^ Fault.digitLimit) (passes budget : Nat) :
    ∃ r, G.texts.resolveFrom passes budget w.text = .ok r := by
  induction budget generalizing w passes with
  | zero => exact ⟨_, rfl⟩
  | succ budget ih =>
    rw [Fragments.resolveFrom]
    split
    · have hread : ∀ n ∈ w.numbers, (Text.ofNat n).length ≤ Fault.digitLimit := fun n hn =>
        Fault.length_textOfNat_le ((h.covers n hn).trans_le hlimit)
      rw [(resolveOnce_eq_ok_iff h).mpr ⟨rfl, hread⟩]
      simp only [bind, Except.bind]
      split
      · exact ⟨_, rfl⟩
      · exact ih (h.pass hG) _
    · exact ⟨_, rfl⟩

/-! ## Height and expansion by recursion -/

theorem height_eq (hG : G.Backward) (h : G.Ready w) :
    G.texts.height w.text = Fragments.greatest ((Marker.pattern.hits w.text).map fun digits =>
      G.texts.height (G.texts.getD (decimalNumber digits) []) + 1) := by
  rw [height_text h, Marked.hits_text h.tidy, List.map_map]
  refine congrArg _ (List.map_congr_left fun n hn => ?_)
  rw [Function.comp_apply, decimalNumber_ofNat, texts_getD, height_fragment hG (h.fragment hG hn)]

theorem expand_eq (hG : G.Backward) (h : G.Ready w) :
    G.texts.expand w.text = Marker.pattern.replace (fun digits =>
      G.texts.expand (G.texts.getD (decimalNumber digits) [])) w.text := by
  rw [expand_text hG h, Marked.replace_text h.tidy]
  refine Marked.fill_congr _ fun n hn => ?_
  rw [decimalNumber_ofNat, texts_getD, expand_text hG (h.fragment hG hn), hG.value_eq]

end Table

end MathNotes
