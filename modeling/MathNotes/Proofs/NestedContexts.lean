import MathNotes.Proofs.Becoming
import MathNotes.Proofs.Operands

/-!
# Absolute values and fractions in formulas

The steps for absolute values and fractions take one construct a round.  The construct stands in a
`Context`, the formula around it, and the rest of the formula is left as it is.
-/

namespace MathNotes

open Extract Formula

/-- A formula with one part left open. -/
inductive Context where
  | hole
  | wrap (wrapper : Wrapper) (part : Context)
  | first (joiner : Joiner) (part : Context) (second : Formula Leaf)
  | second (joiner : Joiner) (first : Formula Leaf) (part : Context)

namespace Context

/-- The formula, with its open part filled in. -/
def fill : Context → Formula Leaf → Formula Leaf
  | hole, x => x
  | wrap k c, x => .wrap k (c.fill x)
  | first j c b, x => .join j (c.fill x) b
  | second j a c, x => .join j a (c.fill x)

/-- What stands before the open part. -/
def before : Context → Text
  | hole => []
  | wrap k c => k.word ++ k.opening ++ c.before
  | first j c _ => j.word ++ j.opening ++ c.before
  | second j a c => j.word ++ j.opening ++ (a.source Leaf.text ++ (j.middle ++ c.before))

/-- What stands behind the open part. -/
def after : Context → Text
  | hole => []
  | wrap k c => c.after ++ k.closing
  | first j c b => c.after ++ (j.middle ++ (b.source Leaf.text ++ j.closing))
  | second j _ c => c.after ++ j.closing

variable {m bound : Nat} {x y : Formula Leaf} {G G' : Table} {l : Leaf}

theorem source_fill (c : Context) (x : Formula Leaf) :
    (c.fill x).source Leaf.text = c.before ++ (x.source Leaf.text ++ c.after) := by
  induction c with
  | hole => simp [fill, before, after]
  | wrap k c ih => simp [fill, before, after, source, ih]
  | first j c b ih => simp [fill, before, after, source, ih]
  | second j a c ih => simp [fill, before, after, source, ih]

theorem starts_before (c : Context) {previous : Option Char} (h : Starts previous) :
    Starts (c.before.getLast?.or previous) := by
  induction c generalizing previous with
  | hole => exact h
  | wrap k c ih =>
    rw [before, List.getLast?_append, Option.or_assoc]
    exact ih (k.starts_opening previous)
  | first j c b ih =>
    rw [before, List.getLast?_append, Option.or_assoc]
    exact ih (j.starts_opening previous)
  | second j a c ih =>
    rw [before, List.getLast?_append, List.getLast?_append, List.getLast?_append]
    simp only [Option.or_assoc]
    exact ih (j.starts_middle _)

theorem ends_after (c : Context) : Ends c.after := by
  have key : ∀ {a b : Text}, Ends a → Ends b → Ends (a ++ b) := by
    intro a b ha hb
    cases a with
    | nil => exact hb
    | cons d a => exact ha
  induction c with
  | hole => exact ends_nil
  | wrap k c ih => exact key ih (by simpa using k.ends_closing [])
  | first j c b ih => exact key ih (j.ends_middle _)
  | second j a c ih => exact key ih (by simpa using j.ends_closing [])

theorem covered_fill (c : Context) (h : (c.fill x).Covered G) : x.Covered G := by
  induction c with
  | hole => exact h
  | wrap k c ih => exact ih h
  | first j c b ih => exact ih h.1
  | second j a c ih => exact ih h.2

theorem fits_fill (c : Context) (h : (c.fill x).Fits m bound) : x.Fits m bound := by
  induction c with
  | hole => exact h
  | wrap k c ih => exact ih h.part.1
  | first j c b ih => exact ih h.first.1
  | second j a c ih => exact ih h.second.1

/-- What becomes of the part becomes of the whole; without factorials, which look at their part. -/
theorem becomes_fill (c : Context) (habove : (c.fill x).Above 1) (hG : (c.fill x).Covered G)
    (h : Becomes G x G' y) : Becomes G (c.fill x) G' (c.fill y) := by
  induction c with
  | hole => exact h
  | wrap k c ih => exact (ih habove.2 hG).wrap (Nat.ne_of_gt habove.1)
  | first j c b ih =>
    have hpart := ih habove.2.1 hG.1
    exact hpart.join (.refl (hpart.keeps hG.2).1) hG.2
  | second j a c ih =>
    exact (Becomes.refl hG.1).join (ih habove.2.2 hG.2) hG.2

/-! ### A leaf in place of the part -/

theorem isAbsolute_leaf (c : Context) (h : (c.fill x).isAbsolute = false) :
    (c.fill (.leaf l)).isAbsolute = false := by
  cases c with
  | hole => rfl
  | wrap k c =>
    cases k with
    | absolute => exact h
    | _ => rfl
  | first j c b => rfl
  | second j a c => rfl

theorem above_leaf (c : Context) (h : (c.fill x).Above m) : (c.fill (.leaf l)).Above m := by
  induction c with
  | hole => trivial
  | wrap k c ih => exact ⟨h.1, ih h.2⟩
  | first j c b ih => exact ⟨h.1, ih h.2.1, h.2.2⟩
  | second j a c ih => exact ⟨h.1, h.2.1, ih h.2.2⟩

theorem proper_leaf (c : Context) (h : (c.fill x).Proper) : (c.fill (.leaf l)).Proper := by
  induction c with
  | hole => trivial
  | wrap k c ih => exact ⟨fun hk => c.isAbsolute_leaf (h.1 hk), ih h.2⟩
  | first j c b ih => exact ⟨ih h.1, h.2⟩
  | second j a c ih => exact ⟨h.1, ih h.2⟩

theorem nodes_leaf (c : Context) : (c.fill (.leaf l)).nodes ≤ (c.fill x).nodes := by
  induction c with
  | hole => cases x <;> simp [fill, nodes]
  | wrap k c ih => exact Nat.succ_le_succ ih
  | first j c b ih =>
    simp only [fill, nodes]
    omega
  | second j a c ih =>
    simp only [fill, nodes]
    omega

theorem fits_leaf (c : Context) (h : (c.fill x).Fits m bound) : (c.fill (.leaf l)).Fits m bound :=
  ⟨c.above_leaf h.above, c.proper_leaf h.proper, c.nodes_leaf.trans h.small⟩

theorem constructs_leaf (c : Context) (hx : 0 < x.constructs) :
    (c.fill (.leaf l)).constructs < (c.fill x).constructs := by
  induction c with
  | hole => exact hx
  | wrap k c ih => exact Nat.succ_lt_succ ih
  | first j c b ih =>
    simp only [fill, constructs]
    omega
  | second j a c ih =>
    simp only [fill, constructs]
    omega

/-- **A loop that puts one construct aside a round**, until none of its kind is left, has enough
rounds if there are more of them than constructs. -/
theorem gives_loop (loop : Nat → Text → Extract Text) {n : Nat} (hm : 1 ≤ m)
    (hround : ∀ ⦃e : Formula Leaf⦄ ⦃G : Table⦄, e.Fits m bound → e.Covered G →
      (e.Above n ∧ ∀ rounds, (loop (rounds + 1) (e.source Leaf.text)).Gives G
        (e.source Leaf.text) G) ∨
      ∃ (c : Context) (x : Formula Leaf) (number : Nat) (G₁ : Table), e = c.fill x ∧
        0 < x.constructs ∧ Becomes G x G₁ (.leaf (.mark number)) ∧
          ∀ {rounds : Nat} {r : Text} {G₂ : Table},
            (loop rounds (c.before ++ Marker.ofNat number ++ c.after)).Gives G₁ r G₂ →
              (loop (rounds + 1) (e.source Leaf.text)).Gives G r G₂)
    {rounds : Nat} {e : Formula Leaf} {G : Table} (hrounds : e.constructs < rounds)
    (he : e.Fits m bound) (hG : e.Covered G) :
    ∃ (e' : Formula Leaf) (G' : Table),
      (loop rounds (e.source Leaf.text)).Gives G (e'.source Leaf.text) G' ∧
        Becomes G e G' e' ∧ e'.Fits n bound := by
  induction rounds generalizing e G with
  | zero => cases hrounds
  | succ rounds ih =>
    rcases hround he hG with ⟨habove, hdone⟩ | ⟨c, x, number, G₁, rfl, hx, hbecomes, hnext⟩
    · exact ⟨e, G, hdone rounds, .refl hG, habove, he.proper, he.small⟩
    · have hstored := c.becomes_fill (he.above.mono hm) hG hbecomes
      have hfewer : (c.fill (.leaf (.mark number))).constructs < (c.fill x).constructs :=
        c.constructs_leaf hx
      obtain ⟨e', G', hgives, hbecomes', hfits⟩ := ih (by omega) (c.fits_leaf he) hstored.covered
      rw [c.source_fill, ← List.append_assoc] at hgives
      exact ⟨e', G', hnext hgives, hstored.trans hbecomes', hfits⟩

end Context

/-! ## Absolute values -/

/-- The absolute value that closes first, in its context. -/
def Formula.innermost? : Formula Leaf → Option (Context × Formula Leaf)
  | leaf _ => none
  | wrap k e => (e.innermost?.map fun found => (.wrap k found.1, found.2)).or
      (if k.rank = 9 then some (.hole, e) else none)
  | join j a b => (a.innermost?.map fun found => (.first j found.1 b, found.2)).or
      (b.innermost?.map fun found => (.second j a found.1, found.2))

theorem Formula.innermost?_eq_none {e : Formula Leaf} (h : e.innermost? = none) (he : e.Above 7) :
    e.Above 9 := by
  have key : ∀ s ∈ ranks, 7 < s → s ≠ 9 → 9 < s := by decide
  induction e with
  | leaf l => trivial
  | wrap k e ih =>
    rw [innermost?, Option.or_eq_none_iff, Option.map_eq_none_iff, ite_eq_right_iff] at h
    exact ⟨key _ k.rank_mem he.1 (fun hk => nomatch h.2 hk), ih h.1 he.2⟩
  | join j a b iha ihb =>
    rw [innermost?, Option.or_eq_none_iff, Option.map_eq_none_iff, Option.map_eq_none_iff] at h
    exact ⟨key _ j.rank_mem he.1 (by cases j <;> simp [Joiner.rank]), iha h.1 he.2.1,
      ihb h.2 he.2.2⟩

theorem Formula.innermost?_eq_some {e a : Formula Leaf} {c : Context}
    (h : e.innermost? = some (c, a)) (he : e.Above 7) :
    e = c.fill (.wrap .absolute a) ∧ a.Above 9 := by
  induction e generalizing c with
  | leaf l => cases h
  | wrap k e ih =>
    rw [innermost?, Option.or_eq_some_iff] at h
    rcases h with h | ⟨hnone, h⟩
    · obtain ⟨⟨c', a'⟩, hfound, heq⟩ := Option.map_eq_some_iff.mp h
      cases heq
      obtain ⟨hfill, habove⟩ := ih hfound he.2
      exact ⟨congrArg (Formula.wrap k) hfill, habove⟩
    · rw [Option.map_eq_none_iff] at hnone
      obtain ⟨hrank, heq⟩ := Option.ite_none_right_eq_some.mp h
      cases heq
      cases k with
      | absolute => exact ⟨rfl, innermost?_eq_none hnone he.2⟩
      | _ => cases hrank
  | join j a b iha ihb =>
    rw [innermost?, Option.or_eq_some_iff] at h
    rcases h with h | ⟨-, h⟩
    · obtain ⟨⟨c', a'⟩, hfound, heq⟩ := Option.map_eq_some_iff.mp h
      cases heq
      obtain ⟨hfill, habove⟩ := iha hfound he.2.1
      exact ⟨congrArg (Formula.join j · b) hfill, habove⟩
    · obtain ⟨⟨c', a'⟩, hfound, heq⟩ := Option.map_eq_some_iff.mp h
      cases heq
      obtain ⟨hfill, habove⟩ := ihb hfound he.2.2
      exact ⟨congrArg (Formula.join j a ·) hfill, habove⟩

namespace Pipe

variable {state : State} {opened : List Nat} {first : Option (Nat × Nat)} {index : Nat}
  {previous : Option Char} {a b : Text}

/-- Whatever is open, a walk over the text leaves it so and finds the pair `found`, if no other was
found before. -/
def Walks (previous : Option Char) (text : Text) (found : Nat → Option (Nat × Nat)) : Prop :=
  ∀ (opened : List Nat) (first : Option (Nat × Nat)) (index : Nat) (rest : Text),
    walk ⟨opened, first⟩ index previous (text ++ rest) =
      walk ⟨opened, first.or (found index)⟩ (index + text.length) (text.getLast?.or previous) rest

theorem Walks.append {f g : Nat → Option (Nat × Nat)} (ha : Walks previous a f)
    (hb : Walks (a.getLast?.or previous) b g) :
    Walks previous (a ++ b) fun index => (f index).or (g (index + a.length)) := by
  intro opened first index rest
  rw [List.append_assoc, ha, hb, Option.or_assoc, List.length_append, List.getLast?_append,
    Option.or_assoc, Nat.add_assoc]

theorem walks_of_not_mem (h : '|' ∉ a) : Walks previous a fun _ => none := by
  intro opened first index rest
  rw [Option.or_none]
  induction a generalizing index previous with
  | nil => rfl
  | cons c a ih =>
    rw [List.mem_cons, not_or] at h
    obtain ⟨hc, ha⟩ := h
    rw [List.cons_append, walk, if_neg (by simpa using Ne.symm hc), ih ha, getLast?_cons_or,
      List.length_cons]
    congr 1
    omega

/-- A pipe that may open and has an operand behind it opens. -/
theorem walk_opening {text : Text} (hprevious : previous.all mayFollow = true)
    (hnext : text.head?.any startsOperand = true) :
    walk ⟨opened, first⟩ index previous ('|' :: text) =
      walk ⟨index :: opened, first⟩ (index + 1) (some '|') text := by
  simp [walk, step, hprevious, hnext]

/-- A pipe that may not open closes the innermost open one. -/
theorem walk_closing {i : Nat} {text : Text} (hprevious : previous.all mayFollow = false)
    (hi : i + 1 ≠ index) :
    walk ⟨i :: opened, first⟩ index previous ('|' :: text) =
      walk ⟨opened, first.or (some (i, index))⟩ (index + 1) (some '|') text := by
  simp [walk, step, hprevious, hi]

/-- Two pipes that open and close, around a text that is walked over. -/
theorem Walks.between {f : Nat → Option (Nat × Nat)} (h : Walks (some '|') a f) (hne : a ≠ [])
    (hprevious : previous.all mayFollow = true)
    (hnext : ∀ rest, (a ++ rest).head?.any startsOperand = true)
    (hlast : (a.getLast?.or (some '|')).all mayFollow = false) :
    Walks previous ('|' :: (a ++ ['|'])) fun index =>
      (f (index + 1)).or (some (index, index + 1 + a.length)) := by
  intro opened first index rest
  have hlength := List.length_pos_iff.mpr hne
  have htext : '|' :: (a ++ ['|']) ++ rest = '|' :: (a ++ '|' :: rest) := by simp
  have hend : ('|' :: (a ++ ['|'])).getLast? = some '|' := by simp [List.getLast?_cons]
  rw [htext, walk_opening hprevious (hnext _), h, walk_closing hlast (by omega), hend,
    Option.or_assoc, Option.some_or]
  simp only [List.length_cons, List.length_append, List.length_nil]
  congr 1
  omega

/-- The positions of the pipes around a formula in its context. -/
def positions (index : Nat) (found : Context × Formula Leaf) : Nat × Nat :=
  (index + found.1.before.length,
    index + found.1.before.length + 1 + (found.2.source Leaf.text).length)

theorem positions_wrap (index : Nat) (k : Wrapper) :
    (positions index ∘ fun found => (.wrap k found.1, found.2)) =
      positions (index + (k.word ++ k.opening).length) := by
  funext found
  simp [positions, Context.before, Nat.add_assoc]

theorem positions_first (index : Nat) (j : Joiner) (b : Formula Leaf) :
    (positions index ∘ fun found => (.first j found.1 b, found.2)) =
      positions (index + (j.word ++ j.opening).length) := by
  funext found
  simp [positions, Context.before, Nat.add_assoc]

theorem positions_second (index : Nat) (j : Joiner) (a : Formula Leaf) :
    (positions index ∘ fun found => (.second j a found.1, found.2)) =
      positions (index + (j.word ++ j.opening).length + (a.source Leaf.text).length +
        j.middle.length) := by
  funext found
  simp [positions, Context.before, Nat.add_assoc]

theorem startsOperand_head {e : Formula Leaf} (he : e.Above 6) (habsolute : e.isAbsolute = false)
    (rest : Text) : (e.source Leaf.text ++ rest).head?.any startsOperand = true := by
  obtain ⟨c, text, htext⟩ := List.exists_cons_of_ne_nil e.source_ne_nil
  rw [htext, List.cons_append, List.head?_cons, Option.any_some]
  have hc : c ∈ (e.source Leaf.text).head? := by simp [htext]
  rcases head_source hc with hname | rfl | rfl | ⟨-, h⟩
  · rw [isNameChar, Bool.or_eq_true, beq_iff_eq] at hname
    rcases hname with hname | rfl
    · simp [startsOperand, isLetterOrNumber_of_isAlphanum hname]
    · simp [startsOperand]
  · simp [startsOperand]
  · exact absurd (List.mem_of_mem_head? hc) (not_mem_angle he).1
  · rw [habsolute] at h
    cases h

theorem mayFollow_last {e : Formula Leaf} (he : e.Above 6) (habsolute : e.isAbsolute = false)
    (previous : Option Char) :
    ((e.source Leaf.text).getLast?.or previous).all mayFollow = false := by
  obtain ⟨c, hc⟩ := Option.ne_none_iff_exists'.mp (mt List.getLast?_eq_none_iff.mp e.source_ne_nil)
  rw [hc, Option.some_or, Option.all_some]
  rcases last_source hc with hname | rfl | rfl | ⟨-, h⟩
  · have hlead : ∀ d ∈ leads, isNameChar d = false := by decide
    have hmem : leads.contains c = false := by
      rw [List.contains_eq_mem, decide_eq_false_iff_not]
      intro hmem
      rw [hlead c hmem] at hname
      cases hname
    rw [mayFollow, isBlank_of_isNameChar hname, hmem, Bool.or_self]
  · decide
  · exact absurd (List.mem_of_getLast? hc) (not_mem_angle he).2
  · rw [habsolute] at h
    cases h

/-- A construct other than an absolute value has no pipes, and its part may start with one. -/
theorem wrapper_spec {k : Wrapper} (hk : k ≠ .absolute) : '|' ∉ k.word ++ k.opening ∧
    '|' ∉ k.closing ∧ k.rank ≠ 9 ∧
      ∀ q : Option Char, ((k.word ++ k.opening).getLast?.or q).all mayFollow = true := by
  have hname : '|' ∉ k.word := fun h => by cases Wrapper.isNameChar_of_mem h
  have hbracket : mayFollow '(' = true := rfl
  rw [List.mem_append, not_or]
  cases k <;> simp [Wrapper.opening, Wrapper.closing, Wrapper.rank, hname, hbracket] at hk ⊢

theorem joiner_spec (j : Joiner) : '|' ∉ j.word ++ j.opening ∧ '|' ∉ j.middle ∧ '|' ∉ j.closing ∧
    ∀ q : Option Char, ((j.word ++ j.opening).getLast?.or q).all mayFollow = true ∧
      (j.middle.getLast?.or q).all mayFollow = true := by
  cases j <;> exact ⟨by decide, by decide, by decide, fun _ => ⟨rfl, rfl⟩⟩

/-- **The pipes of a formula** open and close in pairs, and the pair that closes first belongs to
the innermost absolute value on the left. -/
theorem walks_source {e : Formula Leaf} (he : e.Above 7) (hproper : e.Proper)
    (hprevious : e.isAbsolute = true → previous.all mayFollow = true) :
    Walks previous (e.source Leaf.text) fun index => e.innermost?.map (positions index) := by
  induction e generalizing previous with
  | leaf l => exact walks_of_not_mem fun h => by cases Leaf.isNameChar_of_mem h
  | wrap k e ih =>
    simp only [innermost?, Option.map_or, Option.map_map, positions_wrap]
    by_cases hk : k = .absolute
    · subst hk
      -- The part is no absolute value, so it neither starts nor ends with a pipe.
      have hpart := hproper.1 rfl
      have habove := he.2.mono (by decide : 6 ≤ 7)
      have hinner := @ih (some '|') he.2 hproper.2 (by simp [hpart])
      exact hinner.between e.source_ne_nil (hprevious rfl) (startsOperand_head habove hpart)
        (mayFollow_last habove hpart _)
    · obtain ⟨hlead, hclosing, hrank, hnext⟩ := wrapper_spec hk
      have hinner := ih he.2 hproper.2 (fun _ => hnext previous)
      have hwalks := (walks_of_not_mem hlead).append
        (hinner.append (walks_of_not_mem hclosing))
      rw [source, ← List.append_assoc]
      simpa only [if_neg hrank, Option.map_none, Option.none_or] using hwalks
  | join j a b iha ihb =>
    simp only [innermost?, Option.map_or, Option.map_map, positions_first, positions_second]
    obtain ⟨hlead, hmiddle, hclosing, hnext⟩ := joiner_spec j
    have hfirst := iha he.2.1 hproper.1 (fun _ => (hnext previous).1)
    have hsecond := fun q => ihb he.2.2 hproper.2 (fun _ => (hnext q).2)
    have hwalks := (walks_of_not_mem hlead).append (hfirst.append
      ((walks_of_not_mem hmiddle).append ((hsecond _).append (walks_of_not_mem hclosing))))
    rw [source, ← List.append_assoc]
    simpa only [Option.none_or, Option.or_none] using hwalks

theorem pair?_source {e : Formula Leaf} (he : e.Above 7) (hproper : e.Proper) :
    pair? (e.source Leaf.text) = e.innermost?.map (positions 0) := by
  have hwalks : Walks none (e.source Leaf.text) _ := walks_source he hproper (fun _ => rfl)
  rw [pair?, ← List.append_nil (e.source Leaf.text), hwalks]
  rfl

/-- The text is cut at the positions of two pipes. -/
theorem cut_positions (before inside after : Text) :
    let text := before ++ '|' :: (inside ++ '|' :: after)
    text.take before.length = before ∧
      (text.take (before.length + 1 + inside.length)).drop (before.length + 1) = inside ∧
      text.drop (before.length + 1 + inside.length + 1) = after := by
  intro text
  have htext : text = (before ++ ['|']) ++ inside ++ ('|' :: after) := by simp [text]
  have hlength : before.length + 1 = (before ++ ['|']).length := by simp
  refine ⟨List.take_left, ?_, ?_⟩
  · rw [hlength, ← List.length_append, htext, List.take_left, List.drop_left]
  · rw [hlength, ← List.length_append, htext, ← List.drop_drop, List.drop_left]
    rfl

end Pipe

theorem clears_absoluteValues : Step.Clears Construct.absoluteValues 7 9 := by
  intro treat bound rounds hsolves hrounds e G he hG
  refine Context.gives_loop (fun rounds => Construct.absoluteValues rounds treat)
    (by decide) ?_ (he.constructs_lt hrounds) he hG
  intro e G he hG
  cases hfound : e.innermost? with
  | none =>
    refine .inl ⟨innermost?_eq_none hfound he.above, fun rounds => ?_⟩
    rw [Construct.absoluteValues, Pipe.pair?_source he.above he.proper, hfound]
    exact gives_pure _ _
  | some found =>
    obtain ⟨c, a⟩ := found
    have hpair := Pipe.pair?_source he.above he.proper
    obtain ⟨rfl, -⟩ := innermost?_eq_some hfound he.above
    have hfits : (Formula.wrap .absolute a).Fits 7 (bound + 1) := c.fits_fill he
    have hcovered : (Formula.wrap .absolute a).Covered G := c.covered_fill hG
    obtain ⟨l, G₁, hgives, hbecomes⟩ := hsolves true (Formula.trim_source a)
      (Nat.lt_succ_iff.mp hfits.part.2) hfits.part.1.proper hcovered
    refine .inr ⟨c, _, _, _, rfl, Nat.succ_pos _, hbecomes.store_wrap, fun hrest => ?_⟩
    have hsource : source Leaf.text (c.fill (.wrap .absolute a)) =
        c.before ++ '|' :: (a.source Leaf.text ++ '|' :: c.after) := by
      simp [c.source_fill, source, Wrapper.word, Wrapper.opening, Wrapper.closing]
    obtain ⟨hbefore, hinside, hafter⟩ := Pipe.cut_positions c.before (a.source Leaf.text) c.after
    have hlatex : "\\left|".toList ++ l.text ++ "\\right|".toList = (Becomes.wrapped .absolute
        (isCompoundSource (a.source Leaf.text)) l).text := by
      rw [Becomes.text_wrapped]
      exact List.append_assoc _ _ _
    rw [Construct.absoluteValues, hpair, hfound]
    simp only [Option.map_some, Pipe.positions, Nat.zero_add, hsource, hbefore, hinside, hafter]
    refine hgives.bind ?_
    rw [hlatex]
    exact (gives_store _ _).bind hrest

/-! ## Fractions -/

namespace Operand

variable {before after : Text}

theorem last_of_isPlainIdentifier {text : Text} (h : isPlainIdentifier text = true) :
    ∃ c, text.getLast? = some c ∧ (c.isAlphanum = true ∨ c = '\'') := by
  cases text with
  | nil => cases h
  | cons d rest =>
    rw [isPlainIdentifier, Bool.and_eq_true, List.all_eq_true] at h
    obtain ⟨c, hc⟩ := Option.ne_none_iff_exists'.mp
      (mt List.getLast?_eq_none_iff.mp (List.cons_ne_nil d rest))
    refine ⟨c, hc, ?_⟩
    rcases List.mem_cons.mp (List.mem_of_getLast? hc) with rfl | hmem
    · exact .inl (by simp [Char.isAlphanum, h.1])
    · simpa using h.2 c hmem

/-- The name of a function ends in a letter, digit or prime. -/
theorem last_of_isIdentifier {previous : Option Char} {name : Text}
    (h : isIdentifier previous name = true) :
    ∃ c, name.getLast? = some c ∧ (c.isAlphanum = true ∨ c = '\'') := by
  rw [isIdentifier, Bool.and_eq_true] at h
  obtain ⟨c, hc, hletter⟩ := last_of_isPlainIdentifier h.2
  refine ⟨c, ?_, hletter⟩
  cases hcommand : Text.after? '\\' name with
  | none => rwa [hcommand, Option.getD_none] at hc
  | some rest =>
    rw [hcommand, Option.getD_some] at hc
    rw [Text.after?_eq_some_iff.mp hcommand, ← List.singleton_append, List.getLast?_append, hc,
      Option.some_or]

/-- Behind the sign in front of a formula, no name of a function ends. -/
theorem identifierStart?_of_starts (h : Starts before.getLast?) :
    identifierStart? before = none := by
  cases hfound : identifierStart? before with
  | none => rfl
  | some start =>
    exfalso
    obtain ⟨⟨front, name⟩, hlongest, -⟩ := Option.map_eq_some_iff.mp hfound
    obtain ⟨hsplit, hname, -⟩ := longestEnd?_eq_some hlongest
    obtain ⟨c, hc, hletter⟩ := last_of_isIdentifier hname
    have hlast : (dropFinalNewline before).getLast? = some c := by
      rw [hsplit, List.getLast?_append, hc, Option.some_or]
    cases hbefore : before.getLast? with
    | none =>
      rw [List.getLast?_eq_none_iff.mp hbefore] at hlast
      cases hlast
    | some d =>
      have key : ∀ d ∈ ['(', '|', '<', ' '],
          d ≠ '\n' ∧ ¬(d.isAlphanum = true ∨ d = '\'') := by decide
      obtain ⟨hnewline, hsign⟩ := key d (h d hbefore)
      rw [dropFinalNewline_eq_self hbefore hnewline, hbefore] at hlast
      exact hsign (Option.some.inj hlast ▸ hletter)

theorem baseStart_of_starts (h : Starts before.getLast?) (text : Text) (budget : Nat) :
    baseStart (before ++ text) budget before.length = before.length := by
  have hmark : before.getLast?.any isScriptMark = false := by
    have key : ∀ c ∈ ['(', '|', '<', ' '], isScriptMark c = false := by decide
    rw [Option.any_eq_false]
    exact fun c hc => key c (h c hc)
  cases budget with
  | zero => rfl
  | succ budget => rw [baseStart, List.take_left, if_neg (by simp [hmark])]

/-- The group at the end of a text is an operand. -/
theorem start?_group (h : Starts before.getLast?) (e : Formula Leaf) :
    start? (before ++ '(' :: (e.source Leaf.text ++ [')'])) = some before.length := by
  have htext : before ++ '(' :: (e.source Leaf.text ++ [')']) =
      (before ++ '(' :: e.source Leaf.text) ++ [')'] := by simp
  have hunscripted : unscriptedStart? (before ++ '(' :: (e.source Leaf.text ++ [')'])) =
      some before.length := by
    rw [unscriptedStart?, htext, List.getLast?_concat, if_pos (beq_self_eq_true _),
      List.dropLast_concat,
      e.balanced.splitOpening?, Option.map_some]
    simp only [identifierStart?_of_starts h, Option.getD_none]
  rw [start?, hunscripted, Option.map_some, baseStart_of_starts h]

theorem scriptedWidth_of_ends (h : Ends after) (text : Text) (budget : Nat) :
    scriptedWidth before (text ++ after) budget text.length = text.length := by
  cases budget with
  | zero => rfl
  | succ budget =>
    rw [scriptedWidth, List.drop_left]
    cases after with
    | nil => rfl
    | cons c after =>
      have key : ∀ c ∈ [')', '|', '>', ','], isScriptMark c = false := by decide
      simp [key c (h c rfl)]

/-- The group at the front of a text is an operand. -/
theorem width?_group (h : Ends after) (e : Formula Leaf) :
    width? before ('(' :: (e.source Leaf.text ++ [')']) ++ after) =
      some ('(' :: (e.source Leaf.text ++ [')'])).length := by
  have hunscripted : unscriptedWidth? before ('(' :: (e.source Leaf.text ++ [')']) ++ after) =
      some ('(' :: (e.source Leaf.text ++ [')'])).length := by
    rw [List.cons_append, List.append_assoc, List.singleton_append, unscriptedWidth?,
      Text.after?_cons_self]
    simp only
    rw [e.balanced.offset?]
    simp [Delimiters.offset?, Delimiters.opens, Delimiters.closes, Delimiters.round]
  rw [width?, hunscripted, Option.map_some, scriptedWidth_of_ends h]

theorem ungrouped_group (e : Formula Leaf) :
    ungrouped ('(' :: (e.source Leaf.text ++ [')'])) = e.source Leaf.text := by
  rw [ungrouped, Text.after?_cons_self, Option.bind_some, e.balanced.splitClosing?]

end Operand

namespace Fraction

variable {before after a b behind : Text} {grouped : Bool}

/-- The fraction at a slash between two groups. -/
theorem at?_groups (hbefore : Starts before.getLast?) (hafter : Ends after) (a b : Formula Leaf) :
    at? grouped (before ++ '(' :: (a.source Leaf.text ++ [')']))
      ('(' :: (b.source Leaf.text ++ [')']) ++ after) =
      some ⟨before, a.source Leaf.text, b.source Leaf.text, after⟩ := by
  have hleft : Text.trimRight (before ++ '(' :: (a.source Leaf.text ++ [')'])) =
      before ++ '(' :: (a.source Leaf.text ++ [')']) := by
    simp [Text.trimRight, show isBlank ')' = false by decide]
  have hright : Text.trimLeft ('(' :: (b.source Leaf.text ++ [')']) ++ after) =
      '(' :: (b.source Leaf.text ++ [')']) ++ after := by
    simp [Text.trimLeft, show isBlank '(' = false by decide]
  have hlast : (before ++ '(' :: (a.source Leaf.text ++ [')'])).getLast? = some ')' := by
    rw [← List.cons_append, ← List.append_assoc, List.getLast?_concat]
  rw [at?]
  simp only [hleft, hright, Operand.start?_group hbefore, Operand.width?_group hafter, hlast,
    beq_self_eq_true, Bool.or_true, Bool.true_or, if_true, List.take_left, List.drop_left,
    Operand.ungrouped_group]

theorem findFrom?_pass (h : '/' ∉ a) :
    findFrom? grouped behind (a ++ b) = findFrom? grouped (a.reverse ++ behind) b := by
  induction a generalizing behind with
  | nil => rfl
  | cons c a ih =>
    rw [List.mem_cons, not_or] at h
    rw [List.cons_append, findFrom?, if_neg (by simpa using Ne.symm h.1), ih h.2]
    simp

/-- The leftmost fraction of a formula, in its context. -/
theorem exists_leftmost {e : Formula Leaf} (he : e.Above 9) : e.Above 10 ∨
    ∃ (c : Context) (a b : Formula Leaf), e = c.fill (.join .fraction a b) ∧ a.Above 10 ∧
      '/' ∉ c.before := by
  induction e with
  | leaf l => exact .inl trivial
  | wrap k e ih =>
    rcases ih he.2 with habove | ⟨c, a, b, rfl, ha, hslash⟩
    · refine .inl ⟨?_, habove⟩
      have := he.1
      cases k <;> simp [Wrapper.rank] at this ⊢
    · refine .inr ⟨.wrap k c, a, b, rfl, ha, ?_⟩
      have hword : '/' ∉ k.word := fun h => by cases Wrapper.isNameChar_of_mem h
      have hopening : '/' ∉ k.opening := by cases k <;> simp [Wrapper.opening]
      simp [Context.before, hword, hopening, hslash]
  | join j a b iha ihb =>
    cases j with
    | fraction =>
      rcases iha he.2.1 with habove | ⟨c, x, y, rfl, hx, hslash⟩
      · exact .inr ⟨.hole, a, b, rfl, habove, List.not_mem_nil⟩
      · exact .inr ⟨.first .fraction c b, x, y, rfl, hx, by
          simp [Context.before, Joiner.word, Joiner.opening, hslash]⟩
    | vector => exact absurd he.1 (by decide)
    | binomial => exact absurd he.1 (by decide)

/-- The leftmost fraction is found. -/
theorem find?_leftmost {c : Context} {a b : Formula Leaf} (ha : a.Above 10)
    (hslash : '/' ∉ c.before) :
    find? grouped (source Leaf.text (c.fill (.join .fraction a b))) =
      some ⟨c.before, a.source Leaf.text, b.source Leaf.text, c.after⟩ := by
  have hsource : source Leaf.text (c.fill (.join .fraction a b)) =
      (c.before ++ '(' :: (a.source Leaf.text ++ [')'])) ++
        '/' :: ('(' :: (b.source Leaf.text ++ [')']) ++ c.after) := by
    simp [c.source_fill, source, Joiner.word, Joiner.opening, Joiner.middle, Joiner.closing]
  have hfront : '/' ∉ c.before ++ '(' :: (a.source Leaf.text ++ [')']) := by
    simp [hslash, not_mem_slash ha]
  have hstarts : Starts c.before.getLast? := by simpa using c.starts_before starts_none
  rw [find?, hsource, findFrom?_pass hfront, findFrom?, if_pos (beq_self_eq_true _),
    List.append_nil, List.reverse_reverse, at?_groups hstarts c.ends_after, Option.some_or]

theorem find?_of_not_mem {text : Text} (h : '/' ∉ text) : find? grouped text = none := by
  rw [find?, ← List.append_nil text, findFrom?_pass h]
  rfl

end Fraction

theorem clears_fractions : Step.Clears Construct.fractions 9 10 := by
  intro treat bound rounds hsolves hrounds e G he hG
  have hcollect : ∃ (e' : Formula Leaf) (G' : Table),
      (Fraction.collect true treat rounds (e.source Leaf.text)).Gives G (e'.source Leaf.text) G' ∧
        Becomes G e G' e' ∧ e'.Fits 10 (bound + 1) := by
    refine Context.gives_loop (Fraction.collect true treat) (by decide) ?_
      (he.constructs_lt hrounds) he hG
    intro e G he hG
    rcases Fraction.exists_leftmost he.above with habove | ⟨c, a, b, rfl, ha, hslash⟩
    · refine .inl ⟨habove, fun rounds => ?_⟩
      rw [Fraction.collect, Fraction.find?_of_not_mem (not_mem_slash habove)]
      exact gives_pure _ _
    · have hfits : (Formula.join .fraction a b).Fits 9 (bound + 1) := c.fits_fill he
      have hcovered : (Formula.join .fraction a b).Covered G := c.covered_fill hG
      obtain ⟨l, G₁, hgives, hbecomes⟩ := hsolves true (Formula.trim_source a)
        (Nat.lt_succ_iff.mp hfits.first.2) hfits.first.1.proper hcovered.1
      obtain ⟨l', G₂, hgives', hbecomes'⟩ := hsolves true (Formula.trim_source b)
        (Nat.lt_succ_iff.mp hfits.second.2) hfits.second.1.proper (hbecomes.keeps hcovered.2).1
      refine .inr ⟨c, _, _, _, rfl, Nat.succ_pos _, hbecomes.store_join hbecomes' hcovered.2,
        fun hrest => ?_⟩
      have hlatex : Latex.command "frac" [l.text, l'.text] =
          (Becomes.joined .fraction l l').text := by
        rw [Becomes.text_joined, Joiner.frame_fraction]
        simp [Latex.command, Latex.braced]
      rw [Fraction.collect, Fraction.find?_leftmost ha hslash]
      refine hgives.bind (hgives'.bind ?_)
      rw [hlatex]
      exact (gives_store _ _).bind hrest
  obtain ⟨e', G', hgives, hbecomes, hfits⟩ := hcollect
  refine ⟨e', G', hgives.bind ?_, hbecomes, hfits⟩
  -- No slash is left for the fractions without brackets.
  cases rounds with
  | zero => exact gives_pure _ _
  | succ rounds =>
    rw [Fraction.collect, Fraction.find?_of_not_mem (not_mem_slash hfits.above)]
    exact gives_pure _ _

end MathNotes
