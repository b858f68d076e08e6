import MathNotes.Proofs.Passing
import MathNotes.Proofs.Printed

/-!
# Putting the constructs of a formula aside

When a construct of a formula is put aside, a marker takes its place and the formula still has the
same value: `Becomes` says so about a formula and the fragments behind it.  A scanner that goes
through the text of a formula and puts aside the outermost constructs of some kind makes such a
formula of it (`Scanner.PutsAside.gives_source`), whatever the kind: all that is asked of the
scanner is that it passes over everything else.
-/

namespace MathNotes

open Extract

namespace Formula

/-! ## Values over a table -/

/-- What a formula of a line stands for: its LaTeX, with the fragments written out. -/
def value (G : Table) (e : Formula Leaf) : Text := e.latex Leaf.text fun l => G.expand l.marked

/-- All markers of a formula stand for fragments of the table. -/
def Covered (G : Table) : Formula Leaf → Prop
  | leaf l => G.Covers l.marked
  | wrap _ e => e.Covered G
  | join _ a b => a.Covered G ∧ b.Covered G

variable {G G₁ G₂ H : Table} {e e₁ e₂ a b a' b' : Formula Leaf} {k : Wrapper} {j : Joiner}

theorem Covered.mono (h : e.Covered G) (H : Table) : e.Covered (G ++ H) := by
  induction e with
  | leaf l => exact Table.Covers.mono h H
  | wrap k e ih => exact ih h
  | join j a b iha ihb => exact ⟨iha h.1, ihb h.2⟩

theorem value_grow (h : e.Covered G) (H : Table) : e.value (G ++ H) = e.value G := by
  induction e with
  | leaf l => exact Table.expand_grow h H
  | wrap k e ih =>
    have hpart := ih h
    simp only [value] at hpart
    simp only [value, latex, hpart]
  | join j a b iha ihb =>
    have hfirst := iha h.1
    have hsecond := ihb h.2
    simp only [value] at hfirst hsecond
    simp only [value, latex, hfirst, hsecond]

theorem value_wrap (G : Table) (k : Wrapper) (e : Formula Leaf) :
    (wrap k e).value G = (k.frame (isCompoundSource (e.source Leaf.text))).1 ++
      (e.value G ++ (k.frame (isCompoundSource (e.source Leaf.text))).2) := rfl

theorem value_join (G : Table) (j : Joiner) (a b : Formula Leaf) :
    (join j a b).value G =
      j.frame.1 ++ (a.value G ++ (j.frame.2.1 ++ (b.value G ++ j.frame.2.2))) :=
  rfl

/-- Only a factorial looks at the text of its part. -/
theorem frame_eq (hk : k.rank ≠ 1) (c d : Bool) : k.frame c = k.frame d := by
  cases k with
  | factorial => exact absurd rfl hk
  | command name h => rfl
  | rounding name h => rfl
  | function name h => rfl
  | absolute => rfl
  | subscript v => rfl
  | power v => rfl

end Formula

/-! ## Becoming -/

open Formula

/-- A formula over the fragments `G` becomes another one over more fragments: its value stays, and
every fragment that is added takes a construct away. -/
structure Becomes (G : Table) (e : Formula Leaf) (G' : Table) (e' : Formula Leaf) : Prop where
  grows : ∃ H, G' = G ++ H
  covered : e'.Covered G'
  value : e'.value G' = e.value G
  length : G'.length + e'.constructs ≤ G.length + e.constructs
  backward : G.Backward → G'.Backward

namespace Becomes

variable {G G₁ G₂ : Table} {e e₁ e₂ a b a' b' : Formula Leaf} {l l' : Leaf}

theorem refl (h : e.Covered G) : Becomes G e G e :=
  ⟨⟨[], by simp⟩, h, rfl, Nat.le_refl _, id⟩

theorem grows_trans (h₁ : Becomes G a G₁ a') (h₂ : Becomes G₁ b G₂ b') : ∃ H, G₂ = G ++ H := by
  obtain ⟨H₁, rfl⟩ := h₁.grows
  obtain ⟨H₂, rfl⟩ := h₂.grows
  exact ⟨H₁ ++ H₂, List.append_assoc _ _ _⟩

theorem trans (h₁ : Becomes G e G₁ e₁) (h₂ : Becomes G₁ e₁ G₂ e₂) : Becomes G e G₂ e₂ where
  grows := h₁.grows_trans h₂
  covered := h₂.covered
  value := h₂.value.trans h₁.value
  length := h₂.length.trans h₁.length
  backward := fun h => h₂.backward (h₁.backward h)

/-- What is covered stays covered. -/
theorem keeps (h : Becomes G e G₁ e₁) (ha : a.Covered G) :
    a.Covered G₁ ∧ a.value G₁ = a.value G := by
  obtain ⟨H, rfl⟩ := h.grows
  exact ⟨ha.mono H, value_grow ha H⟩

theorem wrap {k : Wrapper} (hk : k.rank ≠ 1) (h : Becomes G e G₁ e₁) :
    Becomes G (.wrap k e) G₁ (.wrap k e₁) where
  grows := h.grows
  covered := h.covered
  value := by
    rw [value_wrap, value_wrap, h.value,
      frame_eq hk _ (isCompoundSource (e.source Leaf.text))]
  length := by
    have := h.length
    simp only [constructs]
    omega
  backward := h.backward

theorem join {j : Joiner} (ha : Becomes G a G₁ a') (hb : Becomes G₁ b G₂ b') (hcb : b.Covered G) :
    Becomes G (.join j a b) G₂ (.join j a' b') where
  grows := ha.grows_trans hb
  covered := ⟨(hb.keeps ha.covered).1, hb.covered⟩
  value := by
    rw [value_join, value_join, (hb.keeps ha.covered).2, ha.value, hb.value, (ha.keeps hcb).2]
  length := by
    have := ha.length
    have := hb.length
    simp only [constructs]
    omega
  backward := fun h => hb.backward (ha.backward h)

theorem backward_concat {w : Marked} (hG : G.Backward) (hw : G.Covers w) :
    Table.Backward (G ++ [w]) := by
  intro k n hn
  rw [List.getD_eq_getElem?_getD, List.getElem?_append] at hn
  split at hn
  · exact hG k n (by rwa [List.getD_eq_getElem?_getD])
  · rename_i hk
    cases hsub : k - G.length with
    | zero =>
      have := hw n (by simpa [hsub] using hn)
      omega
    | succ i => simp [hsub] at hn

/-- A formula is put aside as a fragment that has its value. -/
theorem store {w : Marked} (hgrows : ∃ H, G₁ = G ++ H) (hbackward : G.Backward → G₁.Backward)
    (hw : G₁.Covers w) (hvalue : G₁.expand w = e.value G)
    (hlength : G₁.length < G.length + e.constructs) :
    Becomes G e (G₁ ++ [w]) (.leaf (.mark G₁.length)) where
  grows := by
    obtain ⟨H, rfl⟩ := hgrows
    exact ⟨H ++ [w], List.append_assoc _ _ _⟩
  covered := by
    intro n hn
    rw [List.mem_singleton.mp hn, List.length_append]
    exact Nat.lt_succ_self _
  value := by
    rw [← hvalue, ← Table.value_concat hw]
    exact List.append_nil _
  length := by
    rw [List.length_append, List.length_singleton, constructs]
    omega
  backward := fun h => backward_concat (hbackward h) hw

/-- The LaTeX of a construct around a leaf. -/
def wrapped (k : Wrapper) (compound : Bool) (l : Leaf) : Marked :=
  Marked.plain (k.frame compound).1 ++ (l.marked ++ Marked.plain (k.frame compound).2)

/-- The LaTeX of a construct of two leaves. -/
def joined (j : Joiner) (l l' : Leaf) : Marked :=
  Marked.plain j.frame.1 ++
    (l.marked ++ (Marked.plain j.frame.2.1 ++ (l'.marked ++ Marked.plain j.frame.2.2)))

theorem text_wrapped (k : Wrapper) (compound : Bool) (l : Leaf) :
    (wrapped k compound l).text = (k.frame compound).1 ++ (l.text ++ (k.frame compound).2) := by
  simp [wrapped]

theorem text_joined (j : Joiner) (l l' : Leaf) :
    (joined j l l').text = j.frame.1 ++ (l.text ++ (j.frame.2.1 ++ (l'.text ++ j.frame.2.2))) := by
  simp [joined]

theorem covers_plain (G : Table) (text : Text) : G.Covers (Marked.plain text) := by
  simp [Table.Covers]

/-- A construct around a leaf is put aside. -/
theorem store_wrap {k : Wrapper} (h : Becomes G e G₁ (.leaf l)) :
    Becomes G (.wrap k e) (G₁ ++ [wrapped k (isCompoundSource (e.source Leaf.text)) l])
      (.leaf (.mark G₁.length)) := by
  have hl : G₁.Covers l.marked := h.covered
  have hvalue : G₁.expand l.marked = e.value G := h.value
  have hlength := h.length
  refine store h.grows h.backward ?_ ?_ ?_
  · exact Table.covers_append.mpr ⟨covers_plain _ _,
      Table.covers_append.mpr ⟨hl, covers_plain _ _⟩⟩
  · rw [wrapped, Table.expand_append, Table.expand_append, Table.expand_plain, Table.expand_plain,
      hvalue, value_wrap]
  · simp only [constructs] at hlength ⊢
    omega

/-- A construct of two leaves is put aside. -/
theorem store_join {j : Joiner} (ha : Becomes G a G₁ (.leaf l)) (hb : Becomes G₁ b G₂ (.leaf l'))
    (hcb : b.Covered G) :
    Becomes G (.join j a b) (G₂ ++ [joined j l l']) (.leaf (.mark G₂.length)) := by
  have hl : Formula.Covered G₂ (.leaf l) := (hb.keeps ha.covered).1
  have hl' : G₂.Covers l'.marked := hb.covered
  have hvalue : G₂.expand l.marked = a.value G := (hb.keeps ha.covered).2.trans ha.value
  have hvalue' : G₂.expand l'.marked = b.value G := hb.value.trans (ha.keeps hcb).2
  have hfirst := ha.length
  have hsecond := hb.length
  refine store (ha.grows_trans hb) (fun h => hb.backward (ha.backward h)) ?_ ?_ ?_
  · exact Table.covers_append.mpr ⟨covers_plain _ _, Table.covers_append.mpr ⟨hl,
      Table.covers_append.mpr ⟨covers_plain _ _, Table.covers_append.mpr ⟨hl', covers_plain _ _⟩⟩⟩⟩
  · simp only [joined, Table.expand_append, Table.expand_plain, hvalue, hvalue', value_join]
  · simp only [constructs] at hfirst hsecond ⊢
    omega

end Becomes

/-- The treatment of arguments makes a leaf of every formula that is small enough. -/
def Treatment.Solves (treat : Treatment) (bound : Nat) : Prop :=
  ∀ (prose : Bool) ⦃text : Text⦄ ⦃e : Formula Leaf⦄ ⦃G : Table⦄, text.trim = e.source Leaf.text →
    e.nodes ≤ bound → e.Proper → e.Covered G →
      ∃ (l : Leaf) (G' : Table), (treat prose text).Gives G l.text G' ∧ Becomes G e G' (.leaf l)

/-! ## Scanning a formula -/

/-- What may stand right before a formula. -/
def Starts (previous : Option Char) : Prop := ∀ c ∈ previous, c ∈ ['(', '|', '<', ' ']

/-- What may stand right behind a formula. -/
def Ends (rest : Text) : Prop := ∀ c ∈ rest.head?, c ∈ [')', '|', '>', ',']

theorem starts_none : Starts none := by simp [Starts]

theorem ends_nil : Ends [] := by simp [Ends]

theorem Wrapper.starts_opening (k : Wrapper) (previous : Option Char) :
    Starts ((k.word ++ k.opening).getLast?.or previous) := by
  cases k <;> simp [Starts, Wrapper.opening]

theorem Joiner.starts_opening (j : Joiner) (previous : Option Char) :
    Starts ((j.word ++ j.opening).getLast?.or previous) := by
  cases j <;> simp [Starts, Joiner.opening]

theorem Joiner.starts_middle (j : Joiner) (previous : Option Char) :
    Starts (j.middle.getLast?.or previous) := by
  cases j <;> simp [Starts, Joiner.middle]

theorem Wrapper.ends_closing (k : Wrapper) (rest : Text) : Ends (k.closing ++ rest) := by
  cases k <;> simp [Ends, Wrapper.closing]

theorem Joiner.ends_middle (j : Joiner) (rest : Text) : Ends (j.middle ++ rest) := by
  cases j <;> simp [Ends, Joiner.middle]

theorem Joiner.ends_closing (j : Joiner) (rest : Text) : Ends (j.closing ++ rest) := by
  cases j <;> simp [Ends, Joiner.closing]

/-- A formula that a step works on: its constructs are left to steps behind `m`, and it is small
enough for the treatment of its parts. -/
structure Formula.Fits (m bound : Nat) (e : Formula Leaf) : Prop where
  above : e.Above m
  proper : e.Proper
  small : e.nodes ≤ bound

namespace Formula.Fits

variable {m bound : Nat} {k : Wrapper} {j : Joiner} {e a b : Formula Leaf}

theorem part (h : (wrap k e).Fits m bound) : e.Fits m bound ∧ e.nodes < bound := by
  have hsmall := h.small
  rw [nodes] at hsmall
  exact ⟨⟨h.above.2, h.proper.2, by omega⟩, by omega⟩

theorem first (h : (join j a b).Fits m bound) : a.Fits m bound ∧ a.nodes < bound := by
  have hsmall := h.small
  rw [nodes] at hsmall
  exact ⟨⟨h.above.2.1, h.proper.1, by omega⟩, by omega⟩

theorem second (h : (join j a b).Fits m bound) : b.Fits m bound ∧ b.nodes < bound := by
  have hsmall := h.small
  rw [nodes] at hsmall
  exact ⟨⟨h.above.2.2, h.proper.2, by omega⟩, by omega⟩

/-- There are more rounds than constructs. -/
theorem constructs_lt {rounds : Nat} (h : e.Fits m (bound + 1)) (hrounds : bound < rounds) :
    e.constructs < rounds := by
  have hnodes := e.constructs_lt_nodes
  have hsmall := h.small
  omega

end Formula.Fits

/-- `e'` is `e` with so many of its outermost formulas of a kind replaced by markers. -/
inductive Trimmed (own : Formula Leaf → Prop) : (e e' : Formula Leaf) → (count : Nat) → Prop
  | leaf {l : Leaf} : Trimmed own (.leaf l) (.leaf l) 0
  | mark {e : Formula Leaf} {n : Nat} (h : own e) : Trimmed own e (.leaf (.mark n)) 1
  | wrap {k : Wrapper} {e e' : Formula Leaf} {n : Nat} (h : ¬own (.wrap k e))
      (part : Trimmed own e e' n) : Trimmed own (.wrap k e) (.wrap k e') n
  | join {j : Joiner} {a b a' b' : Formula Leaf} {n n' : Nat} (h : ¬own (.join j a b))
      (first : Trimmed own a a' n) (second : Trimmed own b b' n') :
      Trimmed own (.join j a b) (.join j a' b') (n + n')

/-- The scanner puts aside formulas of a kind, and passes over everything else. -/
structure Scanner.PutsAside (scan : Scanner) (own : Formula Leaf → Prop) (m bound : Nat) :
    Prop where
  leaf {l : Leaf} {previous : Option Char} {rest : Text} :
    Starts previous → Ends rest → scan.Passes previous l.text rest
  wrap {k : Wrapper} {e : Formula Leaf} {previous : Option Char} {rest : Text} :
    (Formula.wrap k e).Fits m bound → ¬own (.wrap k e) → Starts previous →
      scan.Passes previous (k.word ++ k.opening) (e.source Leaf.text ++ (k.closing ++ rest))
  join {j : Joiner} {a b : Formula Leaf} {previous : Option Char} {rest : Text} :
    (Formula.join j a b).Fits m bound → ¬own (.join j a b) → Starts previous →
      scan.Passes previous (j.word ++ j.opening) (a.source Leaf.text ++ (j.middle ++
        (b.source Leaf.text ++ (j.closing ++ rest))))
  sign {text : Text} {previous : Option Char} {rest : Text} :
    (∀ c ∈ text, c ∈ [')', '/', '(', ',', ' ', '|', '>']) → scan.Passes previous text rest
  hit {e : Formula Leaf} {G : Table} : e.Fits m bound → own e → e.Covered G →
    ∃ (n : Nat) (G' : Table), Becomes G e G' (.leaf (.mark n)) ∧
      ∀ {rounds : Nat} {previous : Option Char} {rest r : Text} {G'' : Table}, Starts previous →
        Ends rest → (∀ q, (scan rounds q rest).Gives G' r G'') →
          (scan (rounds + 1) previous (e.source Leaf.text ++ rest)).Gives G
            (Marker.ofNat n ++ r) G''

theorem Wrapper.sign_closing (k : Wrapper) :
    ∀ c ∈ k.closing, c ∈ [')', '/', '(', ',', ' ', '|', '>'] := by
  cases k <;> simp [Wrapper.closing]

theorem Joiner.sign_middle (j : Joiner) :
    ∀ c ∈ j.middle, c ∈ [')', '/', '(', ',', ' ', '|', '>'] := by
  cases j <;> simp [Joiner.middle]

theorem Joiner.sign_closing (j : Joiner) :
    ∀ c ∈ j.closing, c ∈ [')', '/', '(', ',', ' ', '|', '>'] := by
  cases j <;> simp [Joiner.closing]

/-- **Scanning the text of a formula** puts aside its outermost formulas of a kind, from left to
right, and goes on with what stands behind it. -/
theorem Scanner.PutsAside.gives_source {scan : Scanner} {own : Formula Leaf → Prop} {m bound : Nat}
    (h : scan.PutsAside own m bound)
    (hfactorial : ∀ e, (Formula.wrap .factorial e).Above m → own (.wrap .factorial e))
    {e : Formula Leaf} (he : e.Fits m bound) {G : Table} (hG : e.Covered G) :
    ∃ (e' : Formula Leaf) (n : Nat) (G' : Table), Trimmed own e e' n ∧ Becomes G e G' e' ∧
      ∀ {rounds : Nat} {previous : Option Char} {rest r : Text} {G'' : Table}, Starts previous →
        Ends rest → (∀ q, (scan rounds q rest).Gives G' r G'') →
          (scan (rounds + n) previous (e.source Leaf.text ++ rest)).Gives G
            (e'.source Leaf.text ++ r) G'' := by
  induction e generalizing G with
  | leaf l =>
    exact ⟨.leaf l, 0, G, .leaf, .refl hG, fun hstarts hends hrest =>
      (h.leaf hstarts hends).gives (hrest _)⟩
  | wrap k e ih =>
    by_cases hown : own (.wrap k e)
    · obtain ⟨n, G', hbecomes, hgives⟩ := h.hit he hown hG
      exact ⟨.leaf (.mark n), 1, G', .mark hown, hbecomes, hgives⟩
    · obtain ⟨e', n, G', htrimmed, hbecomes, hgives⟩ := ih he.part.1 hG
      have hk : k.rank ≠ 1 := by
        intro hrank
        cases k <;> simp [Wrapper.rank] at hrank
        exact hown (hfactorial e he.above)
      refine ⟨.wrap k e', n, G', .wrap hown htrimmed, hbecomes.wrap hk, ?_⟩
      intro rounds previous rest r G'' hstarts hends hrest
      have hpart := hgives (k.starts_opening previous) (k.ends_closing rest) fun q =>
        (h.sign k.sign_closing).gives (hrest _)
      have hall := (h.wrap he hown hstarts).gives hpart
      simpa only [Formula.source, List.append_assoc] using hall
  | join j a b iha ihb =>
    by_cases hown : own (.join j a b)
    · obtain ⟨n, G', hbecomes, hgives⟩ := h.hit he hown hG
      exact ⟨.leaf (.mark n), 1, G', .mark hown, hbecomes, hgives⟩
    · obtain ⟨a', n, G₁, htrimmed, hbecomes, hgives⟩ := iha he.first.1 hG.1
      obtain ⟨b', n', G₂, htrimmed', hbecomes', hgives'⟩ :=
        ihb he.second.1 (hbecomes.keeps hG.2).1
      refine ⟨.join j a' b', n + n', G₂, .join hown htrimmed htrimmed',
        hbecomes.join hbecomes' hG.2, ?_⟩
      intro rounds previous rest r G'' hstarts hends hrest
      -- The second part is scanned with the rounds that the first one leaves.
      have hsecond := fun q => (h.sign j.sign_middle).gives (hgives' (j.starts_middle q)
        (j.ends_closing rest) fun q => (h.sign j.sign_closing).gives (hrest _))
      have hfirst := hgives (j.starts_opening previous) (j.ends_middle _) hsecond
      have hall := (h.join he hown hstarts).gives hfirst
      rw [show rounds + n' + n = rounds + (n + n') by omega] at hall
      simpa only [Formula.source, List.append_assoc] using hall

namespace Trimmed

variable {own : Formula Leaf → Prop} {e e' : Formula Leaf} {n : Nat}

theorem constructs_le (hown : ∀ e, own e → 0 < e.constructs) (h : Trimmed own e e' n) :
    n + e'.constructs ≤ e.constructs := by
  induction h with
  | leaf => exact Nat.le_refl _
  | mark h => exact hown _ h
  | wrap _ _ ih =>
    simp only [constructs]
    omega
  | join _ _ _ iha ihb =>
    simp only [constructs]
    omega

theorem nodes_le (h : Trimmed own e e' n) : e'.nodes ≤ e.nodes := by
  induction h with
  | leaf => exact Nat.le_refl _
  | @mark e _ _ => cases e <;> simp only [nodes] <;> omega
  | wrap _ _ ih =>
    simp only [nodes]
    omega
  | join _ _ _ iha ihb =>
    simp only [nodes]
    omega

theorem proper (h : Trimmed own e e' n) (he : e.Proper) : e'.Proper := by
  induction h with
  | leaf => trivial
  | mark _ => trivial
  | wrap _ part ih =>
    refine ⟨fun hk => ?_, ih he.2⟩
    -- What is left of a part is a marker, or has the same outermost construct.
    have hpart := he.1 hk
    cases part with
    | leaf => rfl
    | mark _ => rfl
    | @wrap k _ _ _ _ _ =>
      cases k with
      | absolute => cases hpart
      | _ => rfl
    | join _ _ _ => rfl
  | join _ _ _ iha ihb => exact ⟨iha he.1, ihb he.2⟩

theorem above {m : Nat} (h : Trimmed own e e' n) (he : e.Above m) : e'.Above m := by
  induction h with
  | leaf => trivial
  | mark _ => trivial
  | wrap _ _ ih => exact ⟨he.1, ih he.2⟩
  | join _ _ _ iha ihb => exact ⟨he.1, iha he.2.1, ihb he.2.2⟩

/-- When the formulas of a step are put aside, what is left is above that step. -/
theorem above_rank {m r : Nat} (hgap : ∀ s ∈ ranks, m < s → s ≠ r → r < s)
    (h : Trimmed (fun e => e.rank = r) e e' n) (he : e.Above m) : e'.Above r := by
  induction h with
  | leaf => trivial
  | mark _ => trivial
  | @wrap k _ _ _ h _ ih => exact ⟨hgap _ k.rank_mem he.1 h, ih he.2⟩
  | @join j _ _ _ _ _ _ h _ _ iha ihb => exact ⟨hgap _ j.rank_mem he.1 h, iha he.2.1, ihb he.2.2⟩

theorem fits {m bound : Nat} (h : Trimmed own e e' n) (he : e.Fits m bound) : e'.Fits m bound :=
  ⟨h.above he.above, h.proper he.proper, h.nodes_le.trans he.small⟩

/-- When nothing is put aside, the formula is as before. -/
theorem eq_self (h : Trimmed own e e' n) (hn : n = 0) : e' = e := by
  induction h with
  | leaf => rfl
  | mark _ => cases hn
  | wrap _ _ ih => rw [ih hn]
  | join _ _ _ iha ihb => rw [iha (by omega), ihb (by omega)]

theorem count_eq_zero (hown : ∀ e, ¬own e) (h : Trimmed own e e' n) : n = 0 := by
  induction h with
  | leaf => rfl
  | mark h => exact absurd h (hown _)
  | wrap _ _ ih => exact ih
  | join _ _ _ iha ihb => rw [iha, ihb]

end Trimmed

/-- A formula is scanned from its start to its end. -/
theorem Scanner.PutsAside.gives_all {scan : Scanner} {own : Formula Leaf → Prop} {m bound : Nat}
    (h : scan.PutsAside own m bound)
    (hfactorial : ∀ e, (Formula.wrap .factorial e).Above m → own (.wrap .factorial e))
    (hown : ∀ e, own e → 0 < e.constructs)
    (hnil : ∀ rounds q (G : Table), (scan rounds q []).Gives G [] G) {rounds : Nat}
    (hrounds : bound ≤ rounds) {e : Formula Leaf} (he : e.Fits m bound) {G : Table}
    (hG : e.Covered G) :
    ∃ (e' : Formula Leaf) (n : Nat) (G' : Table), Trimmed own e e' n ∧ Becomes G e G' e' ∧
      (scan rounds none (e.source Leaf.text)).Gives G (e'.source Leaf.text) G' := by
  obtain ⟨e', n, G', htrimmed, hbecomes, hgives⟩ := h.gives_source hfactorial he hG
  refine ⟨e', n, G', htrimmed, hbecomes, ?_⟩
  have hcount := htrimmed.constructs_le hown
  have hnodes := e.constructs_lt_nodes
  have hsmall := he.small
  have hscan := hgives starts_none ends_nil fun q => hnil (rounds - n) q G'
  rw [show rounds - n + n = rounds by omega] at hscan
  simpa using hscan

/-- The step makes of a formula that is left by the steps up to `m` one that is left by the steps up
to `n`. -/
def Step.Clears (step : Step) (m n : Nat) : Prop :=
  ∀ ⦃treat : Treatment⦄ ⦃bound rounds : Nat⦄, treat.Solves bound → bound < rounds →
    ∀ ⦃e : Formula Leaf⦄ ⦃G : Table⦄, e.Fits m (bound + 1) → e.Covered G →
      ∃ (e' : Formula Leaf) (G' : Table),
        (step rounds treat (e.source Leaf.text)).Gives G (e'.source Leaf.text) G' ∧
          Becomes G e G' e' ∧ e'.Fits n (bound + 1)

end MathNotes
