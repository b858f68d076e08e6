import MathNotes.Proofs.Marked

/-!
# Tables of fragments and what they write out

The fragments of a line, with their markers set apart, form a `Table`.  In a table that extraction
builds, the markers of a fragment stand for earlier fragments (`Table.Backward`), so every fragment
has a full expansion (`Table.value`), and so has every marked text (`Table.expand`).

A text is `Clear` when no `P` stands right before an `H`.  That the full expansion of a line is
clear is what keeps markers apart from everything else: it makes the line tidy, and it stays true
when markers are replaced by their fragments, however few of them.
-/

namespace MathNotes

/-! ## Clear texts -/

namespace Text

/-- No `P` stands right before an `H`. -/
def Clear (text : Text) : Prop := text.IsChain fun c d => ¬(c = 'P' ∧ d = 'H')

instance (text : Text) : Decidable text.Clear := inferInstanceAs (Decidable (List.IsChain _ _))

theorem clear_iff_not_infix {text : Text} : text.Clear ↔ ¬ "PH".toList <:+: text := by
  rw [Clear, List.isChain_iff_forall_rel_of_append_cons_cons]
  constructor
  · rintro h ⟨a, b, rfl⟩
    exact h (show a ++ "PH".toList ++ b = a ++ 'P' :: 'H' :: b by simp) ⟨rfl, rfl⟩
  · rintro h c d a b rfl ⟨rfl, rfl⟩
    exact h ⟨a, b, by simp⟩

theorem clear_nil : Clear [] := List.IsChain.nil

theorem clear_of_not_mem {text : Text} (h : 'P' ∉ text) : text.Clear := by
  rw [Clear, List.isChain_iff_forall_rel_of_append_cons_cons]
  rintro c d a b rfl ⟨rfl, -⟩
  exact h (by simp)

theorem clear_append {a b : Text} :
    Clear (a ++ b) ↔ a.Clear ∧ b.Clear ∧ ¬(a.getLast? = some 'P' ∧ b.head? = some 'H') := by
  rw [Clear, List.isChain_append]
  refine and_congr_right fun _ => and_congr_right fun _ => ⟨?_, ?_⟩
  · rintro h ⟨ha, hb⟩
    exact h 'P' ha 'H' hb ⟨rfl, rfl⟩
  · rintro h c hc d hd ⟨rfl, rfl⟩
    exact h ⟨hc, hd⟩

theorem Clear.left {a b : Text} (h : Clear (a ++ b)) : a.Clear := (clear_append.mp h).1

theorem Clear.right {a b : Text} (h : Clear (a ++ b)) : b.Clear := (clear_append.mp h).2.1

theorem Clear.within {a b : Text} (h : b.Clear) (hab : a <:+: b) : a.Clear :=
  List.IsChain.infix h hab

end Text

namespace Marked

/-- If a text is clear with its markers filled in, then it is tidy. -/
theorem tidy_of_clear {value : Nat → Text} {w : Marked} (h : (w.fill value).Clear) : Tidy w := by
  rw [Tidy, List.isChain_iff_forall_rel_of_append_cons_cons]
  rintro x y a b rfl ⟨rfl, rfl⟩
  refine Text.clear_iff_not_infix.mp h ⟨fill value a, fill value b, ?_⟩
  simp

theorem Tidy.within {u w : Marked} (h : Tidy w) (huw : u <:+: w) : Tidy u :=
  List.IsChain.infix h huw

end Marked

/-! ## Tables -/

/-- Fragments with their markers set apart. -/
abbrev Table := List Marked

namespace Table

/-- The fragments as texts. -/
def texts (table : Table) : Fragments := table.map Marked.text

@[simp] theorem texts_length (table : Table) : table.texts.length = table.length :=
  List.length_map _

@[simp] theorem texts_append (G H : Table) : texts (G ++ H) = G.texts ++ H.texts := List.map_append

/-- The full expansion of a fragment: each of its markers, which stand for earlier fragments, is
replaced by the full expansion of its fragment. -/
def value (table : Table) (n : Nat) : Text :=
  Marked.fill (fun m => if m < n then value table m else Marker.ofNat m) (table.getD n [])
termination_by n

/-- The full expansion of a marked text. -/
def expand (table : Table) (w : Marked) : Text := w.fill table.value

/-- The markers of every fragment stand for earlier ones. -/
def Backward (table : Table) : Prop := ∀ k, ∀ n ∈ (table.getD k []).numbers, n < k

/-- All markers of a text stand for fragments of the table. -/
def Covers (table : Table) (w : Marked) : Prop := ∀ n ∈ w.numbers, n < table.length

variable {G H : Table} {u v w : Marked}

@[simp] theorem expand_append (G : Table) (u v : Marked) :
    G.expand (u ++ v) = G.expand u ++ G.expand v := Marked.fill_append _ u v

@[simp] theorem expand_plain (G : Table) (t : Text) : G.expand (Marked.plain t) = t :=
  Marked.fill_plain _ t

@[simp] theorem expand_nil (G : Table) : G.expand [] = [] := rfl

@[simp] theorem expand_char (G : Table) (c : Char) (w : Marked) :
    G.expand (.char c :: w) = c :: G.expand w := rfl

@[simp] theorem expand_hit (G : Table) (n : Nat) (w : Marked) :
    G.expand (.hit n :: w) = G.value n ++ G.expand w := rfl

theorem covers_append : G.Covers (u ++ v) ↔ G.Covers u ∧ G.Covers v := by
  simp [Covers, or_imp, forall_and]

theorem Covers.mono (h : G.Covers w) (H : Table) : Covers (G ++ H) w := by
  intro n hn
  have := h n hn
  rw [List.length_append]
  omega

/-- A fragment's expansion does not change when the table grows. -/
theorem value_append {n : Nat} (hn : n < G.length) : value (G ++ H) n = G.value n := by
  induction n using Nat.strongRecOn with
  | ind n ih =>
    have hget : (G ++ H).getD n [] = G.getD n [] := by
      simp only [List.getD_eq_getElem?_getD]
      rw [List.getElem?_append_left hn]
    rw [value, value, hget]
    refine Marked.fill_congr _ fun m _ => ?_
    split
    · rename_i hm
      exact ih m hm (by omega)
    · rfl

theorem expand_grow (h : G.Covers w) (H : Table) : expand (G ++ H) w = G.expand w :=
  Marked.fill_congr _ fun n hn => value_append (h n hn)

/-- The expansion of the newest fragment. -/
theorem value_concat (h : G.Covers w) : value (G ++ [w]) G.length = G.expand w := by
  rw [value, show (G ++ [w]).getD G.length [] = w by simp]
  refine Marked.fill_congr _ fun m hm => ?_
  rw [if_pos (h m hm), value_append (h m hm)]

/-- In a backward table, the expansion of a fragment is the expansion of its text. -/
theorem Backward.value_eq (hG : G.Backward) (n : Nat) : G.value n = G.expand (G.getD n []) := by
  rw [value]
  exact Marked.fill_congr _ fun m hm => if_pos (hG n m hm)

/-- A line that may be worked on: its markers are covered, and its expansion is clear. -/
structure Ready (G : Table) (w : Marked) : Prop where
  covers : G.Covers w
  clear : (G.expand w).Clear

theorem Ready.tidy (h : G.Ready w) : w.Tidy := Marked.tidy_of_clear h.clear

theorem Ready.left (h : G.Ready (u ++ v)) : G.Ready u :=
  ⟨(covers_append.mp h.covers).1, by have := h.clear; rw [expand_append] at this; exact this.left⟩

theorem Ready.right (h : G.Ready (u ++ v)) : G.Ready v :=
  ⟨(covers_append.mp h.covers).2, by have := h.clear; rw [expand_append] at this; exact this.right⟩

theorem Ready.grow (h : G.Ready w) (H : Table) : Ready (G ++ H) w :=
  ⟨h.covers.mono H, by rw [expand_grow h.covers]; exact h.clear⟩

end Table

end MathNotes
