import MathNotes.Proofs.HeadingIndents
import MathNotes.Proofs.PageReading

/-!
# The numbers of equations

A page in HTML writes the number of a formula next to it.  A LaTeX document writes none: LaTeX
itself counts the equation environments.  Both numberings are the same
(`numberLines_blocks`), because a block is an equation environment exactly where a line has a
number (`Tex.isEquation_block`), and the numbers count up from one without gaps
(`numberLines_range`).
-/

namespace MathNotes

/-! ## Equation environments -/

namespace Tex

/-- A formula in an equation environment. -/
def equation (latex : Text) : Text :=
  display (Latex.command "begin" ["equation"]) latex (Latex.command "end" ["equation"])

/-- Whether a block is an equation environment. -/
def isEquation (block : Text) : Bool :=
  (Latex.command "begin" ["equation"]).isPrefixOf block &&
    (Latex.command "end" ["equation"]).isSuffixOf block

theorem isEquation_equation (latex : Text) : isEquation (equation latex) = true := by
  rw [isEquation, Bool.and_eq_true, List.isPrefixOf_iff_prefix, List.isSuffixOf_iff_suffix,
    equation, display]
  generalize Latex.command "begin" ["equation"] = first
  exact ⟨⟨_, by simp only [List.append_assoc]; rfl⟩, List.suffix_append _ _⟩

theorem block_of_math {line : NumberedLine} (h : line.kind = .math) :
    block true line = equation line.latex := by
  rw [block, h]
  rfl

/-- The formulas become equations, and nothing else does. -/
theorem isEquation_block (line : NumberedLine) :
    isEquation (block true line) = decide (line.kind = .math) := by
  cases hkind : line.kind with
  | math => rw [block_of_math hkind, isEquation_equation]; rfl
  | spacer => simp only [block, hkind]; rfl
  | header => simp only [block, hkind]; rfl
  | empty => simp only [block, hkind]; rfl

end Tex

/-! ## Numbers on a page -/

namespace Html

/-- A division shows a number: one of its rows starts with it. -/
def ShowsNumber (number : Nat) (rows : List Text) : Prop :=
  ∃ row ∈ rows,
    "<span class=\"line-number\">".toList ++ (Text.ofNat number ++ "</span>".toList) <+: row

/-- Digits in front of a bracket are read back. -/
theorem ofNat_prefix_iff {n : Nat} {digits after : Text}
    (hdigits : ∀ c ∈ digits, c.isDigit = true) :
    Text.ofNat n ++ "</span>".toList <+: digits ++ ("</span>".toList ++ after) ↔
      Text.ofNat n = digits := by
  constructor
  · rintro ⟨rest, hrest⟩
    have hstop : ∀ rest : Text, ∀ c ∈ ("</span>".toList ++ rest).head?, c.isDigit = false := by
      intro rest c hc
      cases hc
      decide
    have htake := congrArg (List.takeWhile Char.isDigit) hrest
    rwa [List.append_assoc,
      takeWhile_append_stop (fun c hc => Marker.digit_of_mem_ofNat hc) (hstop rest),
      takeWhile_append_stop hdigits (hstop after)] at htake
  · rintro rfl
    rw [← List.append_assoc]
    exact List.prefix_append _ _

/-- The number that stands in front of a shown line. -/
theorem prefix_numeral_iff {n : Nat} {number : Option Nat} {after : Text} :
    "<span class=\"line-number\">".toList ++ (Text.ofNat n ++ "</span>".toList) <+:
      numeral true number ++ after ↔ number = some n := by
  have hdigits : ∀ c ∈ number.elim [] Text.ofNat, c.isDigit = true := by
    cases number with
    | none => exact List.forall_mem_nil _
    | some m => exact fun c hc => Marker.digit_of_mem_ofNat hc
  simp only [numeral, if_true, List.append_assoc]
  rw [List.prefix_append_right_inj, ofNat_prefix_iff hdigits]
  cases number with
  | none => simp [Marker.textOfNat_ne_nil]
  | some m =>
    rw [Option.some.injEq]
    exact ⟨fun h => (Text.ofNat_injective h).symm, fun h => h ▸ rfl⟩

/-- A row of a page that is indented does not start with a number. -/
theorem not_prefix_of_space {number row : Text} :
    ¬ "<span class=\"line-number\">".toList ++ number <+: ' ' :: row := by
  rintro ⟨rest, hrest⟩
  cases (List.cons.inj hrest).1

/-- The rows of a line show its number, if it has one. -/
theorem showsNumber_division_iff {line : NumberedLine}
    (h : line.kind = .empty → line.number = none) (n : Nat) :
    ShowsNumber n (division true line) ↔ line.number = some n := by
  by_cases hkind : line.kind = .empty
  · rw [division_of_empty hkind true rfl rfl, h hkind]
    simp only [ShowsNumber, List.mem_singleton, exists_eq_left, reduceCtorEq, iff_false]
    exact not_prefix_of_space
  · rw [division_of_ne_empty hkind true rfl rfl rfl rfl]
    simp only [ShowsNumber, List.mem_cons, List.not_mem_nil, or_false, exists_eq_or_imp,
      exists_eq_left]
    rw [List.append_assoc (numeral true line.number), List.append_assoc (numeral true line.number),
      prefix_numeral_iff]
    exact ⟨fun hrow => hrow.elim (absurd · not_prefix_of_space)
      fun hrow => hrow.elim id (absurd · not_prefix_of_space), fun hnumber => .inr (.inl hnumber)⟩

end Html

/-! ## Counting -/

theorem number_of_mem_numberFrom {count : Nat} {lines : List OutputLine} {line : NumberedLine}
    (h : line ∈ numberFrom count lines) : line.number.isSome = decide (line.kind = .math) := by
  induction lines generalizing count with
  | nil => cases h
  | cons first lines ih =>
    rw [numberFrom] at h
    split at h
    · rcases List.mem_cons.mp h with rfl | h
      · rfl
      · exact ih h
    · rename_i hkind
      rcases List.mem_cons.mp h with rfl | h
      · simp [hkind]
      · exact ih h

/-- A page shows the numbers of its lines, and no others. -/
theorem showsNumber_iff {count : Nat} {lines : List OutputLine} {line : NumberedLine}
    (h : line ∈ numberFrom count lines) (n : Nat) :
    Html.ShowsNumber n (Html.division true line) ↔ line.number = some n := by
  refine Html.showsNumber_division_iff (fun hempty => ?_) n
  rw [← Option.not_isSome_iff_eq_none, number_of_mem_numberFrom h, hempty]
  decide

/-- The numbers count up without gaps. -/
theorem numberFrom_range (count : Nat) (lines : List OutputLine) :
    (numberFrom count lines).filterMap (·.number) =
      List.range' (count + 1) (formulaCount lines) := by
  have hnumbers := congrArg (List.map Prod.snd) (numberFrom_numbers count lines)
  rw [List.map_filterMap, List.zipIdx_map_snd, List.length_map, ← List.countP_eq_length_filter]
    at hnumbers
  rw [formulaCount, ← hnumbers]
  refine List.filterMap_congr fun line _ => ?_
  cases line.number <;> rfl

theorem numberLines_range (lines : List OutputLine) :
    (numberLines lines).filterMap (·.number) = List.range' 1 (formulaCount lines) :=
  numberFrom_range 0 lines

/-- The elements of a list that have numbers, where these count up from one: the one at index `k`
is the one with the number `k + 1`. -/
theorem getElem?_filter_isSome_iff {α : Type} {list : List α} {number : α → Option Nat} {m : Nat}
    (h : list.filterMap number = List.range' 1 m) {k : Nat} {x : α} :
    (list.filter fun y => (number y).isSome)[k]? = some x ↔ x ∈ list ∧ number x = some (k + 1) := by
  have hmap : ∀ list : List α, (list.filter fun y => (number y).isSome).map number =
      (list.filterMap number).map some := by
    intro list
    induction list with
    | nil => rfl
    | cons y list ih => cases hy : number y <;> simp [hy, ih]
  have hat : ∀ {k : Nat} {x : α}, (list.filter fun y => (number y).isSome)[k]? = some x →
      number x = some (k + 1) := by
    intro k x hx
    have hk := congrArg (·[k]?) ((hmap list).trans (congrArg _ h))
    simp only [List.getElem?_map, hx, Option.map_some] at hk
    obtain ⟨n, hn, hnumber⟩ := Option.map_eq_some_iff.mp hk.symm
    obtain ⟨hlt, hvalue⟩ := List.getElem?_eq_some_iff.mp hn
    rw [List.getElem_range', Nat.one_mul, Nat.add_comm] at hvalue
    rw [← hnumber, hvalue]
  constructor
  · intro hx
    exact ⟨(List.mem_filter.mp (List.mem_of_getElem? hx)).1, hat hx⟩
  · rintro ⟨hmem, hnumber⟩
    have hnumbered : x ∈ list.filter fun y => (number y).isSome :=
      List.mem_filter.mpr ⟨hmem, by rw [hnumber]; rfl⟩
    obtain ⟨j, hj⟩ := List.getElem?_of_mem hnumbered
    obtain rfl : j = k := by
      have := (hat hj).symm.trans hnumber
      simpa using this
    exact hj

/-! ## Both numberings -/

/-- What depends on the columns that numbering leaves alone is the same before and after it. -/
theorem map_numberLines {β : Type} (column : Text × Text × LineKind → β) (lines : List OutputLine) :
    (numberLines lines).map (fun line => column (line.id, line.latex, line.kind)) =
      lines.map fun line => column (line.id, line.latex, LineKind.of line) := by
  have h := congrArg (List.map column) (numberFrom_lines 0 lines)
  rwa [List.map_map, List.map_map] at h

theorem isEquation_of_mem {lines : List OutputLine} {line : NumberedLine}
    (h : line ∈ numberLines lines) :
    Tex.isEquation (Tex.block true line) = line.number.isSome :=
  (Tex.isEquation_block line).trans (number_of_mem_numberFrom h).symm

/-- The equations are the blocks of the lines with numbers. -/
theorem filter_blocks (lines : List OutputLine) :
    (Tex.blocks true lines).filter Tex.isEquation =
      ((numberLines lines).filter fun line => line.number.isSome).map (Tex.block true) := by
  rw [Tex.blocks, List.filter_map]
  exact congrArg _ (List.filter_congr fun line hline => isEquation_of_mem hline)

/-- The equation at an index comes from the line with the next number. -/
theorem getElem?_equations_iff {lines : List OutputLine} {k : Nat} {block : Text} :
    ((Tex.blocks true lines).filter Tex.isEquation)[k]? = some block ↔
      ∃ line ∈ numberLines lines, line.number = some (k + 1) ∧ Tex.block true line = block := by
  rw [filter_blocks, List.getElem?_map, Option.map_eq_some_iff]
  refine exists_congr fun line => ?_
  rw [getElem?_filter_isSome_iff (numberLines_range lines)]
  exact and_assoc

theorem getElem?_blocks {lines : List OutputLine} {p : Nat} {line : NumberedLine}
    (h : (numberLines lines)[p]? = some line) :
    (Tex.blocks true lines)[p]? = some (Tex.block true line) := by
  rw [Tex.blocks, List.getElem?_map, h]
  rfl

/-- **A page and a LaTeX document number the same lines.**  The numbers of a page go to the formulas
and to nothing else, from one on and in their order.  The document has a block for every line, an
equation where the line has a number; so the equation that LaTeX counts as number `k + 1` is the
formula that the page shows with this number. -/
theorem numberLines_blocks (lines : List OutputLine) :
    let numbered := numberLines lines
    let blocks := Tex.blocks true lines
    numbered.map (fun line => (line.id, line.latex)) =
      lines.map (fun line => (line.id, line.latex)) ∧
    numbered.map (fun line => line.number.isSome) =
      lines.map (fun line => decide (LineKind.of line = .math)) ∧
    numbered.filterMap (fun line => line.number) = List.range' 1 (formulaCount lines) ∧
    blocks.length = lines.length ∧
    blocks.map Tex.isEquation = numbered.map (fun line => line.number.isSome) ∧
    ∀ (k : Nat) (block : Text), (blocks.filter Tex.isEquation)[k]? = some block ↔
      ∃ (p : Nat) (line : NumberedLine), numbered[p]? = some line ∧
        Html.ShowsNumber (k + 1) (Html.division true line) ∧
        blocks[p]? = some block ∧ block = Tex.equation line.latex := by
  intro numbered blocks
  have hmath : ∀ line ∈ numbered, line.number.isSome = decide (line.kind = .math) :=
    fun line => number_of_mem_numberFrom
  refine ⟨map_numberLines (fun row => (row.1, row.2.1)) lines, ?_, numberLines_range lines, ?_, ?_,
    fun k block => ?_⟩
  · rw [List.map_congr_left hmath]
    exact map_numberLines (fun row => decide (row.2.2 = .math)) lines
  · exact (List.length_map _).trans (length_numberFrom 0 lines)
  · exact List.map_map.trans (List.map_congr_left fun line hline => isEquation_of_mem hline)
  · rw [getElem?_equations_iff]
    constructor
    · rintro ⟨line, hmem, hnumber, rfl⟩
      obtain ⟨p, hp⟩ := List.getElem?_of_mem hmem
      have hkind : line.kind = .math := by
        have := hmath line hmem
        rw [hnumber] at this
        simpa using this
      exact ⟨p, line, hp, (showsNumber_iff hmem _).mpr hnumber, getElem?_blocks hp,
        Tex.block_of_math hkind⟩
    · rintro ⟨p, line, hp, hshows, hblock, -⟩
      have hmem := List.mem_of_getElem? hp
      exact ⟨line, hmem, (showsNumber_iff hmem _).mp hshows,
        Option.some.inj ((getElem?_blocks hp).symm.trans hblock)⟩

end MathNotes
