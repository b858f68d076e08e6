import MathNotes.Proofs.Ceilings
import MathNotes.Proofs.NestedContexts
import MathNotes.Proofs.Rewrites
import Mathlib.Algebra.Group.Nat.Even

/-!
# Absolute values, all or none

Whether a pipe opens or closes depends on its neighbours and on the pipes in front of it.  The
marker that takes the place of a pair becomes the neighbour of the pipes around the pair, but each
of them does what it did: a pipe in front of the pair opened, and still opens in front of a marker;
a pipe behind the pair could not open, and cannot behind a marker.  Further behind, all that counts
is how many pipes are open and whether the last character is one that opened (`Pipe.Alike`).

So pipes that pair up go on doing so when the pair that closes first is put aside
(`Pipe.exists_pair`), and a line is left without pipes or as it was
(`Construct.absoluteValues_all_or_none`).
-/

namespace MathNotes

namespace Pipe

variable {state state' final final' : State} {opened outer : List Nat} {index index' i j : Nat}
  {previous previous' next : Option Char} {text : Text}

/-! ## What a pipe does -/

/-- Whether a pipe stands right behind the innermost open one. -/
def behindOpen (state : State) (index : Nat) : Bool := state.opened.head?.any (· + 1 == index)

/-- Whether a pipe opens. -/
def opens (state : State) (index : Nat) (previous next : Option Char) : Bool :=
  (previous.all mayFollow || behindOpen state index) &&
    (next.any startsOperand || state.opened.isEmpty || behindOpen state index)

/-- **A pipe opens, or it closes the innermost open one.** -/
theorem step_eq_some_iff :
    step state index previous next = some state' ↔
      opens state index previous next = true ∧
          state' = ⟨index :: state.opened, state.first⟩ ∨
        opens state index previous next = false ∧ ∃ innermost outer,
          state.opened = innermost :: outer ∧
            state' = ⟨outer, state.first.or (some (innermost, index))⟩ := by
  obtain ⟨opened, first⟩ := state
  cases opened with
  | nil =>
    have hstep : step ⟨[], first⟩ index previous next =
        if opens ⟨[], first⟩ index previous next then some ⟨[index], first⟩ else none := rfl
    rw [hstep]
    cases opens ⟨[], first⟩ index previous next <;> simp [eq_comm]
  | cons innermost outer =>
    have hstep : step ⟨innermost :: outer, first⟩ index previous next =
        if opens ⟨innermost :: outer, first⟩ index previous next then
          some ⟨index :: innermost :: outer, first⟩
        else some ⟨outer, first.or (some (innermost, index))⟩ := rfl
    rw [hstep]
    cases opens ⟨innermost :: outer, first⟩ index previous next <;> simp [eq_comm]

theorem walk_cons_of_ne {c : Char} (hc : c ≠ '|') :
    walk state index previous (c :: text) = walk state (index + 1) (some c) text := by
  rw [walk, if_neg (by simpa using hc)]

theorem walk_pipe_eq_some_iff :
    walk state index previous ('|' :: text) = some final ↔
      ∃ state', step state index previous text.head? = some state' ∧
        walk state' (index + 1) (some '|') text = some final := by
  rw [walk, if_pos (beq_self_eq_true _)]
  cases step state index previous text.head? <;> simp

/-! ## Walks that stand alike -/

/-- Two walks stand alike: so many pipes are open in both, and the next pipe may open in both or in
neither. -/
structure Alike (state : State) (index : Nat) (previous : Option Char)
    (state' : State) (index' : Nat) (previous' : Option Char) : Prop where
  length : state'.opened.length = state.opened.length
  behind : behindOpen state' index' = behindOpen state index
  follows : previous'.all mayFollow = previous.all mayFollow
  below : ∀ k ∈ state.opened, k < index
  below' : ∀ k ∈ state'.opened, k < index'

/-- A position further on is not right behind an open pipe. -/
theorem behindOpen_succ (h : ∀ k ∈ state.opened, k < index) :
    behindOpen state (index + 1) = false := by
  rw [behindOpen]
  cases hopened : state.opened with
  | nil => rfl
  | cons k outer =>
    have hk : k < index := h k (by simp [hopened])
    simp only [List.head?_cons, Option.any_some, beq_eq_false_iff_ne]
    omega

namespace Alike

variable (h : Alike state index previous state' index' previous')
include h

theorem opens_eq (next : Option Char) :
    opens state' index' previous' next = opens state index previous next := by
  have hempty : state'.opened.isEmpty = state.opened.isEmpty := by
    rw [Bool.eq_iff_iff, List.isEmpty_iff_length_eq_zero, List.isEmpty_iff_length_eq_zero, h.length]
  rw [opens, opens, h.behind, h.follows, hempty]

/-- Past a character that is no pipe, or past a pipe that closed. -/
theorem pass {passed passed' : State} (hlength : passed'.opened.length = passed.opened.length)
    (hsub : passed.opened ⊆ state.opened) (hsub' : passed'.opened ⊆ state'.opened) (c : Char) :
    Alike passed (index + 1) (some c) passed' (index' + 1) (some c) where
  length := hlength
  behind := by
    rw [behindOpen_succ fun k hk => h.below k (hsub hk),
      behindOpen_succ fun k hk => h.below' k (hsub' hk)]
  follows := rfl
  below k hk := Nat.lt_succ_of_lt (h.below k (hsub hk))
  below' k hk := Nat.lt_succ_of_lt (h.below' k (hsub' hk))

/-- Past a pipe that opened. -/
theorem push (c : Char) :
    Alike ⟨index :: state.opened, state.first⟩ (index + 1) (some c)
      ⟨index' :: state'.opened, state'.first⟩ (index' + 1) (some c) where
  length := by simp [h.length]
  behind := by simp [behindOpen]
  follows := rfl
  below := by
    simp only [List.forall_mem_cons]
    exact ⟨Nat.lt_succ_self _, fun k hk => Nat.lt_succ_of_lt (h.below k hk)⟩
  below' := by
    simp only [List.forall_mem_cons]
    exact ⟨Nat.lt_succ_self _, fun k hk => Nat.lt_succ_of_lt (h.below' k hk)⟩

/-- **Walks that stand alike go alike.** -/
theorem walk (hwalk : Pipe.walk state index previous text = some final) :
    ∃ final', Pipe.walk state' index' previous' text = some final' ∧
      final'.opened.length = final.opened.length := by
  induction text generalizing state state' index index' previous previous' with
  | nil =>
    cases hwalk
    exact ⟨state', rfl, h.length⟩
  | cons c text ih =>
    by_cases hc : c = '|'
    · subst hc
      obtain ⟨next, hstep, hwalk⟩ := walk_pipe_eq_some_iff.mp hwalk
      rcases step_eq_some_iff.mp hstep with ⟨hopens, rfl⟩ | ⟨hcloses, innermost, outer, hout, rfl⟩
      · obtain ⟨final', hfinal, hlength⟩ := ih (h.push '|') hwalk
        refine ⟨final', walk_pipe_eq_some_iff.mpr ⟨_, ?_, hfinal⟩, hlength⟩
        exact step_eq_some_iff.mpr (.inl ⟨(h.opens_eq _).trans hopens, rfl⟩)
      · have hlength := h.length
        rw [hout] at hlength
        obtain ⟨innermost', outer', hout'⟩ :=
          List.exists_cons_of_length_eq_add_one (n := outer.length) (by simpa using hlength)
        have hpass : Alike ⟨outer, state.first.or (some (innermost, index))⟩ (index + 1) (some '|')
            ⟨outer', state'.first.or (some (innermost', index'))⟩ (index' + 1) (some '|') :=
          h.pass (by simpa [hout'] using hlength) (by simp [hout]) (by simp [hout']) '|'
        obtain ⟨final', hfinal, hlength⟩ := ih hpass hwalk
        refine ⟨final', walk_pipe_eq_some_iff.mpr ⟨_, ?_, hfinal⟩, hlength⟩
        exact step_eq_some_iff.mpr
          (.inr ⟨(h.opens_eq _).trans hcloses, innermost', outer', hout', rfl⟩)
    · rw [walk_cons_of_ne hc] at hwalk
      rw [walk_cons_of_ne hc]
      exact ih (h.pass h.length (List.Subset.refl _) (List.Subset.refl _) c) hwalk

end Alike

/-! ## The pair that closes first -/

/-- A pair that is found stays the first one. -/
theorem first_walk {pair : Nat × Nat} (hfirst : state.first = some pair)
    (h : walk state index previous text = some final) : final.first = some pair := by
  induction text generalizing state index previous with
  | nil =>
    cases h
    exact hfirst
  | cons c text ih =>
    by_cases hc : c = '|'
    · subst hc
      obtain ⟨state', hstep, h⟩ := walk_pipe_eq_some_iff.mp h
      refine ih ?_ h
      rcases step_eq_some_iff.mp hstep with ⟨-, rfl⟩ | ⟨-, innermost, outer, -, rfl⟩
      · exact hfirst
      · rw [hfirst, Option.some_or]
    · rw [walk_cons_of_ne hc] at h
      exact ih hfirst h

/-- Nothing is closed first that opened before the innermost open pipe. -/
theorem le_of_first {innermost : Nat} (hbelow : innermost < index)
    (h : walk ⟨innermost :: outer, none⟩ index previous text = some final)
    (hfirst : final.first = some (i, j)) : innermost ≤ i := by
  induction text generalizing innermost outer index previous with
  | nil =>
    cases h
    cases hfirst
  | cons c text ih =>
    by_cases hc : c = '|'
    · subst hc
      obtain ⟨state', hstep, h⟩ := walk_pipe_eq_some_iff.mp h
      rcases step_eq_some_iff.mp hstep with ⟨-, rfl⟩ | ⟨-, _, _, hout, rfl⟩
      · exact hbelow.le.trans (ih (Nat.lt_succ_self index) h)
      · cases hout
        have hpair := (first_walk rfl h).symm.trans hfirst
        cases hpair
        exact Nat.le_refl _
    · rw [walk_cons_of_ne hc] at h
      exact ih (Nat.lt_succ_of_lt hbelow) h

/-- The innermost open pipe is closed first by the next pipe, and the walk goes on behind it. -/
theorem exists_closing (hbelow : i < index)
    (h : walk ⟨i :: outer, none⟩ index previous text = some final)
    (hfirst : final.first = some (i, j)) :
    ∃ inside after, text = inside ++ '|' :: after ∧ '|' ∉ inside ∧ j = index + inside.length ∧
      walk ⟨outer, some (i, j)⟩ (j + 1) (some '|') after = some final := by
  induction text generalizing index previous with
  | nil =>
    cases h
    cases hfirst
  | cons c text ih =>
    by_cases hc : c = '|'
    · subst hc
      obtain ⟨state', hstep, h⟩ := walk_pipe_eq_some_iff.mp h
      rcases step_eq_some_iff.mp hstep with ⟨-, rfl⟩ | ⟨-, _, _, hout, rfl⟩
      · have hle := le_of_first (Nat.lt_succ_self index) h hfirst
        omega
      · cases hout
        have hpair := (first_walk rfl h).symm.trans hfirst
        cases hpair
        exact ⟨[], text, rfl, by simp, rfl, h⟩
    · rw [walk_cons_of_ne hc] at h
      obtain ⟨inside, after, rfl, hinside, rfl, hwalk⟩ := ih (Nat.lt_succ_of_lt hbelow) h
      exact ⟨c :: inside, after, rfl, by simp [hinside, Ne.symm hc], by simp; omega, hwalk⟩

/-- What takes the place of a pair: no pipe, an operand in front, and an end behind which no pipe
opens. -/
structure StandIn (marker : Text) : Prop where
  notMem : '|' ∉ marker
  head : marker.head?.any startsOperand = true
  last : ∀ previous : Option Char, (marker.getLast?.or previous).all mayFollow = false

theorem standIn_ofNat (n : Nat) : StandIn (Marker.ofNat n) where
  notMem h := by cases Marker.nameChar_of_mem_ofNat h
  head := by simp [Marker.ofNat_eq, startsOperand]
  last previous := by
    have hlast : (Marker.ofNat n).getLast? = some '_' := by
      simp [Marker.ofNat_eq, List.getLast?_cons]
    rw [hlast, Option.some_or]
    decide

theorem StandIn.ne_nil {marker : Text} (hmarker : StandIn marker) : marker ≠ [] := by
  rintro rfl
  cases hmarker.head

/-- A pipe that opens does so in front of what takes the place of a pair. -/
theorem opens_standIn {marker : Text} (hmarker : StandIn marker) (rest : Text)
    (h : opens state index previous next = true) :
    opens state index previous (marker ++ rest).head? = true := by
  rw [opens, Bool.and_eq_true] at h ⊢
  refine ⟨h.1, ?_⟩
  rw [List.head?_append_of_ne_nil _ hmarker.ne_nil, hmarker.head, Bool.true_or, Bool.true_or]

/-- Behind a pair, the walk stands as it stands behind what takes its place. -/
theorem alike_standIn {marker : Text} (hmarker : StandIn marker) (hbelow : ∀ k ∈ opened, k < i)
    (first : Option (Nat × Nat)) (length : Nat) :
    Alike ⟨opened, first⟩ (i + 1 + length + 1) (some '|') ⟨opened, none⟩ (i + marker.length)
      (marker.getLast?.or previous) := by
  obtain ⟨rest, hrest⟩ :=
    Nat.exists_eq_add_one_of_ne_zero (List.length_pos_iff.mpr hmarker.ne_nil).ne'
  have hfar : ∀ k ∈ opened, k < i + rest := fun k hk =>
    (hbelow k hk).trans_le (Nat.le_add_right _ _)
  have hfar' : ∀ k ∈ opened, k < i + 1 + length := fun k hk => (hbelow k hk).trans_le (by omega)
  refine ⟨rfl, ?_, ?_, fun k hk => Nat.lt_succ_of_lt (hfar' k hk),
    fun k hk => (hbelow k hk).trans_le (Nat.le_add_right _ _)⟩
  · rw [hrest, ← Nat.add_assoc, behindOpen_succ hfar, behindOpen_succ hfar']
  · rw [hmarker.last]
    decide

/-- **The pair that closes first is put aside**: there is no pipe inside it, and with `marker` in
its place the other pipes do as before. -/
theorem exists_pair {marker : Text} (hmarker : StandIn marker) (hbelow : ∀ k ∈ opened, k < index)
    (hi : i ∉ opened) (h : walk ⟨opened, none⟩ index previous text = some final)
    (hfirst : final.first = some (i, j)) :
    ∃ before inside after, text = before ++ '|' :: (inside ++ '|' :: after) ∧ '|' ∉ inside ∧
      i = index + before.length ∧ j = i + 1 + inside.length ∧
      ∃ final', walk ⟨opened, none⟩ index previous (before ++ (marker ++ after)) = some final' ∧
        final'.opened.length = final.opened.length := by
  induction text generalizing opened index previous with
  | nil =>
    cases h
    cases hfirst
  | cons c text ih =>
    by_cases hc : c = '|'
    · subst hc
      obtain ⟨state', hstep, h⟩ := walk_pipe_eq_some_iff.mp h
      rcases step_eq_some_iff.mp hstep with ⟨hopens, rfl⟩ | ⟨-, innermost, _, hout, rfl⟩
      · by_cases hhere : i = index
        · -- This is the pipe, and the walk goes on behind its pair.
          subst hhere
          obtain ⟨inside, after, rfl, hinside, rfl, hwalk⟩ :=
            exists_closing (Nat.lt_succ_self i) h hfirst
          obtain ⟨final', hfinal, hlength⟩ := (alike_standIn hmarker hbelow _ _).walk hwalk
          refine ⟨[], inside, after, rfl, hinside, rfl, rfl, final', ?_, hlength⟩
          rw [List.nil_append, walks_of_not_mem hmarker.notMem, Option.or_none, hfinal]
        · have hpushed : ∀ k ∈ index :: opened, k < index + 1 := by
            simp only [List.forall_mem_cons]
            exact ⟨Nat.lt_succ_self _, fun k hk => Nat.lt_succ_of_lt (hbelow k hk)⟩
          obtain ⟨before, inside, after, rfl, hinside, rfl, rfl, final', hfinal, hlength⟩ :=
            ih hpushed (by simp [hhere, hi]) h
          refine ⟨'|' :: before, inside, after, rfl, hinside, by simp; omega, rfl, final',
            walk_pipe_eq_some_iff.mpr ⟨_, step_eq_some_iff.mpr (.inl ⟨?_, rfl⟩), hfinal⟩, hlength⟩
          -- Its neighbour is what it was, or it is the marker.
          cases before with
          | nil => exact opens_standIn hmarker after hopens
          | cons d before => exact hopens
      · have hpair := (first_walk rfl h).symm.trans hfirst
        cases hpair
        exact absurd (by simp [show opened = i :: _ from hout]) hi
    · rw [walk_cons_of_ne hc] at h
      obtain ⟨before, inside, after, rfl, hinside, rfl, rfl, final', hfinal, hlength⟩ :=
        ih (fun k hk => Nat.lt_succ_of_lt (hbelow k hk)) hi h
      refine ⟨c :: before, inside, after, rfl, hinside, by simp; omega, rfl, final', ?_, hlength⟩
      rw [List.cons_append, walk_cons_of_ne hc]
      exact hfinal

/-! ## Pipes that pair up -/

/-- Every pipe opens or closes, and none is left open. -/
def PairsUp (text : Text) : Prop := ∃ first, walk ⟨[], none⟩ 0 none text = some ⟨[], first⟩

/-- A pipe that opened is open or was closed, by one pipe; the first that was closed is recorded. -/
theorem count_walk (h : walk state index previous text = some final) :
    ∃ closed, final.opened.length + 2 * closed = state.opened.length + text.count '|' ∧
      (final.first = none → closed = 0) := by
  induction text generalizing state index previous with
  | nil =>
    cases h
    exact ⟨0, rfl, fun _ => rfl⟩
  | cons c text ih =>
    by_cases hc : c = '|'
    · subst hc
      obtain ⟨state', hstep, h⟩ := walk_pipe_eq_some_iff.mp h
      obtain ⟨closed, hcount, hnone⟩ := ih h
      rw [List.count_cons_self]
      rcases step_eq_some_iff.mp hstep with ⟨-, rfl⟩ | ⟨-, innermost, outer, hout, rfl⟩
      · exact ⟨closed, by simp only [List.length_cons] at hcount; omega, hnone⟩
      · refine ⟨closed + 1, by simp only [hout, List.length_cons] at hcount ⊢; omega,
          fun hfirst => ?_⟩
        cases hfound : state.first with
        | none =>
          rw [hfound, Option.none_or] at h
          cases (first_walk rfl h).symm.trans hfirst
        | some pair =>
          rw [hfound, Option.some_or] at h
          cases (first_walk rfl h).symm.trans hfirst
    · rw [walk_cons_of_ne hc] at h
      rw [List.count_cons_of_ne hc]
      exact ih h

/-- **An even number of pipes pairs up.** -/
theorem PairsUp.even (h : PairsUp text) : Even (text.count '|') := by
  obtain ⟨first, hwalk⟩ := h
  obtain ⟨closed, hcount, -⟩ := count_walk hwalk
  simp only [List.length_nil, Nat.zero_add] at hcount
  exact ⟨closed, by omega⟩

/-- A pair is found exactly where there are pipes and they pair up. -/
theorem exists_pair?_iff : (∃ pair, pair? text = some pair) ↔ PairsUp text ∧ '|' ∈ text := by
  constructor
  · rintro ⟨pair, hpair⟩
    obtain ⟨first, last⟩ := pair
    refine ⟨?_, by rw [pair?_spec hpair]; simp⟩
    rw [pair?] at hpair
    split at hpair
    · rename_i hwalk
      exact ⟨_, hwalk⟩
    · cases hpair
  · rintro ⟨⟨first, hwalk⟩, hmem⟩
    obtain ⟨closed, hcount, hnone⟩ := count_walk hwalk
    have hpos := List.count_pos_iff.mpr hmem
    rw [pair?, hwalk]
    cases first with
    | some pair => exact ⟨pair, rfl⟩
    | none =>
      obtain rfl := hnone rfl
      simp only [List.length_nil] at hcount
      omega

/-- **Pipes still pair up when the pair that is found is put aside.** -/
theorem pairsUp_putAside (h : pair? text = some (i, j)) (n : Nat) :
    '|' ∉ (text.take j).drop (i + 1) ∧
      PairsUp (text.take i ++ Marker.ofNat n ++ text.drop (j + 1)) ∧
      (text.take i ++ Marker.ofNat n ++ text.drop (j + 1)).count '|' + 2 = text.count '|' := by
  obtain ⟨⟨first, hwalk⟩, -⟩ := exists_pair?_iff.mp ⟨_, h⟩
  rw [pair?, hwalk] at h
  obtain ⟨before, inside, after, rfl, hinside, rfl, rfl, ⟨opened, first'⟩, hfinal, hlength⟩ :=
    exists_pair (standIn_ofNat n) (by simp) (List.not_mem_nil) hwalk h
  obtain rfl := List.length_eq_zero_iff.mp hlength
  rw [Nat.zero_add]
  obtain ⟨hbefore, hcontent, hafter⟩ := cut_positions before inside after
  rw [hbefore, hcontent, hafter, List.append_assoc]
  refine ⟨hinside, ⟨first', hfinal⟩, ?_⟩
  simp only [List.count_append, List.count_cons_self, List.count_eq_zero.mpr hinside,
    List.count_eq_zero.mpr (standIn_ofNat n).notMem]
  omega

end Pipe

/-! ## Round after round -/

namespace Construct

/-- One round over a line and what is put aside: the pair that is found holds no pipe, and a marker
takes its place. -/
def AbsoluteRound (treat : Treatment) (now next : Text × Extraction) : Prop :=
  ∃ first last, Checked.pipePair? now.1 = .ok (some (first, last)) ∧
    let inside := (now.1.take last).drop (first + 1)
    let (inner, treated) := treat true inside now.2
    '|' ∉ inside ∧ next = (now.1.take first ++ treated.marker ++ now.1.drop (last + 1),
      treated.put ("\\left|" ++ inner ++ "\\right|"))

/-- Pipes that pair up are put aside, two in a round. -/
theorem exists_absoluteRounds (treat : Treatment) (rounds : Nat) {text : Text} (s : Extraction)
    (hpairs : Pipe.PairsUp text) (hrounds : text.count '|' ≤ rounds) :
    ∃ states : Nat → Text × Extraction, states 0 = (text, s) ∧
      states (text.count '|' / 2) = absoluteValues rounds treat text s ∧
      (∀ k < text.count '|' / 2, AbsoluteRound treat (states k) (states (k + 1))) ∧
      '|' ∉ (states (text.count '|' / 2)).1 := by
  induction rounds generalizing text s with
  | zero =>
    have hcount : text.count '|' = 0 := Nat.le_zero.mp hrounds
    rw [hcount]
    exact ⟨fun _ => (text, s), rfl, rfl, by simp, List.count_eq_zero.mp hcount⟩
  | succ rounds ih =>
    by_cases hmem : '|' ∈ text
    · obtain ⟨⟨first, last⟩, hpair⟩ := Pipe.exists_pair?_iff.mpr ⟨hpairs, hmem⟩
      generalize htreat : treat true ((text.take last).drop (first + 1)) s = treated
      obtain ⟨inner, treated⟩ := treated
      obtain ⟨hinside, hpairs', hcount⟩ :=
        Pipe.pairsUp_putAside hpair treated.fragments.length
      obtain ⟨states, hstart, hend, hround, hnone⟩ :=
        ih (treated.put ("\\left|" ++ inner ++ "\\right|")) hpairs' (by omega)
      have hhalf : text.count '|' / 2 = (text.take first ++ Marker.ofNat treated.fragments.length ++
          text.drop (last + 1)).count '|' / 2 + 1 := by omega
      -- This round comes in front of those that are left.
      refine ⟨Nat.rec (text, s) fun k _ => states k, rfl, ?_, ?_, ?_⟩
      · rw [hhalf]
        simp only [hend]
        rw [absoluteValues, hpair]
        simp only [Extract.bind_apply, htreat]
        rfl
      · rintro (_ | k) hk
        · refine ⟨first, last, (Checked.pipePair?_eq text).trans (congrArg Except.ok hpair), ?_⟩
          simp only [Nat.rec_zero, htreat, hstart]
          exact ⟨hinside, rfl⟩
        · exact hround k (by omega)
      · rw [hhalf]
        exact hnone
    · have hcount : text.count '|' = 0 := List.count_eq_zero.mpr hmem
      have hpair : Pipe.pair? text = none :=
        Option.eq_none_iff_forall_ne_some.mpr fun pair hpair =>
          hmem (Pipe.exists_pair?_iff.mp ⟨pair, hpair⟩).2
      rw [hcount, Pipe.absoluteValues_of_pair?_none hpair]
      exact ⟨fun _ => (text, s), rfl, rfl, by simp, hmem⟩

/-- **Absolute values are put aside all or none.** Where no pair is found, the line and what is put
aside stay as they are.  Otherwise there is an even number of pipes, half as many rounds run, each
of them finds a pair without a pipe inside, and no pipe is left. -/
theorem absoluteValues_all_or_none (treat : Treatment) (rounds : Nat) (text : Text) (s : Extraction)
    (hrounds : text.count '|' ≤ rounds) :
    ∃ found, Checked.pipePair? text = .ok found ∧
      (found = none → (Checked.absoluteValues rounds treat.checked text).run s = (.ok text, s)) ∧
      (found ≠ none →
        Even (text.count '|') ∧
        ∃ states : Nat → Text × Extraction, states 0 = (text, s) ∧
          (∀ k < text.count '|' / 2, AbsoluteRound treat (states k) (states (k + 1))) ∧
          (Checked.absoluteValues rounds treat.checked text).run s =
            (.ok (states (text.count '|' / 2)).1, (states (text.count '|' / 2)).2) ∧
          '|' ∉ (states (text.count '|' / 2)).1) := by
  refine ⟨Pipe.pair? text, Checked.pipePair?_eq text, fun hnone => ?_, fun hsome => ?_⟩
  · rw [Checked.checks_absoluteValues, Pipe.absoluteValues_of_pair?_none hnone]
    rfl
  · obtain ⟨hpairs, -⟩ := Pipe.exists_pair?_iff.mp (Option.ne_none_iff_exists'.mp hsome)
    obtain ⟨states, hstart, hend, hround, hnone⟩ :=
      exists_absoluteRounds treat rounds s hpairs hrounds
    refine ⟨hpairs.even, states, hstart, hround, ?_, hnone⟩
    rw [Checked.checks_absoluteValues, Checked.run_sure, hend]

theorem absoluteValues_all_or_none_nested :
    let text := "||a| - |b + |c| | | = |d|".toList
    (text.count '|' ≤ 64 ∧ Checked.pipePair? text = .ok (some (1, 3))) ∧
    ∃ found, Checked.pipePair? text = .ok found ∧
      (found = none →
        (Checked.absoluteValues 64 (treatment 64 31).checked text).run {} = (.ok text, {})) ∧
      (found ≠ none →
        Even (text.count '|') ∧
        ∃ states : Nat → Text × Extraction, states 0 = (text, {}) ∧
          (∀ k < text.count '|' / 2,
            AbsoluteRound (treatment 64 31) (states k) (states (k + 1))) ∧
          (Checked.absoluteValues 64 (treatment 64 31).checked text).run {} =
            (.ok (states (text.count '|' / 2)).1, (states (text.count '|' / 2)).2) ∧
          '|' ∉ (states (text.count '|' / 2)).1) := by
  intro text
  exact ⟨by decide +kernel, absoluteValues_all_or_none (treatment 64 31) 64 text {} (by decide)⟩

end Construct

end MathNotes
