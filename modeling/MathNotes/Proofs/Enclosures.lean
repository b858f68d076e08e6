import MathNotes.Construct.Enclosed
import MathNotes.Proofs.Calls

/-!
# Enclosed constructs along the catalogue

Vectors between angle brackets, sets between braces and absolute values between pipes are constructs
of the catalogue, whatever else is left in the line.
-/

namespace MathNotes

open Marked Extract

/-! ## Vectors -/

namespace Vector

theorem recognises_pattern : pattern.Recognises fun _ matched components _ =>
    matched = '<' :: (components ++ ['>']) := by
  intro previous text hit h
  simp only [pattern, Option.bind_eq_bind, Option.bind_eq_some_iff, Option.guard_eq_some',
    Option.pure_def, Option.some.injEq, Text.after?_eq_some_iff, drop_takeWhile] at h
  obtain ⟨rest, rfl, after, hafter, -, -, -, -, -, -, rfl⟩ := h
  have hsplit := List.takeWhile_append_dropWhile (p := fun c => c != '<' && c != '>') (l := rest)
  rw [hafter] at hsplit
  have htext : '<' :: rest =
      '<' :: (rest.takeWhile (fun c => c != '<' && c != '>') ++ ['>']) ++ after := by
    simp [hsplit]
  exact ⟨_, after, htext, Hit.width_leaving htext, by simp, rfl⟩

theorem seamed_pattern : Seamed pattern := by
  intro previous before matched after components hat
  obtain rfl := recognises_pattern.spec hat
  refine ⟨seam_of_head (by simp [isNameChar]), seam_of_last ?_⟩
  simp [List.getLast?_cons, isNameChar]

/-- The slots of a vector with so many components behind the first. -/
def slots (n : Nat) : List (Slot × Text × Text) :=
  List.replicate n (.argument true, [','], ",\\; ".toList) ++
    [(.argument true, ['>'], " \\rangle".toList)]

/-- The components of a vector are treated from left to right. -/
theorem weaves_components {treat : Treatment} {Arg : Treating} (hfollows : treat.Follows Arg)
    (hArg : Arg.Carrying) (parts : List Text) (first : Text) {c : Marked} {G : Table}
    (hc : c.text = Text.join [','] (first :: parts)) (hready : G.Ready c) :
    ∃ (written : List Text) (x : Marked) (G' : Table),
      ((first :: parts).mapM (treat true)).Gives G written G' ∧ written ≠ [] ∧
      x.text = Text.join ",\\; " written ++ " \\rangle" ∧
      WeavesSlots Arg (slots parts.length) (c ++ plain ['>']) G x G' := by
  induction parts generalizing first c G with
  | nil =>
    rw [show Text.join [','] [first] = first by simp [Text.join]] at hc
    obtain ⟨t, G', hgives, harg⟩ := hfollows true hready
    refine ⟨[t.text], t ++ plain " \\rangle".toList, G', ?_, by simp, by simp [Text.join], ?_⟩
    · rw [List.mapM_cons, ← hc]
      exact hgives.bind ((gives_pure [] G').bind (gives_pure _ _))
    · have hfills : (Slot.argument true).Fills Arg c G t G' := harg
      have hweaves : WeavesSlots Arg (slots 0) _ G _ G' := .cons hfills .nil
      simpa using hweaves
  | cons second parts ih =>
    have hc' : c.text = first ++ ',' :: Text.join [','] (second :: parts) := by
      rw [hc]
      simp [Text.join, List.intercalate]
    obtain ⟨u, v, rfl, rfl, hv⟩ := split_char hc' rfl
    obtain ⟨t, G₁, hgives, harg⟩ := hfollows true hready.left
    obtain ⟨H, rfl, -⟩ := hArg harg hready.left.covers
    obtain ⟨written, x, G', hmapM, hne, hx, hweaves⟩ := ih second hv (hready.right.right.grow H)
    refine ⟨t.text :: written, t ++ (plain ",\\; ".toList ++ x), G', ?_, by simp, ?_, ?_⟩
    · rw [List.mapM_cons]
      exact hgives.bind (hmapM.bind (gives_pure _ _))
    · obtain ⟨next, written, rfl⟩ := List.exists_cons_of_ne_nil hne
      rw [text_append, text_append, hx]
      simp [Text.join, List.intercalate]
    · have hfills : (Slot.argument true).Fills Arg u G t (G ++ H) := harg
      rw [List.append_assoc, List.append_assoc]
      exact .cons hfills hweaves

theorem stores_pattern {treat : Treatment} {Arg : Treating} (hfollows : treat.Follows Arg)
    (hArg : Arg.Carrying) :
    Stores pattern (fun components => do Extract.store (← latex treat components)) Arg := by
  intro previous m after components G hat hready
  obtain ⟨nothing, rest, rfl, hnothing, hrest⟩ :=
    split_char (a := []) (recognises_pattern.spec hat) rfl
  obtain ⟨c, nothing', rfl, rfl, hnothing'⟩ := split_char (b := []) hrest rfl
  obtain rfl := eq_nil_of_text hnothing
  obtain rfl := eq_nil_of_text hnothing'
  have hjoin := Text.join_splitTop [','] c.text
  obtain ⟨first, parts, hparts⟩ := List.exists_cons_of_ne_nil
    (Text.splitTopFrom_ne_nil [','] 0 c.text)
  rw [Text.splitTop, hparts] at hjoin
  obtain ⟨written, x, G', hmapM, -, hx, hweaves⟩ := weaves_components hfollows hArg parts first
    hjoin.symm hready.right.right.left
  have hlatex : (latex treat c.text).Gives G (text (plain "\\langle ".toList ++ x)) G' := by
    rw [latex, Text.splitTop, show (",".toList : Text) = [','] from rfl, hparts]
    exact hmapM.bind (gives_pure_eq (by simp [hx]) _)
  refine ⟨_, G', _, hlatex.bind (gives_store _ _), fun before => .vector parts.length, ?_⟩
  rw [List.append_nil]
  exact .mk hweaves

end Vector

theorem sound_vectors : Step.Sound Construct.vectors := by
  intro treat Arg hfollows hArg rounds w G hready
  induction rounds generalizing w G with
  | zero => exact runs_pure Arg [] w G
  | succ rounds ih =>
    obtain ⟨w', G', hgives, hrun⟩ := runs_replaceM hArg Vector.recognises_pattern.proper
      Vector.seamed_pattern.cuts (Vector.stores_pattern hfollows hArg) hready
    rw [Construct.vectors]
    refine Runs.bind ?_ hgives hrun
    split
    · rename_i heq
      rw [← heq]
      exact runs_pure Arg [] w' G'
    · exact ih (hrun.ready hArg hready)

/-! ## Sets -/

theorem Table.Ready.recasts {G : Table} {a b : Marked} (h : G.Ready a) (hab : a.Recasts b) :
    G.Ready b :=
  ⟨fun n hn => h.covers n (hab.numbers ▸ hn), hab.clear _ h.clear⟩

namespace SetBuilder

/-- A side of a set is treated once its set words are replaced. -/
theorem fills_member {treat : Treatment} {Arg : Treating} (hfollows : treat.Follows Arg)
    {a : Marked} {G : Table} (hready : G.Ready a) :
    ∃ (t : Marked) (G' : Table),
      (treat true (Symbol.substituteSetWords a.text)).Gives G t.text G' ∧
        Slot.member.Fills Arg a G t G' := by
  obtain ⟨b, hb, hcast, hweight⟩ := Symbol.exists_substituteSetWords a
  obtain ⟨t, G', hgives, harg⟩ := hfollows true (hready.recasts hcast)
  exact ⟨t, G', hb ▸ hgives, b, hb, hcast, hweight, harg⟩

/-- Where a set is cut into its elements and the condition on them. -/
theorem separator_spec {content : Text} {n : Nat}
    (h : (Text.findTop? ":" content).or (Text.findTop? "|" content) = some n) :
    ∃ separator : Char, (separator = ':' ∨ separator = '|') ∧
      content = content.take n ++ separator :: content.drop (n + 1) := by
  rw [Option.or_eq_some_iff] at h
  rcases h with h | ⟨-, h⟩
  · exact ⟨':', .inl rfl, Text.findTop?_spec h⟩
  · exact ⟨'|', .inr rfl, Text.findTop?_spec h⟩

/-- **A set is a construct of the catalogue.** -/
theorem weaves_latex {treat : Treatment} {Arg : Treating} (hfollows : treat.Follows Arg)
    (hArg : Arg.Carrying) {c : Marked} {G : Table} (hready : G.Ready c) :
    ∃ (l : Marked) (G' : Table) (shape : Shape), (latex treat c.text).Gives G l.text G' ∧
      (∀ before, Listed before shape) ∧
      shape.Weaves Arg (plain ['{'] ++ (c ++ plain ['}'])) G l G' := by
  rw [latex]
  cases hfind : (Text.findTop? ":" c.text).or (Text.findTop? "|" c.text) with
  | none =>
    obtain ⟨t, G', hgives, hfills⟩ := fills_member hfollows hready
    exact ⟨plain ['\\', '{'] ++ (t ++ plain ['\\', '}']), G', _,
      hgives.bind (gives_pure_eq (by simp) _), fun _ => .set, weaves_one hfills⟩
  | some n =>
    obtain ⟨separator, hseparator, htext⟩ := separator_spec hfind
    have hname : isNameChar separator = false := by
      rcases hseparator with rfl | rfl <;> rfl
    obtain ⟨u, v, rfl, hu, hv⟩ := split_char htext hname
    obtain ⟨t, G₁, helement, hfillu⟩ := fills_member hfollows hready.left
    obtain ⟨H, rfl, -⟩ := hfillu.carries hArg hready.left.covers
    obtain ⟨s, G₂, hcondition, hfillv⟩ := fills_member hfollows (hready.right.right.grow H)
    rw [hu] at helement
    rw [hv] at hcondition
    refine ⟨plain ['\\', '{'] ++ (t ++ (plain " \\mid ".toList ++ (s ++ plain ['\\', '}']))), G₂, _,
      helement.bind (hcondition.bind (gives_pure_eq (by simp) _)),
      fun _ => .conditionalSet hseparator, ?_⟩
    rw [List.append_assoc u, List.append_assoc (plain [separator])]
    exact weaves_two hfillu hfillv

/-- **Collecting sets runs along the catalogue.** -/
theorem runs_collect {treat : Treatment} {Arg : Treating} (hfollows : treat.Follows Arg)
    (hArg : Arg.Carrying) (rounds : Nat) {before w : Marked} {G : Table}
    (hready : G.Ready (before ++ w)) :
    (collect treat rounds before.text w.text).Runs Arg [] (before ++ w) G := by
  induction rounds generalizing before w G with
  | zero => exact ⟨before ++ w, G, gives_pure_eq (by simp) _, .refl⟩
  | succ rounds ih =>
    rw [collect]
    split
    · exact ⟨before ++ w, G, gives_pure_eq (by simp) _, .refl⟩
    · rename_i skipped after hbreak
      obtain ⟨u, v, rfl, rfl, rfl⟩ := split_char (Text.breakOn?_spec hbreak) rfl
      simp only
      split
      · -- The brace belongs to a command, a script or is escaped: it is passed over.
        have hpass : G.Ready ((before ++ (u ++ plain ['{'])) ++ v) := by simpa using hready
        simpa using ih hpass
      · split
        · -- The brace is never closed.
          have hescape : Advances Arg ((before ++ u) ++ .char '{' :: v, G)
            ((before ++ u) ++ .char '\\' :: .char '{' :: v, G) := .escape
          have hrun : Run Arg (before ++ (u ++ (plain ['{'] ++ v)), G)
              (before ++ (u ++ plain ['\\', '{']) ++ v, G) := .single (by simpa using hescape)
          obtain ⟨w', G', hgives, hrun'⟩ := ih (hrun.ready hArg hready)
          refine ⟨w', G', ?_, hrun.trans hrun'⟩
          simpa using hgives
        · rename_i content after hclosing
          obtain ⟨c, a, rfl, rfl, rfl⟩ := split_char (Delimiters.curly_splitClosing? hclosing) rfl
          obtain ⟨l, G', shape, hlatex, hlisted, hweaves⟩ :=
            weaves_latex hfollows hArg hready.right.right.right.left
          have hrun : Run Arg (before ++ (u ++ ((plain ['{'] ++ (c ++ plain ['}'])) ++ a)), G)
            (before ++ ((u ++ [.hit G'.length]) ++ a), G' ++ [l]) := .store (hlisted _) hweaves
          rw [← List.append_assoc before (u ++ _)] at hrun
          have hready' : G.Ready (before ++ (u ++ ((plain ['{'] ++ (c ++ plain ['}'])) ++ a))) := by
            simpa using hready
          obtain ⟨w', G'', hgives, hrun'⟩ := ih (hrun.ready hArg hready')
          refine ⟨w', G'', hlatex.bind ((gives_store l G').bind ?_), ?_⟩
          · simpa using hgives
          · simpa using hrun.trans hrun'

end SetBuilder

theorem sound_setBuilders : Step.Sound Construct.setBuilders := by
  intro treat Arg hfollows hArg rounds w G hready
  have hready' : G.Ready ([] ++ w) := hready
  exact SetBuilder.runs_collect hfollows hArg rounds hready'

/-! ## Absolute values -/

theorem sound_absoluteValues : Step.Sound Construct.absoluteValues := by
  intro treat Arg hfollows hArg rounds w G hready
  induction rounds generalizing w G with
  | zero => exact runs_pure Arg [] w G
  | succ rounds ih =>
    rw [Construct.absoluteValues]
    split
    · exact runs_pure Arg [] w G
    · rename_i first last hpair
      obtain ⟨u, rest, rfl, hu, hrest⟩ := split_char (Pipe.pair?_spec hpair) rfl
      obtain ⟨c, a, rfl, hc, ha⟩ := split_char hrest rfl
      obtain ⟨t, G', hgives, harg⟩ := hfollows true hready.right.right.left
      have hfills : (Slot.argument true).Fills Arg c G t G' := harg
      have hrun : Run Arg ([] ++ (u ++ ((plain ['|'] ++ (c ++ plain ['|'])) ++ a)), G)
          ([] ++ ((u ++ [.hit G'.length]) ++ a),
            G' ++ [plain "\\left|".toList ++ (t ++ plain "\\right|".toList)]) :=
        .store .absolute (weaves_one hfills)
      have hready' := hrun.ready hArg (by simpa using hready)
      obtain ⟨w', G'', hrest', hrun'⟩ := ih hready'
      refine ⟨w', G'', ?_, by simpa using hrun.trans hrun'⟩
      rw [hc] at hgives
      refine hgives.bind ?_
      rw [show "\\left|".toList ++ t.text ++ "\\right|".toList =
        text (plain "\\left|".toList ++ (t ++ plain "\\right|".toList)) by simp]
      refine (gives_store _ G').bind ?_
      rw [← hu, ← ha]
      simpa using hrest'

end MathNotes
