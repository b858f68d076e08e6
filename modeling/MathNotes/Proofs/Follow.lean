import MathNotes.Proofs.Carry
import MathNotes.Proofs.Cut
import MathNotes.Proofs.Echo

/-!
# Following the catalogue

The functions of the extraction work on texts and put fragments aside in a state.  `Extract.Gives`
says what such a computation gives, in terms of tables of marked texts.  A treatment of arguments
*follows* a relation when it gives what the relation allows (`Treatment.Follows`); a computation on
a line *runs* when what it gives is reached by steps of the catalogue (`Extract.Runs`).

All calls are collected by one function, so they are dealt with once here (`Call.runs_collect`).
-/

namespace MathNotes

open Marked Extract

/-! ## Computations -/

namespace Extract

variable {α β : Type} {m : Extract α} {f : α → Extract β} {a : α} {b : β} {G G₁ G₂ : Table}

/-- From the fragments of `G` the computation gives `a` and leaves the fragments of `G'`, whatever
was kept before. -/
def Gives (m : Extract α) (G : Table) (a : α) (G' : Table) : Prop :=
  ∀ kept : List Text, ∃ kept' : List Text, m ⟨G.texts, kept⟩ = (a, ⟨G'.texts, kept'⟩)

theorem gives_pure (a : α) (G : Table) : Gives (pure a) G a G := fun kept => ⟨kept, rfl⟩

theorem gives_pure_eq {a b : α} (h : a = b) (G : Table) : Gives (pure a) G b G :=
  h ▸ gives_pure a G

theorem Gives.bind (h : m.Gives G a G₁) (h' : (f a).Gives G₁ b G₂) : (m >>= f).Gives G b G₂ := by
  intro kept
  obtain ⟨kept₁, h₁⟩ := h kept
  obtain ⟨kept₂, h₂⟩ := h' kept₁
  refine ⟨kept₂, ?_⟩
  show (do let (a, s) ← m ⟨G.texts, kept⟩; f a s) = _
  rw [h₁]
  exact h₂

theorem gives_store (latex : Marked) (G : Table) :
    (store latex.text).Gives G (Marker.ofNat G.length) (G ++ [latex]) := by
  intro kept
  refine ⟨kept, ?_⟩
  rw [store, Fragments.add, Table.texts_length, Table.texts_append]
  rfl

theorem gives_keep (text : Text) (G : Table) : (keep text).Gives G text G :=
  fun kept => ⟨kept ++ [text], rfl⟩

/-- The computation rewrites the line `w` behind `before` by steps of the catalogue. -/
def Runs (m : Extract Text) (Arg : Treating) (before w : Marked) (G : Table) : Prop :=
  ∃ (w' : Marked) (G' : Table), m.Gives G w'.text G' ∧ Run Arg (before ++ w, G) (before ++ w', G')

theorem runs_pure (Arg : Treating) (before w : Marked) (G : Table) :
    Runs (pure w.text) Arg before w G :=
  ⟨w, G, gives_pure _ _, .refl⟩

/-- A computation that takes steps, and then one that rewrites the line. -/
theorem Runs.bind {Arg : Treating} {before w w₁ : Marked} {f : α → Extract Text}
    (h : (f a).Runs Arg before w₁ G₁) (hm : m.Gives G a G₁)
    (hrun : Run Arg (before ++ w, G) (before ++ w₁, G₁)) : (m >>= f).Runs Arg before w G := by
  obtain ⟨w', G', hgives, hrun'⟩ := h
  exact ⟨w', G', hm.bind hgives, hrun.trans hrun'⟩

/-- A part of the line is passed over, and the rest is rewritten. -/
theorem Runs.pass {Arg : Treating} {before u v : Marked} {m : Extract Text} {f : Text → Text}
    (h : m.Runs Arg (before ++ u) v G) (hf : ∀ t, f t = u.text ++ t) :
    Runs (do let rest ← m; return f rest) Arg before (u ++ v) G := by
  obtain ⟨v', G', hgives, hrun⟩ := h
  refine ⟨u ++ v', G', hgives.bind ?_, ?_⟩
  · rw [hf, ← text_append]
    exact gives_pure _ _
  · simpa only [List.append_assoc] using hrun

end Extract

/-- What the treatment of arguments gives is what the relation allows. -/
def Treatment.Follows (treat : Treatment) (Arg : Treating) : Prop :=
  ∀ (prose : Bool) ⦃a : Marked⦄ ⦃G : Table⦄, G.Ready a →
    ∃ (t : Marked) (G' : Table), (treat prose a.text).Gives G t.text G' ∧ Arg prose a G t G'

/-- Every step of a run leads to a line that may be worked on. -/
theorem Run.ready {Arg : Treating} (hArg : Arg.Carrying) {w w' : Marked} {G G' : Table}
    (h : Run Arg (w, G) (w', G')) (hw : G.Ready w) : G'.Ready w' := by
  obtain ⟨H, hH, hcarry⟩ := h.carries hArg hw.covers
  simp only at hH hcarry
  subst hH
  exact ⟨hcarry.covers hw.covers, hcarry.clear hw.clear⟩

/-- A construct behind `before` and `u` is put aside. -/
theorem Run.store {Arg : Treating} {before u source after latex : Marked} {G G' : Table}
    {shape : Shape} (listed : Listed (before ++ u).text.getLast? shape)
    (weaves : shape.Weaves Arg source G latex G') :
    Run Arg (before ++ (u ++ (source ++ after)), G)
      (before ++ ((u ++ [.hit G'.length]) ++ after), G' ++ [latex]) := by
  have h : Advances Arg ((before ++ u) ++ (source ++ after), G)
      ((before ++ u) ++ .hit G'.length :: after, G' ++ [latex]) := .store listed weaves
  refine .single ?_
  simpa only [List.append_assoc, List.singleton_append] using h

/-- Hits of the pattern are cut out of a tidy sequence. -/
def Cuts {α : Type} (pattern : Pattern α) : Prop :=
  ∀ ⦃previous : Option Char⦄ ⦃before matched after : Text⦄ ⦃value : α⦄ ⦃w : Marked⦄, w.Tidy →
    pattern.HitsAt (before.getLast?.or previous) matched value after →
    w.text = before ++ (matched ++ after) →
      ∃ u m a : Marked, w = u ++ (m ++ a) ∧ u.text = before ∧ m.text = matched ∧ a.text = after

theorem Marked.Seamed.cuts {α : Type} {pattern : Pattern α} (h : Seamed pattern) :
    Cuts pattern := by
  intro previous before matched after value w _ hat hw
  obtain ⟨hstart, hstop⟩ := h hat
  obtain ⟨u, v, rfl, hu, hv⟩ := split hw hstart
  obtain ⟨m, a, rfl, hm, ha⟩ := split hv hstop
  exact ⟨u, m, a, rfl, hu, hm, ha⟩

namespace Call

variable {α : Type} {head : Pattern α} {build : α → Text → Extract (Option Text)}

/-- What `build` makes of a call: nothing, or a construct of the catalogue. -/
def Builds (head : Pattern α) (build : α → Text → Extract (Option Text)) (Arg : Treating) : Prop :=
  ∀ ⦃previous : Option Char⦄ ⦃m arg : Marked⦄ ⦃after : Text⦄ ⦃value : α⦄ ⦃G : Table⦄,
    head.HitsAt previous m.text value after → G.Ready arg →
      (build value arg.text).Gives G none G ∨
      ∃ (latex : Marked) (G' : Table) (shape : Shape),
        (build value arg.text).Gives G (some latex.text) G' ∧ Listed previous shape ∧
          shape.Weaves Arg (m ++ (arg ++ plain [')'])) G latex G'

/-- What is put aside at a cut. -/
theorem gives_putAside {Arg : Treating} (hbuild : Builds head build Arg) {cut : Cut α}
    {previous : Option Char} {m a : Marked} {G : Table}
    (hat : head.HitsAt previous m.text cut.value cut.after) (ha : a.text = cut.after)
    (hready : G.Ready a) :
    (putAside build cut).Gives G none G ∨
    ∃ (arg after latex : Marked) (G' : Table) (shape : Shape), a = arg ++ (plain [')'] ++ after) ∧
      (putAside build cut).Gives G (some (Marker.ofNat G'.length, after.text)) (G' ++ [latex]) ∧
      Listed previous shape ∧ shape.Weaves Arg (m ++ (arg ++ plain [')'])) G latex G' := by
  rw [putAside]
  split
  · exact .inl (gives_pure _ _)
  · rename_i argument after hsplit
    have htext := ha.trans (Delimiters.round_splitClosing? hsplit)
    obtain ⟨arg, aft, rfl, rfl, rfl⟩ := split_char htext rfl
    rcases hbuild hat hready.left with hnone | ⟨latex, G', shape, hsome, hlisted, hweaves⟩
    · exact .inl (hnone.bind (gives_pure _ _))
    · exact .inr ⟨arg, aft, latex, G', shape, rfl,
        hsome.bind ((gives_store latex G').bind (gives_pure _ _)), hlisted, hweaves⟩

/-- **Collecting calls runs along the catalogue.** -/
theorem runs_collect {Arg : Treating} (hArg : Arg.Carrying) (hp : head.Proper)
    (hcuts : Cuts head) (hbuild : Builds head build Arg) (rounds : Nat) {before w : Marked}
    {G : Table} (hready : G.Ready (before ++ w)) :
    (collect head build rounds before.text.getLast? w.text).Runs Arg before w G := by
  induction rounds generalizing before w G with
  | zero => exact runs_pure Arg before w G
  | succ rounds ih =>
    rw [collect]
    split
    · exact runs_pure Arg before w G
    · rename_i cut hcut
      obtain ⟨htext, hat⟩ := Pattern.find?_spec hp hcut
      obtain ⟨u, m, a, rfl, hu, hm, ha⟩ := hcuts hready.right.tidy hat htext
      rw [← hu, ← hm] at hat
      rw [show u.text.getLast?.or before.text.getLast? = (before ++ u).text.getLast? by
        rw [text_append, List.getLast?_append]] at hat
      rcases gives_putAside hbuild hat ha hready.right.right.right with
        hnone | ⟨arg, after, latex, G', shape, rfl, hsome, hlisted, hweaves⟩
      · -- The call stays, and what follows it is looked at.
        have hrest : (collect head build rounds (before ++ (u ++ m)).text.getLast? a.text).Runs Arg
            (before ++ (u ++ m)) a G := ih (by simpa only [List.append_assoc] using hready)
        rw [← List.append_assoc, text_append, List.getLast?_append_of_ne_nil _ hat.2, hm, ha,
          List.append_assoc] at hrest
        rw [← List.append_assoc]
        refine Runs.bind ?_ hnone .refl
        exact hrest.pass fun t => by rw [text_append, hu, hm]
      · have hrun : Run Arg (before ++ (u ++ ((m ++ (arg ++ plain [')'])) ++ after)), G)
          (before ++ ((u ++ [.hit G'.length]) ++ after), G' ++ [latex]) := .store hlisted hweaves
        have hready' := hrun.ready hArg (by simpa only [List.append_assoc] using hready)
        have hrest : (collect head build rounds
            (text (before ++ (u ++ [.hit G'.length]))).getLast? after.text).Runs Arg
              (before ++ (u ++ [.hit G'.length])) after (G' ++ [latex]) :=
          ih (by simpa only [List.append_assoc] using hready')
        have hmarker : Marked.text [.hit G'.length] = Marker.ofNat G'.length := by simp
        rw [← List.append_assoc, text_append, hmarker,
          List.getLast?_append_of_ne_nil _ (by simp [Marker.ofNat_eq]), List.append_assoc] at hrest
        rw [show u ++ (m ++ (arg ++ (plain [')'] ++ after))) =
          u ++ ((m ++ (arg ++ plain [')'])) ++ after) by simp]
        refine Runs.bind ?_ hsome hrun
        exact hrest.pass fun t => by rw [text_append, hu, hmarker]

end Call

/-! ## Replacing by constructs -/

section Replacing

variable {α : Type} {pattern : Pattern α} {store : α → Extract Text}

/-- What stands at a hit is put aside as a construct that may stand anywhere. -/
def Stores (pattern : Pattern α) (store : α → Extract Text) (Arg : Treating) : Prop :=
  ∀ ⦃previous : Option Char⦄ ⦃m : Marked⦄ ⦃after : Text⦄ ⦃value : α⦄ ⦃G : Table⦄,
    pattern.HitsAt previous m.text value after → G.Ready m →
      ∃ (latex : Marked) (G' : Table) (shape : Shape),
        (store value).Gives G (Marker.ofNat G'.length) (G' ++ [latex]) ∧
          (∀ before, Listed before shape) ∧ shape.Weaves Arg m G latex G'

theorem flatten_singletons (text : Text) : (text.map ([·])).flatten = text := by
  rw [← List.flatMap_def, List.flatMap_singleton']

theorem gives_mapM_chars (text : Text) (G : Table) :
    ((text.map Piece.char).mapM (replacePiece store)).Gives G (text.map ([·])) G := by
  induction text with
  | nil => exact gives_pure _ _
  | cons c text ih =>
    rw [List.map_cons, List.mapM_cons]
    exact (gives_pure [c] G).bind (ih.bind (gives_pure _ _))

theorem Extract.Gives.append {f : α → Extract Text} {l₁ l₂ : List α} {xs ys : List Text}
    {G G₁ G₂ : Table} (h₁ : (l₁.mapM f).Gives G xs G₁) (h₂ : (l₂.mapM f).Gives G₁ ys G₂) :
    ((l₁ ++ l₂).mapM f).Gives G (xs ++ ys) G₂ := by
  rw [List.mapM_append]
  exact h₁.bind (h₂.bind (gives_pure _ _))

/-- **Replacing the hits of a pattern runs along the catalogue.** -/
theorem runs_replaceM {Arg : Treating} (hArg : Arg.Carrying) (hp : pattern.Proper)
    (hcuts : Cuts pattern) (hstore : Stores pattern store Arg) {w : Marked} {G : Table}
    (hready : G.Ready w) : (pattern.replaceM store w.text).Runs Arg [] w G := by
  -- Hit after hit, behind a part of the line that is rewritten already.
  have key : ∀ {previous text pieces}, pattern.Reading previous text pieces →
      ∀ {before w : Marked} {G : Table}, w.text = text → G.Ready (before ++ w) →
        ∃ (parts : List Text) (w' : Marked) (G' : Table),
          (pieces.mapM (replacePiece store)).Gives G parts G' ∧ parts.flatten = w'.text ∧
            Run Arg (before ++ w, G) (before ++ w', G') := by
    intro previous text pieces h
    induction h with
    | rest _ =>
      rintro before w G rfl hready
      exact ⟨_, w, G, gives_mapM_chars _ _, flatten_singletons _, .refl⟩
    | hit hat _ ih =>
      intro before w G hw hready
      obtain ⟨u, m, a, rfl, rfl, rfl, ha⟩ := hcuts hready.right.tidy hat hw
      obtain ⟨latex, G', shape, hgives, hlisted, hweaves⟩ := hstore hat hready.right.right.left
      have hrun : Run Arg (before ++ (u ++ (m ++ a)), G)
        (before ++ ((u ++ [.hit G'.length]) ++ a), G' ++ [latex]) := .store (hlisted _) hweaves
      have hready' := hrun.ready hArg hready
      rw [← List.append_assoc] at hready'
      obtain ⟨parts, w', G'', hparts, hflat, hrun'⟩ := ih ha hready'
      refine ⟨u.text.map ([·]) ++ Marker.ofNat G'.length :: parts, u ++ .hit G'.length :: w', G'',
        ?_, ?_, ?_⟩
      · refine (gives_mapM_chars u.text G).append ?_
        rw [List.mapM_cons]
        exact hgives.bind (hparts.bind (gives_pure _ _))
      · rw [List.flatten_append, flatten_singletons, List.flatten_cons, hflat, text_append,
          text_hit]
      · refine hrun.trans ?_
        simpa only [List.append_assoc, List.singleton_append] using hrun'
  have hready' : G.Ready ([] ++ w) := hready
  obtain ⟨parts, w', G', hgives, hflat, hrun⟩ := key (Pattern.reading_pieces hp w.text) rfl hready'
  refine ⟨w', G', ?_, hrun⟩
  rw [replaceM_eq]
  exact hgives.bind (gives_pure_eq hflat _)

end Replacing

end MathNotes
