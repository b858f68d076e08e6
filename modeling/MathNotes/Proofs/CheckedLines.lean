import MathNotes.Checked.Line
import MathNotes.Proofs.CheckedOperands
import MathNotes.Proofs.LookUp
import MathNotes.Proofs.Segmentation

/-!
# Nothing is missing from a line

What a pattern finds stands in the table that the pattern was made from, so looking it up never
fails; and a token has a first character, because cutting a line into tokens leaves none empty.  The
checked passes over a line are therefore `Symbol.substituteConstants`, `Symbol.substituteSetWords`,
`Symbol.symbolPass` and `segmentLine`.
-/

namespace MathNotes

namespace Checked

/-! ## Symbols -/

theorem substituteConstants_eq (text : Text) :
    substituteConstants text = pure (Symbol.substituteConstants text) :=
  replaceM_lookUp Symbol.constants text

theorem substituteSetWords_eq (text : Text) :
    substituteSetWords text = pure (Symbol.substituteSetWords text) :=
  replaceM_lookUp Symbol.setWords text

/-- Of several words that are in front of a text the first is found. -/
theorem findSome?_isPrefixOf? {α β : Type} (table : List (Text × α)) (text : Text)
    (make : Text × α → Text → β) :
    (table.findSome? fun entry => do
        let rest ← entry.1.isPrefixOf? text
        return make entry rest) =
      (table.find? fun entry => (entry.1.isPrefixOf? text).isSome).bind fun entry => do
        let rest ← entry.1.isPrefixOf? text
        return make entry rest := by
  induction table with
  | nil => rfl
  | cons entry table ih =>
    rw [List.findSome?_cons, List.find?_cons, ih]
    cases hrest : entry.1.isPrefixOf? text with
    | none => rfl
    | some rest => simp [hrest]

/-- An operator that is found has a command, and it is the one that is found when commands are
searched for. -/
theorem writesAs_operatorPattern :
    Pattern.WritesAs operatorPattern operatorCommand Symbol.operatorPattern id := by
  intro previous text
  have hnames : operatorPattern previous text = _ :=
    findSome?_isPrefixOf? Symbol.operators text fun entry rest =>
      (⟨(entry.1, rest.head?.any isLetter), entry.1.length⟩ : Hit (Text × Bool))
  have hcommands : Symbol.operatorPattern previous text = _ :=
    findSome?_isPrefixOf? Symbol.operators text fun entry rest =>
      (⟨if rest.head?.any isLetter then entry.2 ++ " " else entry.2, entry.1.length⟩ : Hit Text)
  rw [hnames, hcommands]
  cases hfind : Symbol.operators.find? fun entry => (entry.1.isPrefixOf? text).isSome with
  | none => exact .inl ⟨rfl, rfl⟩
  | some entry =>
    have hfound : (entry.1.isPrefixOf? text).isSome = true := by simpa using List.find?_some hfind
    obtain ⟨rest, hrest⟩ := Option.isSome_iff_exists.mp hfound
    have hlookup : Symbol.operators.lookup entry.1 = some entry.2 :=
      lookup_of_find? (fun key => (key.isPrefixOf? text).isSome) hfind
    rw [Option.bind_some, Option.bind_some, hrest]
    refine .inr ⟨(entry.1, rest.head?.any isLetter),
      ⟨if rest.head?.any isLetter then entry.2 ++ " " else entry.2, entry.1.length⟩, rfl, rfl, ?_⟩
    rw [operatorCommand, lookUp_eq_ok hlookup]
    rfl

theorem substituteNames_eq (text : Text) :
    substituteNames text = pure (Symbol.substituteNames text) := by
  have hnames : substitute (fun c => c.isAlphanum || c == '\\') Char.isAlphanum Symbol.names text =
      pure (Symbol.namePattern.replace id text) := replaceM_lookUp Symbol.names text
  rw [substituteNames, hnames, pure_bind, writesAs_operatorPattern.replaceM]
  rfl

/-- **The symbol pass never fails.** -/
theorem symbolPass_eq (latex : Text) : symbolPass latex = pure (Symbol.symbolPass latex) := by
  rw [symbolPass, Symbol.symbolPass]
  simp only [substituteNames_eq, pure_bind, List.mapM_pure, List.flatMap]

/-! ## Segments -/

theorem readToken_eq {token : Text} (h : token ≠ []) (next : Option Text) :
    Segment.readToken token next = pure (Segment.ofToken token next) := by
  obtain ⟨first, rest, rfl⟩ := List.exists_cons_of_ne_nil h
  have hfirst : Text.charAt (first :: rest) 0 = pure first := Text.charAt_append_cons [] first rest
  rw [Segment.readToken, Segment.ofToken, hfirst, pure_bind, List.head?_cons, Option.any_some]
  split_ifs <;> rfl

theorem classify_eq {line : Text} {tokens : List Text} (h : Tokenized line tokens) :
    Segment.classify tokens = pure (Segment.ofTokens tokens) := by
  induction h with
  | nil => rfl
  | cons hne _ _ _ ih => rw [Segment.classify, readToken_eq hne, ih]; rfl

/-- **Segmentation never fails.** -/
theorem segmentLine_eq (prose : Bool) (line : Text) :
    segmentLine prose line = pure (MathNotes.segmentLine prose line) := by
  rw [segmentLine, classify_eq (tokenized_tokenize line), pure_bind]
  rfl

end Checked

end MathNotes
