import MathNotes.Expression
import MathNotes.Scope

/-!
# Reference

The reference of everything that notes can be written with. What the examples give is worked out by
compiling them.
-/

namespace MathNotes

/-- An example of the reference: how it is written, what it gives, and what it is. -/
structure Example where
  written : Text
  output : Text
  description : Option Text
  deriving Repr, DecidableEq

/-- A chapter of the reference. -/
structure Chapter where
  title : Text
  examples : List Example
  deriving Repr, DecidableEq

namespace Reference

/-- Examples of arithmetic and scripts. -/
def basics : List (Text × Text) :=
  [("a/b", "Fraction"), ("(a+b)/(c+d)", "Complex fraction"), ("x^2", "Superscript/power"),
    ("x^(1/n)", "Fractional exponent"), ("x_i", "Subscript"), ("x_ij", "Multi-char subscript"),
    ("|x|", "Absolute value"), ("<1, 2, 3>", "Vector notation")]

/-- Examples of calls. -/
def calls : List (Text × Text) :=
  [("sqrt(x)", "Square root"), ("floor(x)", "Floor function"), ("ceil(x)", "Ceiling function"),
    ("vec(v)", "Vector arrow"), ("factorial(n)", "Factorial"),
    ("choose(n, k)", "Binomial coefficient")]

/-- Examples of operators with bounds. -/
def calculus : List (Text × Text) :=
  [("integral(a -> b)", "Definite integral"), ("sum(i=1 -> n)", "Summation"),
    ("lim(x -> 0)", "Limit")]

/-- Examples of Greek letters; only the upper case is described. -/
def greek : List (Text × Option Text) :=
  [("alpha, beta, gamma", none), ("delta, epsilon, theta", none), ("lambda, sigma, omega", none),
    ("pi, phi, psi", none), ("mu, nu, rho, tau", none),
    ("Delta, Gamma, Sigma", some "Uppercase".toList)]

/-- Symbols of logic. -/
def logic : List (Text × Text) :=
  [("forall", "For all"), ("exists", "There exists"), ("AND", "Logical and"), ("OR", "Logical or"),
    ("NOT", "Logical not"), ("=>", "Implies"), ("<=>", "If and only if"), ("suchthat", "Such that")]

/-- Examples of sets. -/
def sets : List (Text × Text) :=
  [("in", "Element of"), ("notin", "Not element of"), ("subset", "Subset"), ("union", "Union"),
    ("intersect", "Intersection"), ("\x7bx in A : x > 0\x7d", "Set-builder notation")]

/-- Relations and other operators. -/
def operators : List (Text × Text) :=
  [("!=", "Not equal"), ("<=", "Less or equal"), (">=", "Greater or equal"), ("+-", "Plus-minus"),
    ("-+", "Minus-plus"), ("->", "Maps to / tends to"), ("dot", "Centered dot"),
    ("inf", "Infinity"), ("QED", "End of proof")]

/-- A word of ASCII letters with a capital in front. -/
def capitalized : Text → Text
  | [] => []
  | c :: rest => c.toUpper :: rest.map Char.toLower

/-- An example with what it compiles to. -/
def compiled (settings : Settings) (written : Text) (description : Option Text) :
    Except Fault Example := do
  return ⟨written, (← Expression.compile settings written).1, description⟩

/-- Described examples with what they compile to. -/
def compiledAll (settings : Settings) (items : List (Text × Text)) : Except Fault (List Example) :=
  items.mapM fun (written, description) => compiled settings written (some description)

/-- The heading of a keyword, as an example. -/
def headingExample (keyword : Text) : Example :=
  let italic := Heading.italicKeywords.contains keyword
  let style : Text := if italic then "Italic" else "Bold"
  ⟨keyword ++ " Title \x7b ... \x7d", Scopes.headingLatex {} ⟨keyword, [], italic⟩,
    some (style ++ " block header")⟩

/-- Examples of the lines that structure a document. -/
def structureExamples : List Example :=
  Heading.keywords.map headingExample
    ++ [⟨"#define name replacement", [], some "Define a shortcut for later lines".toList⟩,
      ⟨"// comment", [], some "Ignored line".toList⟩]

/-- The constants of the `Math` package, but for its root, which is a call. -/
def constantExamples : List Example :=
  (Symbol.constants.filter (·.2 != "sqrt".toList)).map fun (name, latex) =>
    ⟨name, latex, some (capitalized (name.drop "Math.".length))⟩

/-- The symbols of logic, as examples. -/
def logicExamples : List Example :=
  logic.map fun (written, description) => ⟨written, Segment.symbolFor written, some description⟩

/-- The chapters of the reference. -/
def chapters (settings : Settings) : Except Fault (List Chapter) := do
  let functions ← Symbol.functionNames.mapM fun name =>
    compiled settings (name ++ "(x)") (some (capitalized name))
  let greek ← greek.mapM fun (written, description) => compiled settings written description
  return [⟨"Basic Math", ← compiledAll settings basics⟩,
    ⟨"Functions", functions ++ (← compiledAll settings calls)⟩,
    ⟨"Calculus", ← compiledAll settings calculus⟩,
    ⟨"Greek Letters", greek⟩,
    ⟨"Math Constants", constantExamples⟩,
    ⟨"Logic & Quantifiers", logicExamples⟩,
    ⟨"Sets", ← compiledAll settings sets⟩,
    ⟨"Comparisons & Operators", ← compiledAll settings operators⟩,
    ⟨"Document Structure", structureExamples⟩]

end Reference

end MathNotes
