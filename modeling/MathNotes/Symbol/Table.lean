import MathNotes.Text.Basic

/-!
# Symbols

The names and operators that notes are written with, and the LaTeX that each stands for.
-/

namespace MathNotes.Symbol

/-- The Greek letters that are written by their names. -/
def greekLetters : List Text := List.map String.toList
  ["alpha", "beta", "gamma", "delta", "epsilon", "zeta", "eta", "theta", "iota", "kappa", "lambda",
    "mu", "nu", "xi", "pi", "rho", "sigma", "tau", "upsilon", "phi", "chi", "psi", "omega",
    "Delta", "Gamma", "Theta", "Lambda", "Sigma", "Omega", "Pi", "Phi", "Psi", "Xi"]

/-- The functions that are written as calls. -/
def functionNames : List Text :=
  ["sin", "cos", "tan", "sec", "csc", "cot", "arcsin", "arccos", "arctan", "sinh", "cosh", "tanh",
    "log", "ln", "exp"]

/-- Names whose LaTeX command has the same name. -/
def commandsOf (names : List Text) : List (Text × Text) :=
  names.map fun name => (name, '\\' :: name)

/-- The constants of the `Math` package. -/
def constants : List (Text × Text) :=
  [("Math.pi", "\\pi"), ("Math.e", "e"), ("Math.inf", "\\infty"),
    ("Math.reals", "\\mathbb\x7bR\x7d"), ("Math.naturals", "\\mathbb\x7bN\x7d"),
    ("Math.integers", "\\mathbb\x7bZ\x7d"), ("Math.rationals", "\\mathbb\x7bQ\x7d"),
    ("Math.complex", "\\mathbb\x7bC\x7d"), ("Math.sqrt", "sqrt")]

/-- Set relations and operations. -/
def setWords : List (Text × Text) :=
  [("in", "\\in"), ("notin", "\\notin"), ("subset", "\\subset"), ("union", "\\cup"),
    ("intersect", "\\cap")]

/-- Words of logic. -/
def logicWords : List (Text × Text) :=
  [("exists", "\\exists"), ("forall", "\\forall"), ("implies", "\\implies"), ("iff", "\\iff"),
    ("suchthat", "\\text\x7b s.t. \x7d"), ("AND", "\\land"), ("OR", "\\lor"), ("NOT", "\\neg")]

/-- Operators written with punctuation, each in front of those that it starts with. -/
def operators : List (Text × Text) :=
  [("<=>", "\\iff"), ("=>", "\\implies"), ("->", "\\to"), ("<=", "\\le"), (">=", "\\ge"),
    ("!=", "\\neq"), ("+-", "\\pm"), ("-+", "\\mp")]

/-- The pipe and the words that stand for operators and marks without arguments. -/
def operatorWords : List (Text × Text) :=
  [("|", "\\mid"), ("dot", "\\cdot"), ("integral", "\\int"), ("sum", "\\sum"), ("lim", "\\lim"),
    ("sup", "\\sup"), ("max", "\\max"), ("min", "\\min"), ("det", "\\det"), ("inf", "\\infty"),
    ("QED", "\\quad \\blacksquare")]

/-- What a whole token of a formula stands for. -/
def tokens : List (Text × Text) :=
  logicWords ++ setWords ++ operators ++ operatorWords
    ++ commandsOf greekLetters ++ commandsOf functionNames

/-- Infinity and the quantifiers. -/
def quantifiers : List (Text × Text) :=
  [("inf", "\\infty"), ("forall", "\\forall"), ("exists", "\\exists")]

/-- The names that are still replaced in finished LaTeX. -/
def names : List (Text × Text) := commandsOf greekLetters ++ quantifiers ++ setWords

/-- Words that belong to formulas although nothing replaces them. -/
def plainKeywords : List Text := ["dx", "dy", "dz", "dt", "du", "dv", "Math"]

/-- Whether a word always belongs to a formula. -/
def isKeyword (word : Text) : Bool :=
  plainKeywords.contains word || (tokens.lookup word).isSome

/-- The words, in lower case, that always belong to prose. -/
def proseWords : List Text := List.map String.toList
  ["is", "are", "was", "be", "the", "an", "of", "and", "or", "if", "then", "else",
    "for", "with", "to", "on", "at", "by", "as", "let", "assume", "suppose", "since",
    "because", "therefore", "thus", "hence", "so", "we", "have", "has", "show", "prove",
    "find", "calculate", "compute", "given", "where", "when", "that", "this", "it",
    "continuous", "differentiable", "integrable", "bounded", "converges", "diverges",
    "function", "set", "sequence", "series", "exist", "some", "all", "every", "each",
    "any", "there", "which", "such", "note", "consider", "claim", "clearly", "recall"]

/-- Whether a word always belongs to prose, in upper or lower case. The letter `k`, the only one
that a sign outside ASCII has for its lower case, occurs in none of these words. -/
def isProseWord (word : Text) : Bool := proseWords.contains (word.map Char.toLower)

end MathNotes.Symbol
