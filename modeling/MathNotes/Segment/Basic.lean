import MathNotes.Segment.Token
import MathNotes.Symbol.Table
import MathNotes.Text.Numeric
import MathNotes.Text.Position

/-!
# Segments

Every token of a line is prose, part of a formula, or white space. Formula tokens that the symbol
table knows are already replaced, and the characters that LaTeX would read as commands are escaped.
-/

namespace MathNotes

/-- A classified piece of a line. -/
inductive Segment where
  | text (content : Text)
  | math (content : Text)
  | space (content : Text)
  deriving Repr, DecidableEq

namespace Segment

/-- What a segment holds. -/
def content : Segment → Text
  | text content | math content | space content => content

/-- The name of a segment's kind. -/
def kindName : Segment → Text
  | text _ => "TEXT"
  | math _ => "MATH"
  | space _ => "SPACE"

/-- The segment with a kind given by name. -/
def ofNamed (kind content : Text) : Except Fault Segment :=
  if kind = "TEXT" then .ok (text content)
  else if kind = "MATH" then .ok (math content)
  else if kind = "SPACE" then .ok (space content)
  else .error (.unknownKind kind)

/-- Whether a segment is part of a formula. -/
def isMath : Segment → Bool
  | math _ => true
  | _ => false

/-- Whether a segment is white space. -/
def isSpace : Segment → Bool
  | space _ => true
  | _ => false

/-- A character of a formula: the characters that LaTeX gives a meaning of their own are escaped. -/
def escapeMathChar (c : Char) : Text :=
  if "%#&$".toList.contains c then ['\\', c] else [c]

/-- A formula with its special characters escaped. -/
def escapeMath (content : Text) : Text := content.flatMap escapeMathChar

/-- What a formula token stands for. -/
def symbolFor (token : Text) : Text := (Symbol.tokens.lookup token).getD token

/-- Whether a token is a word: two or more letters. -/
def isWord (token : Text) : Bool := 1 < token.length && token.all Char.isAlpha

/-- Whether a token is a letter with primes. -/
def isPrimed : Text → Bool
  | letter :: primes => letter.isAlpha && !primes.isEmpty && primes.all (· == '\'')
  | [] => false

/-- Whether a token is one of the words `a`, `A` and `I`, which may also be variables. -/
def isArticle (token : Text) : Bool := token == ['a'] || token == ['A'] || token == ['I']

/-- Whether a word behind an article makes the article prose. -/
def makesProse (word : Text) : Bool := isWord word && !Symbol.isKeyword word

/-- The segment of a word, given the next token that is not white space. -/
def ofWord (word : Text) (next : Option Text) : Segment :=
  if Symbol.isKeyword word then math (escapeMath (symbolFor word))
  else if Symbol.isProseWord word then text word
  else if isArticle word then
    if next.any makesProse then text word else math (escapeMath word)
  else if isPrimed word then math (escapeMath word)
  else if 1 < word.length then text word
  else math (escapeMath word)

/-- The segment of a token, given the next token that is not white space. -/
def ofToken (token : Text) (next : Option Text) : Segment :=
  if Text.isBlankRun token then space token
  else if token.head? == some '\\' then math token
  else if token.contains '_' || token.contains '^' then math (escapeMath token)
  else if !token.isEmpty && token.all isPunctuation then math (escapeMath (symbolFor token))
  else if token.head?.any isDigitSign then math (escapeMath token)
  else ofWord token next

/-- The segments of a list of tokens. -/
def ofTokens : List Text → List Segment
  | [] => []
  | token :: rest => ofToken token (rest.find? (!Text.isBlankRun ·)) :: ofTokens rest

/-- The segment of a token from anywhere. Its first character is read only if the token is nothing
else, so an empty token has none. -/
def readToken (token : Text) (next : Option Text) : Except Fault Segment :=
  if Text.isBlankRun token then return space token
  else if token.head? == some '\\' then return math token
  else if token.contains '_' || token.contains '^' then return math (escapeMath token)
  else if !token.isEmpty && token.all isPunctuation then
    return math (escapeMath (symbolFor token))
  else do
    let first ← Text.charAt token 0
    if isDigitSign first then return math (escapeMath token) else return ofWord token next

/-- The segments of tokens from anywhere. -/
def classify : List Text → Except Fault (List Segment)
  | [] => return []
  | token :: rest => do
    let segment ← readToken token (rest.find? (!Text.isBlankRun ·))
    return segment :: (← classify rest)

/-- A segment of a line in which every word belongs to the formula. -/
def asMath : Segment → Segment
  | text content => math (escapeMath content)
  | segment => segment

end Segment

end MathNotes
