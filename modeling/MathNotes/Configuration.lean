import MathNotes.Expression
import MathNotes.Path
import MathNotes.Text.Capital

/-!
# Configuration

Settings are read from environment variables. A variable that is missing, blank or no number leaves
its limit at the default, and no limit is set below one.
-/

namespace MathNotes

/-- Environment variables, by name. -/
abbrev Environment := (name : Text) → Option Text

namespace Numeral

/-- White space around a numeral: the separators of ASCII do not count as such here. -/
def isPadding (c : Char) : Bool := isBlank c && !(0x1c ≤ c.toNat && c.toNat ≤ 0x1f)

/-- Decimal digits of any script, with single underscores allowed between them. -/
def digits? : Text → Option Text
  | [] => none
  | [c] => if isDecimal c then some [c] else none
  | c :: '_' :: rest => if isDecimal c then (digits? rest).map (c :: ·) else none
  | c :: next :: rest => if isDecimal c then (digits? (next :: rest)).map (c :: ·) else none

/-- The number that an unsigned numeral writes, unless it has too many digits. -/
def natural? (text : Text) : Option Nat :=
  (digits? text).bind fun digits =>
    if Fault.digitLimit < digits.length then none else some (decimalNumber digits)

/-- The number that a numeral writes: a sign may stand in front, and white space around. -/
def integer? (text : Text) : Option Int :=
  let text := text.dropWhile isPadding
  let text := (text.reverse.dropWhile isPadding).reverse
  match text with
  | '+' :: rest => (natural? rest).map Int.ofNat
  | '-' :: rest => (natural? rest).map fun n => -(n : Int)
  | _ => (natural? text).map Int.ofNat

end Numeral

/-- Everything that the environment decides. -/
structure Configuration where
  logLevel : Text
  logFile : Option Path
  settings : Settings
  deriving Repr, DecidableEq

namespace Configuration

/-- A limit from the environment. -/
def limit (environment : Environment) (name : Text) (default : Int) : Int :=
  match (environment name).bind Numeral.integer? with
  | some n => max 1 n
  | none => default

/-- The configuration that an environment gives. -/
def ofEnvironment (environment : Environment) : Configuration :=
  let defaults : Settings := {}
  { logLevel := Text.toCapitals ((environment "MATHSCRIPT_LOG_LEVEL").getD "INFO")
    logFile := ((environment "MATHSCRIPT_LOG_FILE").filter (!·.isEmpty)).map fun file =>
      (Path.ofText file).expandHome (environment "HOME")
    settings :=
      { passes := limit environment "MATHSCRIPT_MAX_PASSES" defaults.passes
        rounds := limit environment "MATHSCRIPT_MAX_ITERATIONS" defaults.rounds
        depth := limit environment "MATHSCRIPT_MAX_DEPTH" defaults.depth
        indent := (environment "MATHSCRIPT_INDENT").getD defaults.indent } }

end Configuration

end MathNotes
