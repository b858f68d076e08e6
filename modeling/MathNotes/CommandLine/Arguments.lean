import MathNotes.Text.Basic

/-!
# Arguments

How arguments are read against the options of a command. Long options start with two dashes and may
carry their value behind an equals sign; short ones may be written together behind one dash, and the
rest of such a cluster is the value of an option that takes one. Two dashes alone end the options.
-/

namespace MathNotes

/-- An option of a command. -/
structure OptionRule (κ : Type) where
  key : κ
  long : Text
  short : Option Char := none
  takesValue : Bool := false

/-- An option that was given, with its value when it takes one. -/
abbrev GivenOption (κ : Type) := κ × Text

/-- What an argument with options says: the options given in it, and the option whose value is the
next argument. -/
structure OptionArgument (κ : Type) where
  given : List (GivenOption κ) := []
  awaiting : Option κ := none

namespace Arguments

variable {κ : Type} (rules : List (OptionRule κ))

/-- Short options behind one dash. -/
def readCluster? : Text → Option (OptionArgument κ)
  | [] => some {}
  | letter :: rest =>
    match rules.find? (·.short == some letter) with
    | none => none
    | some rule =>
      if rule.takesValue then
        if rest.isEmpty then some { awaiting := some rule.key }
        else some { given := [(rule.key, rest)] }
      else (readCluster? rest).map fun more => { more with given := (rule.key, []) :: more.given }

/-- A long option, with the value that is attached to it. -/
def readLong? (rule : OptionRule κ) (attached : Option Text) : Option (OptionArgument κ) :=
  match rule.takesValue, attached with
  | true, some value => some { given := [(rule.key, value)] }
  | true, none => some { awaiting := some rule.key }
  | false, none => some { given := [(rule.key, [])] }
  | false, some _ => none

/-- An argument that starts with a dash. -/
def readOption? (argument : Text) : Option (OptionArgument κ) :=
  let (name, attached) := match Text.breakOn? ['='] argument with
    | some (name, value) => (name, some value)
    | none => (argument, none)
  match rules.find? (·.long == name) with
  | some rule => readLong? rule attached
  | none => if "--".toList.isPrefixOf argument then none else readCluster? rules argument.tail

/-- The options among arguments and the arguments that are none. Options end at two dashes and,
unless options may stand between other arguments, at the first argument that is no option. -/
def read? (interspersed : Bool) : List Text → Option (List (GivenOption κ) × List Text)
  | [] => some ([], [])
  | argument :: rest =>
    if argument = "--" then some ([], rest)
    else if argument.head? == some '-' && 1 < argument.length then
      match readOption? rules argument with
      | none => none
      | some ⟨given, none⟩ =>
        (read? interspersed rest).map fun (more, others) => (given ++ more, others)
      | some ⟨given, some key⟩ =>
        match rest with
        | [] => none
        | value :: rest =>
          (read? interspersed rest).map fun (more, others) =>
            (given ++ (key, value) :: more, others)
    else if interspersed then
      (read? interspersed rest).map fun (more, others) => (more, argument :: others)
    else some ([], argument :: rest)

/-- The last value given to an option. -/
def last? [DecidableEq κ] (key : κ) (given : List (GivenOption κ)) : Option Text :=
  given.reverse.lookup key

end Arguments

end MathNotes
