/-!
# Multiprecision.CommandLine.Usage

Why arguments do not amount to a command to run.  Asking for help or for the
version is one of the reasons, and not a fault.
-/

namespace Multiprecision.CommandLine

/-- Why there is no command to run. -/
inductive Usage where
  | displayHelp
  | displayVersion
  /-- A value is missing, or is not one of those to choose from. -/
  | invalidValue
  /-- A value cannot be read. -/
  | valueValidation
  /-- There is no switch of that name, or one argument too many. -/
  | unknownArgument
  | invalidSubcommand
  /-- A switch is given twice. -/
  | argumentConflict
  /-- A switch that takes no value is given one. -/
  | tooManyValues
  | missingRequiredArgument
deriving DecidableEq, Repr, Inhabited

namespace Usage

def name : Usage → String
  | displayHelp => "DisplayHelp"
  | displayVersion => "DisplayVersion"
  | invalidValue => "InvalidValue"
  | valueValidation => "ValueValidation"
  | unknownArgument => "UnknownArgument"
  | invalidSubcommand => "InvalidSubcommand"
  | argumentConflict => "ArgumentConflict"
  | tooManyValues => "TooManyValues"
  | missingRequiredArgument => "MissingRequiredArgument"

/-- The wording of a fault. -/
def message : Usage → String
  | displayHelp => "help was asked for"
  | displayVersion => "the version was asked for"
  | invalidValue => "a value is missing or is not one of the possible values"
  | valueValidation => "a value cannot be read"
  | unknownArgument => "unexpected argument"
  | invalidSubcommand => "unrecognized subcommand"
  | argumentConflict => "an argument cannot be used multiple times"
  | tooManyValues => "an argument takes no value"
  | missingRequiredArgument => "a required argument was not provided"

/-- The exit status: 2 for a fault. -/
def exitStatus : Usage → Nat
  | displayHelp | displayVersion => 0
  | _ => 2

end Usage

end Multiprecision.CommandLine
