import Multiprecision.CommandLine.Settings

/-!
# Multiprecision.CommandLine.Text

What the program says about itself: its help, its version, and what shells
need to complete its arguments.
-/

namespace Multiprecision.CommandLine

/-- The name of the program. -/
def programName : String := "mparith"

/-- The line that tells the version. -/
def versionText : String := programName ++ " 0.1.0\n"

/-- The help. -/
def helpText : String :=
  "\n".intercalate [
    "Arbitrary-precision integer calculator",
    "",
    "Usage: mparith [OPTIONS] [COMMAND]",
    "",
    "Commands:",
    "  mul <A> <B>                          Product of two integers",
    "  square <X>                           Square of an integer",
    "  div <A> <B>                          Euclidean quotient and remainder, one per line",
    "  pow <BASE> <EXPONENT>                Integer power",
    "  powmod <BASE> <EXPONENT> <MODULUS>   Modular power",
    "  is-prime <N> [--probability <P>]     Probabilistic primality test",
    "  gcd <A> <B>                          Greatest common divisor",
    "  inverse <A> <M>                      Modular inverse",
    "  calibrate [--full] [--dry-run]       Measure thresholds and save them as the profile",
    "  help [COMMAND]                       Print this message",
    "",
    "Options:",
    "      --hex                               Print results in hexadecimal",
    "  -q, --quiet                             Only print results",
    "      --profile                           Load thresholds from the saved profile",
    "      --toom2-threshold <BITS>            Toom-2 multiplication threshold",
    "      --toom3-threshold <BITS>            Toom-3 multiplication threshold",
    "      --ssa6-threshold <BITS>             Transform (64 parts) threshold",
    "      --ssa7-threshold <BITS>             Transform (128 parts) threshold",
    "      --ssa-mod-fermat-threshold <BITS>   Recursive Fermat-ring product threshold",
    "      --newton-threshold <BITS>           Newton division threshold",
    "      --completion <SHELL>                Generate shell completion",
    "  -h, --help                              Print help",
    "  -V, --version                           Print version",
    ""]

/-- The words that may stand first on a command line. -/
def leadingWords : List String :=
  Subcommand.all.map (·.name) ++ [Subcommand.helpName]
    ++ (Given.general ++ Given.leading).map ("--" ++ ·.name)

/-- What a shell needs to complete arguments. -/
def completionText (shell : Shell) : String :=
  let words := " ".intercalate leadingWords
  let quoted := " ".intercalate (leadingWords.map fun w => "'" ++ w ++ "'")
  match shell with
  | .bash => "complete -W \"" ++ words ++ "\" " ++ programName ++ "\n"
  | .zsh => "compctl -k \"(" ++ words ++ ")\" " ++ programName ++ "\n"
  | .fish => "complete -c " ++ programName ++ " -f -a \"" ++ words ++ "\"\n"
  | .powershell =>
    "Register-ArgumentCompleter -Native -CommandName " ++ programName
      ++ " -ScriptBlock \x7b -split \"" ++ words ++ "\" \x7d\n"
  | .elvish =>
    "set edit:completion:arg-completer[" ++ programName ++ "] = \x7b|@args| put "
      ++ quoted ++ " \x7d\n"

end Multiprecision.CommandLine
