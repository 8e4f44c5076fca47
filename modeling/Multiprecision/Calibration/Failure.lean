import Multiprecision.Outcome

/-!
# Multiprecision.Calibration.Failure

Why measuring thresholds, or keeping the measured ones in a file, did not
work out.
-/

namespace Multiprecision.Calibration

/-- The cause of a failure. -/
inductive Failure where
  /-- A file could not be read or written. -/
  | files (reason : String)
  /-- A file does not hold a profile. -/
  | format
  /-- A timed operation failed. -/
  | arithmetic (e : Error)
  /-- A timed operation did not come to its end. -/
  | unfinished
  /-- A profile is of no use here. -/
  | rejected (reason : String)
deriving DecidableEq, Repr, Inhabited

namespace Failure

/-- The wording of a failure. -/
def message : Failure → String
  | files reason => "profile I/O error: " ++ reason
  | format => "profile format error: the text is no profile"
  | arithmetic e => "benchmark arithmetic failed: " ++ e.message
  | unfinished => "benchmark did not finish"
  | rejected reason => "profile rejected: " ++ reason

/-- The exit status of a program that stops on a failure: that of the
arithmetic error, if it is one, and 4 if it is the profile's fault. -/
def exitStatus : Failure → Nat
  | arithmetic e => e.exitStatus
  | unfinished => 1
  | files _ | format | rejected _ => 4

/-- The value of an outcome, or why there is none. -/
def ofOutcome {α : Type} : Outcome α → Except Failure α
  | .value a => .ok a
  | .failure e => .error (.arithmetic e)
  | .aborted | .exhausted => .error .unfinished

end Failure

end Multiprecision.Calibration
