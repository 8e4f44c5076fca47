/-!
# Multiprecision.Error

Why an operation has no result, and how that is worded.  Every error has
one message and one exit status for a program that stops on it.
-/

namespace Multiprecision

/-- The cause of a failed operation. -/
inductive Error where
  /-- An argument lies outside the domain of the operation. -/
  | invalidArgument (reason : String)
  /-- A text is no numeral. -/
  | parse (reason : String)
  /-- A quotient or remainder by zero. -/
  | divideByZero
  /-- The value lies outside the range of the named machine type. -/
  | overflow (type : String)
  /-- There is no inverse modulo the given modulus. -/
  | notInvertible
  /-- An arithmetic identity that an algorithm relies on did not hold. -/
  | invariantViolation (breach : String)
deriving DecidableEq, Repr, Inhabited

namespace Error

/-- The wording of an error. -/
def message : Error → String
  | invalidArgument reason => "invalid argument: " ++ reason
  | parse reason => "parse error: " ++ reason
  | divideByZero => "division by zero"
  | overflow type => "value does not fit in " ++ type
  | notInvertible => "value is not invertible modulo the given modulus"
  | invariantViolation breach => "internal invariant violated: " ++ breach

/-- The exit status of a program that stops on an error: 2 for input that
is malformed or out of domain, 3 for an arithmetic fault, 1 otherwise. -/
def exitStatus : Error → Nat
  | invalidArgument _ | parse _ => 2
  | divideByZero | notInvertible | overflow _ => 3
  | invariantViolation _ => 1

end Error

end Multiprecision
