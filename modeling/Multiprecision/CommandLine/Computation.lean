import Multiprecision.Integer.Operand
import Multiprecision.NumberTheory.Bezout
import Multiprecision.NumberTheory.Primality

/-!
# Multiprecision.CommandLine.Computation

The computations that a command can ask for, and how their results are
printed: one a line, in decimal or in hexadecimal.  All results are there
before the first is printed, so a computation that fails prints nothing.
-/

namespace Multiprecision.CommandLine

/-- A computation on integers. -/
inductive Computation where
  | mul (a b : Integer)
  | square (x : Integer)
  /-- The Euclidean quotient and remainder. -/
  | div (a b : Integer)
  | pow (base : Integer) (exponent : UInt32)
  | powMod (base exponent modulus : Integer)
  | isPrime (n : Integer) (probability : Float)
  | gcd (a b : Integer)
  | inverse (a modulus : Integer)

/-- A result of a computation. -/
inductive Result where
  | integer (x : Integer)
  | truth (b : Bool)

/-- The line for a result. -/
def Result.line (hex : Bool) : Result → String
  | integer x => (if hex then x.toHex else x.toDecimal) ++ "\n"
  | truth b => if b then "true\n" else "false\n"

namespace Computation

/-- What an error is said to have happened in. -/
def context? : Computation → Option String
  | div a b => some ("dividing " ++ a.toDecimal ++ " by " ++ b.toDecimal)
  | inverse a m => some ("inverting " ++ a.toDecimal ++ " modulo " ++ m.toDecimal)
  | _ => none

/-- The wording of an error. -/
def message (c : Computation) (e : Error) : String :=
  match c.context? with
  | some context => context ++ ": " ++ e.message
  | none => e.message

variable {σ : Type} [ByteSource σ]

/-- The results, in the order in which they are printed. -/
def evaluate (A : Arithmetic) : Computation → Draw σ (List Result)
  | mul a b => do return [.integer (← A.product a b)]
  | square x => do return [.integer (← A.square x)]
  | div a b => do
    let (q, r) ← A.divMod a b
    return [.integer q, .integer r]
  | pow base e => do return [.integer (← NumberTheory.power A base e)]
  | powMod base e m => do return [.integer (← NumberTheory.powerMod A base e m)]
  | isPrime n p => do
    return [.truth (← NumberTheory.isPrime A Random.defaultAttempts n p)]
  | gcd a b => do return [.integer (← NumberTheory.gcd A a b)]
  | inverse a m => do return [.integer (← NumberTheory.inverse A a m)]

/-- What a computation prints, with the random bytes of `source`. -/
def output (A : Arithmetic) (hex : Bool) (c : Computation) (source : σ) : Outcome String := do
  let (results, _) ← (c.evaluate A).run source
  return String.join (results.map (Result.line hex))

end Computation

end Multiprecision.CommandLine
