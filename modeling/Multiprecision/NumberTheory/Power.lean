import Multiprecision.Alternating
import Multiprecision.Integer.Bits
import Multiprecision.Integer.Decimal

/-!
# Multiprecision.NumberTheory.Power

Powers by repeated squaring, plain and modulo a number.
-/

namespace Multiprecision.NumberTheory

/-! ## Powers -/

/-- The number of ones among the bits of `e`. -/
def onesCount (e : Nat) : Nat :=
  if e = 0 then 0 else e % 2 + onesCount (e / 2)
termination_by e
decreasing_by omega

/-- Multiplies `result` by `power` raised to `e`, bit by bit from the low end. -/
def powerSteps (A : Arithmetic) (e : Nat) (result power : Alternating) : Outcome Alternating := do
  if e = 0 then return result
  let result ← if e % 2 = 1 then Alternating.orFail (result.mul A power.current) else pure result
  let rest := e / 2
  let power ← if 0 < rest then Alternating.orFail (power.square A) else pure power
  powerSteps A rest result power
termination_by e
decreasing_by omega

/-- `base ^ e`, without reserved places.  Only the buffer that will hold the
result is opened up front, for `e` times the bits of the base. -/
def power (A : Arithmetic) (base : Integer) (e : UInt32) : Outcome Integer := do
  let n := e.toNat
  if n = 0 then return 1
  if base.bitLength ≤ 1 then return (if n % 2 = 0 then base.abs else base).trim
  let bits := base.bitLength * n
  if Nat.pow 2 64 ≤ bits then throw (.overflow "usize")
  let result := (Alternating.ofInteger 1).reserveBitsAfter (onesCount n) bits
  let result ← powerSteps A n result (.ofInteger base)
  return result.current.trim

/-! ## Powers modulo a number -/

/-- Goes through the lowest `n` bits of the exponent from the top; `acc` is
the power by the bits above them. -/
def powerModSteps (A : Arithmetic) (base exponent modulus : Integer) :
    (n : Nat) → Alternating → Outcome Alternating
  | 0, acc => .value acc
  | n + 1, acc => do
    let acc ← Alternating.orFail (acc.square A)
    let acc ← Alternating.orFail (acc.rem A modulus)
    if exponent.bit n then
      let acc ← Alternating.orFail (acc.mul A base)
      let acc ← Alternating.orFail (acc.rem A modulus)
      powerModSteps A base exponent modulus n acc
    else powerModSteps A base exponent modulus n acc

/-- `base ^ exponent` modulo a positive number, for a base that is reduced
and an exponent that is not negative. -/
def powerMod (A : Arithmetic) (base exponent modulus : Integer) : Outcome Integer := do
  if !modulus.isPositive then
    throw (.invalidArgument ("modulus must be positive, got " ++ modulus.toDecimal))
  if exponent.isNegative then
    throw (.invalidArgument ("exponent must be non-negative, got " ++ exponent.toDecimal))
  if base.isNegative || base.compare modulus != .lt then
    throw (.invalidArgument
      ("base " ++ base.toDecimal ++ " is outside [0, " ++ modulus.toDecimal ++ ")"))
  let acc := (Alternating.ofInteger 1).reserveBits (2 * modulus.bitLength)
  let acc ← Alternating.orFail (acc.rem A modulus)
  let acc ← powerModSteps A base exponent modulus exponent.bitLength acc
  return acc.current.compact

/-- `base ^ exponent` modulo a positive number, written over `result`.  Without
one, `result` stays as it is. -/
def powerModInto (A : Arithmetic) (base exponent modulus result : Integer) :
    Integer × Outcome Unit :=
  Alternating.written result (powerMod A base exponent modulus)

end Multiprecision.NumberTheory
