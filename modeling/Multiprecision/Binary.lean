/-!
# Multiprecision.Binary

The exact value of a finite double, as an integer times a power of two, and
the integer nearest to it.
-/

namespace Multiprecision

/-- The number `significand · 2^exponent`. -/
structure Binary where
  significand : Nat
  exponent : Int
deriving DecidableEq, Repr

namespace Binary

/-- The magnitude of a finite double. -/
def ofFloat (x : Float) : Binary :=
  let bits := x.toBits.toNat
  let field : Nat := bits / Nat.pow 2 52 % Nat.pow 2 11
  let fraction := bits % Nat.pow 2 52
  if field = 0 then ⟨fraction, -1074⟩ else ⟨fraction + Nat.pow 2 52, (field : Int) - 1075⟩

/-- The integer part. -/
def toNat (b : Binary) : Nat :=
  b.significand * Nat.pow 2 b.exponent.toNat / Nat.pow 2 (-b.exponent).toNat

/-- The sign bit of a double is set. -/
def signBit (x : Float) : Bool := Nat.pow 2 63 ≤ x.toBits.toNat

/-- The nearest integer as a double; halves are rounded away from zero. -/
def round (x : Float) : Float :=
  let b := ofFloat x
  -- Doubles without a fraction stay, and so does what is not finite.
  if 0 ≤ b.exponent then x
  else
    let half := Nat.pow 2 ((-b.exponent).toNat - 1)
    let n := UInt64.ofNat ((b.significand + half) / (2 * half))
    if signBit x then -n.toFloat else n.toFloat

end Binary

end Multiprecision
