import Multiprecision.Integer

/-!
# Multiprecision.Integer.Double

The leading digits of a magnitude as a double.
-/

namespace Multiprecision.Integer

/-- `2^e` as a double, which is infinite from `2^1024` on.  A negative power is
the reciprocal of a positive one, so it is zero where that is infinite. -/
def powerOfTwo (e : Int) : Float :=
  let power : Float := if e.natAbs < 1024 then Nat.repeat (2 * ·) e.natAbs 1 else 1 / 0
  if e < 0 then 1 / power else power

/-- Adds the digits below place `i`, given from the top, to `sum`, until one
that is not zero leaves the sum as it is. -/
def scaledSum (unit : Int) : List Digit → (i : Nat) → (sum : Float) → Float
  | [], _, sum => sum
  | d :: ds, i, sum =>
    if d = 0 then scaledSum unit ds (i - 1) sum
    else
      let next := sum + d.toFloat * powerOfTwo (((i : Int) - 1 - unit) * Digits.width)
      if next == sum then sum else scaledSum unit ds (i - 1) next

/-- The magnitude as a double, where the digit in place `unit` counts ones. -/
def scaled (x : Integer) (unit : Int) : Float :=
  let ds := x.significant
  scaledSum unit ds.reverse ds.length 0

end Multiprecision.Integer
