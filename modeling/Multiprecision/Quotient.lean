import Multiprecision.Quotient.Newton
import Multiprecision.Thresholds

/-!
# Multiprecision.Quotient

Quotients and remainders of integers.  Division is Euclidean: for a divisor
`b` other than zero,

```
a = q·b + r   and   0 ≤ r < |b|
```

whatever the signs.  The remainder is written into an integer that may hold
something already.
-/

namespace Multiprecision.Quotient

/-- The quotient and the remainder of the magnitudes. -/
def magnitudes (t : Thresholds) (multiply : Multiplier) (budget : Nat)
    (dividend divisor into : Integer) : Outcome (Integer × Integer) :=
  if divisor.isZero then .failure .divideByZero
  else if dividend.bitLength < t.newton then liftM (long dividend divisor)
  else newton multiply budget dividend divisor into

/-- Turns a quotient and a remainder of magnitudes into those of the
integers: a negative dividend that leaves a remainder takes one more
multiple of the divisor. -/
def euclidean (dividend divisor : Integer) (q r : Integer) : Integer × Integer :=
  let (q, r) :=
    if dividend.negative && !r.isZero then (q.addMagnitude 1, r.subFrom divisor.abs) else (q, r)
  ({ q with negative := dividend.negative != divisor.negative }.normalizeSign, r)

/-- The Euclidean quotient and remainder. -/
def divide (t : Thresholds) (multiply : Multiplier) (budget : Nat)
    (dividend divisor into : Integer) : Outcome (Integer × Integer) := do
  let (q, r) ← magnitudes t multiply budget dividend divisor into
  return euclidean dividend divisor q r

end Multiprecision.Quotient
