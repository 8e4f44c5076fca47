import Multiprecision.Integer.Bits
import Multiprecision.Product.Factors
import Multiprecision.Quotient.Long

/-!
# Multiprecision.Quotient.Newton

Division of magnitudes by a reciprocal.  Let `T` be the divisor's top `p`
bits.  An approximation of `2^(2p) / T` is seeded by long division at a low
precision and refined by Newton steps; each roughly doubles the precision,
and a last one polishes it.  The product of the dividend and the reciprocal
is a quotient that may be off by a little, and is corrected by its exact
remainder.
-/

namespace Multiprecision.Quotient

/-! ## Precisions -/

/-- Bits of precision beyond those of the quotient are twice this many. -/
def guardBits : Nat := 8

/-- The precision at which the reciprocal is seeded. -/
def seedBits : Nat := 16

/-- The precision after one step from `current` on the way to `precision`. -/
def nextPrecision (precision current : Nat) : Nat := min (2 * current - guardBits / 2) precision

/-- The precisions that the steps from `current` reach, up to `precision`. -/
def schedule (precision current : Nat) : List Nat :=
  if _ : 4 < current ∧ current < precision then
    nextPrecision precision current :: schedule precision (nextPrecision precision current)
  else []
termination_by precision - current
decreasing_by simp only [nextPrecision, guardBits]; omega

/-! ## The reciprocal -/

/-- The top `precision` bits of `d`, which has `bits` bits; a shorter number
is scaled up. -/
def topBits (d : Integer) (bits precision : Nat) : Integer :=
  if precision ≤ bits then d.shiftRight (bits - precision) else d.shiftLeft (precision - bits)

/-- Takes an approximation of the reciprocal from the precision `source` to
the precision `target`. -/
def newtonStep (multiply : Multiplier) (d : Integer) (bits : Nat) (x : Integer)
    (source target : Nat) : Outcome Integer := do
  let x := x.shiftLeft (target - source)
  let product ← multiply.signed (.pair (topBits d bits target) x)
  let error := ((Integer.zeros (2 * target + 1)).setBit (2 * target) true).sub product
  let product ← multiply.signed (.pair x error)
  return x.add (product.shiftRight (2 * target))

/-- Steps through the given precisions. -/
def newtonSteps (multiply : Multiplier) (d : Integer) (bits : Nat) :
    (precisions : List Nat) → (source : Nat) → Integer → Outcome Integer
  | [], _, x => .value x
  | target :: rest, source, x => do
    let x ← newtonStep multiply d bits x source target
    newtonSteps multiply d bits rest target x

/-- The approximation of `2^(2·precision) / T`, with `T` the top `precision`
bits of `d`. -/
def reciprocal (multiply : Multiplier) (d : Integer) (bits precision : Nat) :
    Outcome Integer := do
  let first := min precision seedBits
  let (seed, _) ← long ((Integer.zeros (2 * first + 1)).setBit (2 * first) true)
    (topBits d bits first)
  newtonSteps multiply d bits (schedule precision first ++ [precision]) first seed

/-! ## Correction -/

/-- A quotient with its remainder, and the corrections made so far. -/
structure Candidate where
  quotient : Integer
  remainder : Integer
  corrections : Nat := 0
deriving Repr

/-- Lowers the quotient while the remainder is negative. -/
def Candidate.lower (d : Integer) : (budget : Nat) → Candidate → Outcome Candidate
  | 0, c => if c.remainder.isNegative then .exhausted else .value c
  | budget + 1, c =>
    if c.remainder.isNegative then
      lower d budget ⟨c.quotient.sub 1, c.remainder.add d, c.corrections + 1⟩
    else .value c

/-- Raises the quotient while the remainder is not below the divisor. -/
def Candidate.raise (d : Integer) : (budget : Nat) → Candidate → Outcome Candidate
  | 0, c => if c.remainder.below d then .value c else .exhausted
  | budget + 1, c =>
    if c.remainder.below d then .value c
    else raise d budget ⟨c.quotient.add 1, c.remainder.sub d, c.corrections + 1⟩

/-- Corrects the quotient that a reciprocal gave. -/
def Candidate.correct (d : Integer) (budget : Nat) (c : Candidate) : Outcome Candidate := do
  let c ← c.lower d budget
  c.raise d budget

/-! ## Division -/

/-- The quotient, near the exact one, that the reciprocal gives for
`d < dividend`. -/
def byReciprocal (multiply : Multiplier) (dividend d : Integer) : Outcome Candidate := do
  let bits := d.bitLength
  let precision := dividend.bitLength - bits + 2 * guardBits
  let x ← reciprocal multiply d bits precision
  let product ← multiply.signed (.pair dividend x)
  let quotient := product.shiftRight (precision + bits)
  let multiple ← multiply.signed (.pair quotient d)
  return { quotient, remainder := multiple.subFrom dividend }

/-- The quotient and the remainder of the magnitudes.  The latter is written
into `into`. -/
def newton (multiply : Multiplier) (budget : Nat) (dividend divisor into : Integer) :
    Outcome (Integer × Integer) := do
  let dividend := dividend.abs
  let d := divisor.abs.trim
  match dividend.compareMagnitude d with
  | .lt => return (dividend.cleared, dividend.compact)
  | .eq => return (dividend.setSmall 1, into.cleared)
  | .gt =>
    let c ← byReciprocal multiply dividend d
    let c ← c.correct d budget
    return (c.quotient.compact, c.remainder.compact)

end Multiprecision.Quotient
