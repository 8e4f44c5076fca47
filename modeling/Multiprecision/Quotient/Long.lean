import Multiprecision.Integer.Double
import Multiprecision.Integer.Shift
import Multiprecision.Integer.Word

/-!
# Multiprecision.Quotient.Long

Long division of magnitudes.  Each digit of the quotient is estimated, and
the estimate is corrected against the running remainder: lowered while its
multiple of the divisor is too large, raised while the remainder is.  A
digit whose estimate is off by more than three is an error of the
estimates, not of the operands.
-/

namespace Multiprecision.Quotient

/-! ## Settling one digit -/

/-- How far an estimate may be off. -/
def maxCorrections : Nat := 3

/-- What is said when the corrections of a division run out. -/
def tooManyCorrections : Error :=
  .invariantViolation "quotient digit estimate needed more than 3 corrections"

/-- Lowers the estimate `q` while `multiple`, which is `q` times the divisor,
exceeds the remainder.  Also returns the corrections that are `left`. -/
def lowerEstimate (remainder divisor : Integer) :
    (left : Nat) → (q : Digit) → (multiple : Integer) → Except Error (Nat × Digit × Integer)
  | left, q, multiple =>
    if remainder.below multiple then
      match left with
      | 0 => .error tooManyCorrections
      | left + 1 => lowerEstimate remainder divisor left (q - 1) (multiple.subSmaller divisor)
    else .ok (left, q, multiple)

/-- Raises the estimate `q` while the remainder is not below the divisor. -/
def raiseEstimate (divisor : Integer) :
    (left : Nat) → (q : Digit) → (remainder : Integer) → Except Error (Digit × Integer)
  | left, q, remainder =>
    if remainder.below divisor then .ok (q, remainder)
    else
      match left with
      | 0 => .error tooManyCorrections
      | left + 1 => raiseEstimate divisor left (q + 1) (remainder.subSmaller divisor)

/-- The digit of the quotient of `remainder` by `divisor` near the estimate
`q`, and what then remains.  Corrections up and down are `allowed` together. -/
def settle (allowed : Nat) (remainder divisor : Integer) (q : Digit) :
    Except Error (Digit × Integer) := do
  if q = 0 then raiseEstimate divisor allowed q remainder
  else
    let (left, q, multiple) ← lowerEstimate remainder divisor allowed q (divisor.mulWord q)
    raiseEstimate divisor left q (remainder.subSmaller multiple)

/-! ## All digits -/

/-- An estimate of the quotient digit in a place, from the remainder there. -/
abbrev Estimate := (place : Nat) → (remainder : Integer) → Digit

/-- Moves the remainder up by one digit and puts `d` below it. -/
def pull (remainder : Integer) (d : Digit) : Integer :=
  let r := (remainder.shiftLeftDigits 1).reserve 1
  { r with digits := d :: r.digits.drop 1 }

/-- Divides on with the lower digits of the dividend, given from the top.
The digits of the quotient found so far are `qs`, lowest first. -/
def divideDigits (allowed : Nat) (estimate : Estimate) (divisor : Integer) :
    (lower : List Digit) → (remainder : Integer) → (qs : List Digit) →
      Except Error (List Digit × Integer)
  | [], remainder, qs => .ok (qs, remainder)
  | d :: lower, remainder, qs => do
    let remainder := pull remainder d
    let (q, remainder) ← settle allowed remainder divisor (estimate lower.length remainder)
    divideDigits allowed estimate divisor lower remainder (q :: qs)

/-- The quotient, in the places of the dividend, and the remainder of the
magnitudes, with `allowed` corrections for each digit. -/
def longWith (allowed : Nat) (estimate : Estimate) (dividend divisor : Integer) :
    Except Error (Integer × Integer) := do
  let n := divisor.digitCount
  if n = 0 then throw .divideByZero
  if dividend.below divisor then return (dividend.cleared, dividend.abs.compact)
  let divisor := divisor.abs.trim
  let ds := dividend.significant
  let start := ds.length - n
  let top : Integer := ⟨false, ds.drop start⟩
  let (q, remainder) ← settle allowed top divisor (estimate start top)
  let (qs, remainder) ← divideDigits allowed estimate divisor (ds.take start).reverse remainder [q]
  return (dividend.overwrite qs, remainder.normalizeSign)

/-! ## Estimates -/

/-- The quotient of the leading digits as doubles, cut to a digit. -/
def leadingEstimate (divisor : Integer) : Estimate :=
  let unit := divisor.digitCount - 1
  let divisor := divisor.scaled unit
  fun _ remainder =>
    let ratio := remainder.scaled unit / divisor
    if Digits.mask.toFloat ≤ ratio then Digits.mask else ratio.toUInt32

/-- Long division of magnitudes. -/
def long (dividend divisor : Integer) : Except Error (Integer × Integer) :=
  longWith maxCorrections (leadingEstimate divisor) dividend divisor

end Multiprecision.Quotient
