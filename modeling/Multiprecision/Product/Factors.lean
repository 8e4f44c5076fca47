import Multiprecision.Outcome
import Multiprecision.Integer.Sum
import Multiprecision.Digits.Product

/-!
# Multiprecision.Product.Factors

What a product is asked for, and the schoolbook product of it.  A square is
asked for as one factor that is used twice, because it costs less than a
product; two equal factors are still two.

A product is written into an integer that may hold something already.  Only
the number of places matters there: the result takes them over.
-/

namespace Multiprecision

/-- The factors of a product. -/
inductive Factors where
  | pair (left right : Integer)
  | twice (x : Integer)
deriving DecidableEq, Repr

namespace Factors

/-- The product as a number. -/
def toInt : Factors → Int
  | pair x y => x.toInt * y.toInt
  | twice x => x.toInt * x.toInt

/-- The product of the magnitudes as a number. -/
def magnitude : Factors → Nat
  | pair x y => x.magnitude * y.magnitude
  | twice x => x.magnitude * x.magnitude

/-- The product is below zero, unless it is zero. -/
def negative : Factors → Bool
  | pair x y => x.negative != y.negative
  | twice _ => false

end Factors

/-- A way to multiply magnitudes. -/
abbrev Multiplier := Factors → Outcome Integer

namespace Multiplier

/-- The product with its sign. -/
def signed (multiply : Multiplier) (f : Factors) : Outcome Integer := do
  let product ← multiply f
  return { product with negative := f.negative }.normalizeSign

end Multiplier

namespace Integer

/-- The schoolbook product of the magnitudes, written into `into`. -/
def mulGradeSchool (left right into : Integer) : Outcome Integer := do
  return into.overwrite (← Outcome.ofChecked (Digits.product left.significant right.significant))

/-- The schoolbook square of the magnitude, written into `into`. -/
def squareGradeSchool (x into : Integer) : Outcome Integer := do
  return into.overwrite (← Outcome.ofChecked (Digits.square x.significant))

end Integer

end Multiprecision
