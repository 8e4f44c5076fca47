import Multiprecision.Product
import Multiprecision.Quotient

/-!
# Multiprecision.Arithmetic

The two operations that everything beyond sums and shifts is built on: a
product, and a Euclidean division.  Algorithms on numbers take them as an
argument, so what they compute depends on the results of these alone and
not on how thresholds steer them.
-/

namespace Multiprecision

/-- Products and Euclidean divisions of integers. -/
structure Arithmetic where
  /-- The product, written into the second argument. -/
  mul : Factors → (into : Integer) → Outcome Integer
  /-- The quotient and the remainder of a dividend and a divisor, the
  remainder written into the third argument. -/
  divide : (dividend divisor into : Integer) → Outcome (Integer × Integer)

namespace Arithmetic

/-- The arithmetic that the thresholds choose.  Products and corrections of
quotients go no further than `depth` says. -/
def ofThresholds (t : Thresholds) (depth : Nat) : Arithmetic where
  mul := Product.signed t depth
  divide := Quotient.divide t (fun f => Product.magnitudes t depth f .zero) depth

/-- The depth that is more than enough wherever products end. -/
def defaultDepth : Nat := 1000

/-- The product of two integers. -/
def product (A : Arithmetic) (x y : Integer) : Outcome Integer := A.mul (.pair x y) .zero

/-- The square of an integer. -/
def square (A : Arithmetic) (x : Integer) : Outcome Integer := A.mul (.twice x) .zero

/-- The Euclidean quotient and remainder. -/
def divMod (A : Arithmetic) (x y : Integer) : Outcome (Integer × Integer) :=
  A.divide x y .zero

/-- The Euclidean remainder. -/
def rem (A : Arithmetic) (x y : Integer) : Outcome Integer := do
  return (← A.divMod x y).2

end Arithmetic

end Multiprecision
