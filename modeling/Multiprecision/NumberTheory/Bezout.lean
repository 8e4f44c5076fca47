import Multiprecision.Arithmetic
import Multiprecision.Integer.Decimal

/-!
# Multiprecision.NumberTheory.Bezout

Greatest common divisors and modular inverses by Euclid's algorithm.  The
extended algorithm keeps, for each remainder, the coefficients that write it
as a combination of the two arguments.
-/

namespace Multiprecision.NumberTheory

/-- Divisions that Euclid's algorithm needs at most: of any two remainders
in a row, the second is less than half of what was divided. -/
def euclidSteps (y : Integer) : Nat := 2 * y.bitLength + 2

/-! ## Greatest common divisors -/

/-- Euclid's algorithm on two numbers that are not negative. -/
def gcdSteps (A : Arithmetic) : (fuel : Nat) → (x y : Integer) → Outcome Integer
  | 0, x, y => if y.isZero then .value x else .exhausted
  | fuel + 1, x, y =>
    if y.isZero then .value x
    else do
      let r ← A.rem x y
      gcdSteps A fuel y r

/-- The greatest common divisor, which is not negative. -/
def gcd (A : Arithmetic) (x y : Integer) : Outcome Integer :=
  gcdSteps A (euclidSteps y) x.abs y.abs

/-! ## Bézout coefficients -/

/-- The greatest common divisor of `a` and `b` as `x·a + y·b`. -/
structure Bezout where
  x : Integer
  y : Integer
  gcd : Integer
deriving DecidableEq, Repr

/-- A remainder with its coefficients. -/
structure Row where
  r : Integer
  s : Integer
  t : Integer
deriving Repr

/-- The row behind two rows. -/
def Row.next (A : Arithmetic) (old new : Row) : Outcome Row := do
  let (q, r) ← A.divMod old.r new.r
  let s ← A.product q new.s
  let t ← A.product q new.t
  return ⟨r, old.s.sub s, old.t.sub t⟩

/-- The last row whose remainder is not zero. -/
def bezoutSteps (A : Arithmetic) : (fuel : Nat) → (old new : Row) → Outcome Row
  | 0, old, new => if new.r.isZero then .value old else .exhausted
  | fuel + 1, old, new =>
    if new.r.isZero then .value old
    else do
      let next ← Row.next A old new
      bezoutSteps A fuel new next

/-- The row with the opposite signs. -/
def Row.neg (row : Row) : Row := ⟨row.r.neg, row.s.neg, row.t.neg⟩

/-- The greatest common divisor with its coefficients.  The identity that
they satisfy is checked. -/
def bezout (A : Arithmetic) (a b : Integer) : Outcome Bezout := do
  let last ← bezoutSteps A (euclidSteps b) ⟨a, 1, .zero⟩ ⟨b, .zero, 1⟩
  let last := if last.r.isNegative then last.neg else last
  let xa ← A.product last.s a
  let yb ← A.product last.t b
  if !(xa.add yb).equals last.r then
    throw (.invariantViolation
      ("bezout identity failed for gcd(" ++ a.toDecimal ++ ", " ++ b.toDecimal ++ ")"))
  return ⟨last.s, last.t, last.r⟩

/-! ## Inverses -/

/-- The inverse of `a` modulo a positive number, from zero up to that number. -/
def inverse (A : Arithmetic) (a modulus : Integer) : Outcome Integer := do
  if !modulus.isPositive then
    throw (.invalidArgument ("modulus must be positive, got " ++ modulus.toDecimal))
  let b ← bezout A a modulus
  if !b.gcd.isOne then throw .notInvertible
  A.rem b.x modulus

end Multiprecision.NumberTheory
