import Multiprecision.Product.Factors

/-!
# Multiprecision.Fermat.Convolution

The negacyclic convolution of two sequences, term by term: the coefficients
of the product of two polynomials modulo `X^n + 1`, where `X^n` counts as
`-1`.  Terms are products of magnitudes.
-/

namespace Multiprecision.Fermat

/-- The products of paired entries, added to `sum` by `combine`. -/
def foldProducts (combine : Integer → Integer → Integer) :
    List Integer → List Integer → (sum : Integer) → Outcome Integer
  | x :: xs, y :: ys, sum => do
    foldProducts combine xs ys (combine sum (← Integer.mulGradeSchool x y .zero))
  | [], _, sum => .value sum
  | _ :: _, [], sum => .value sum

/-- Coefficient `c` of the convolution of sequences of one length: the terms
`xᵢ·yⱼ` with `i + j = c`, less those with `i + j = c + n`. -/
def negacyclicCoefficient (xs ys : List Integer) (c : Nat) : Outcome Integer := do
  let direct ← foldProducts .add (xs.take (c + 1)).reverse ys .zero
  foldProducts .sub (xs.drop (c + 1)).reverse (ys.drop (c + 1)) direct

/-- The negacyclic convolution; the longer sequence is cut off. -/
def negacyclic (xs ys : List Integer) : Outcome (List Integer) :=
  let n := min xs.length ys.length
  (List.range n).mapM (negacyclicCoefficient (xs.take n) (ys.take n))

end Multiprecision.Fermat
