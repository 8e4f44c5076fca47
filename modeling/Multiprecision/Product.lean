import Multiprecision.Fermat.Product
import Multiprecision.Product.Algorithm
import Multiprecision.Product.ToomCook

/-!
# Multiprecision.Product

Products of integers.  The algorithm is chosen by the sizes of the factors;
the products that it needs are chosen anew.  For thresholds that let an
operand grow on its way down, this recursion has no bottom, so it has a
depth: a product needs no more than the depth, or is exhausted.
-/

namespace Multiprecision.Product

/-- The product of the magnitudes by a given algorithm, written into `into`.
Further products are left to `multiply`. -/
def byAlgorithm (t : Thresholds) (multiply : Multiplier) (algorithm : Algorithm)
    (left right into : Integer) : Outcome Integer :=
  let (left, right) :=
    if right.digitCount ≤ left.digitCount then (left, right) else (right, left)
  match algorithm with
  | .gradeSchool => Integer.mulGradeSchool left right into
  | .toom15 => ToomCook.mul15 multiply left right into
  | .toom2 => ToomCook.mul2 multiply left right into
  | .toom25 => ToomCook.mul25 multiply left right into
  | .toom3 => ToomCook.mul3 multiply left right into
  | .schonhageStrassen k => Fermat.schonhageStrassen t multiply k (.pair left right)

/-- The square of the magnitude by a given algorithm, written into `into`.
The uneven splits have no squares; the next even one stands in. -/
def squareByAlgorithm (t : Thresholds) (multiply : Multiplier) (algorithm : Algorithm)
    (x into : Integer) : Outcome Integer :=
  match algorithm with
  | .gradeSchool => Integer.squareGradeSchool x into
  | .toom15 | .toom2 => ToomCook.square2 multiply x into
  | .toom25 | .toom3 => ToomCook.square3 multiply x into
  | .schonhageStrassen k => Fermat.schonhageStrassen t multiply k (.twice x)

/-- The product of the magnitudes, written into `into`. -/
def magnitudes (t : Thresholds) : (depth : Nat) → Factors → (into : Integer) → Outcome Integer
  | 0, _, _ => .exhausted
  | depth + 1, .pair left right, into =>
    if left.isZero || right.isZero then .value into.cleared
    else
      byAlgorithm t (fun f => magnitudes t depth f .zero)
        (Algorithm.forProduct t left.bitLength right.bitLength) left right into
  | depth + 1, .twice x, into =>
    if x.isZero then .value into.cleared
    else
      squareByAlgorithm t (fun f => magnitudes t depth f .zero)
        (Algorithm.forSquare t x.bitLength) x into

/-- The product of the magnitudes by a given algorithm, written into `into`.
The algorithms of further products are chosen. -/
def withAlgorithm (t : Thresholds) (depth : Nat) (algorithm : Algorithm) :
    Factors → (into : Integer) → Outcome Integer
  | .pair left right, into =>
    byAlgorithm t (fun f => magnitudes t depth f .zero) algorithm left right into
  | .twice x, into =>
    squareByAlgorithm t (fun f => magnitudes t depth f .zero) algorithm x into

/-- The product, written into `into`. -/
def signed (t : Thresholds) (depth : Nat) (f : Factors) (into : Integer) : Outcome Integer :=
  Multiplier.signed (fun f => magnitudes t depth f into) f

end Multiprecision.Product
