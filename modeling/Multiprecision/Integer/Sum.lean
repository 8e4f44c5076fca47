import Multiprecision.Integer.Order
import Multiprecision.Digits.Sum

/-!
# Multiprecision.Integer.Sum

Sums and differences.  The first operand is the one changed in place: its
places are kept, and a sum of magnitudes opens one more than the longer
operand has digits.  Signs decide between a sum and a difference of
magnitudes, and a difference always takes the smaller from the larger.
-/

namespace Multiprecision.Integer

/-! ## Magnitudes -/

/-- `|x| + |y|` with the sign of `x`. -/
def addMagnitude (x y : Integer) : Integer :=
  let places := max x.digitCount y.digitCount + 1
  { x with digits := Digits.addInto (Digits.padTo places x.digits) y.significant 0 }

/-- `|x| - |y|` with the sign of `x`, where `|y| ≤ |x|`. -/
def subSmaller (x y : Integer) : Integer :=
  { x with digits := Digits.subtract x.digits y.significant 0 }

/-- `|y| - |x|` with the sign of `x`, where `|x| ≤ |y|`. -/
def subFromLarger (x y : Integer) : Integer :=
  { x with digits :=
      Digits.subtractFrom (Digits.padTo y.digitCount x.digits) y.significant 0 }

/-- The difference of the magnitudes: `x` keeps its sign if it is the larger
one and takes the other sign if not. -/
def subMagnitudes (x y : Integer) : Integer :=
  if x.below y then
    let r := x.subFromLarger y
    { r with negative := !r.negative }
  else x.subSmaller y

/-! ## Integers -/

/-- `x + y`, in the places of `x`. -/
def add (x y : Integer) : Integer :=
  (if x.negative == y.negative then x.addMagnitude y else x.subMagnitudes y).normalizeSign

/-- `x - y`, in the places of `x`. -/
def sub (x y : Integer) : Integer :=
  (if x.negative != y.negative then x.addMagnitude y else x.subMagnitudes y).normalizeSign

/-- `y - x`, in the places of `x`. -/
def subFrom (x y : Integer) : Integer := (x.sub y).neg

instance : Add Integer := ⟨add⟩

instance : Sub Integer := ⟨sub⟩

end Multiprecision.Integer
