import Multiprecision.Digits

/-!
# Multiprecision.Digits.Order

The order of digit lists by their places.  The list with more significant
digits is the larger one; among as many, the highest place where the digits
differ decides.  Every place that is looked at is checked to be stored.
-/

namespace Multiprecision.Digits

/-- The order by the highest of the lowest `n` places where the digits differ. -/
def compareDown? : (n : Nat) → List Digit → List Digit → Option Ordering
  | 0, _, _ => some .eq
  | n + 1, as, bs => do
    let a ← as[n]?
    let b ← bs[n]?
    if a = b then compareDown? n as bs else return Ord.compare a b

/-- The order by the number of significant digits, and then from the top. -/
def compareByPlaces? (as bs : List Digit) : Option Ordering :=
  if count as = count bs then compareDown? (count as) as bs
  else some (Ord.compare (count as) (count bs))

end Multiprecision.Digits
