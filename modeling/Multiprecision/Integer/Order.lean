import Multiprecision.Integer

/-!
# Multiprecision.Integer.Order

Order, equality and the key that a hash table uses.  All of them look at
the value alone: two integers that differ only in reserved places are equal
and have one key.
-/

namespace Multiprecision.Integer

/-- The order of the absolute values. -/
def compareMagnitude (x y : Integer) : Ordering := Digits.compare x.digits y.digits

/-- The order of the values. -/
def compare (x y : Integer) : Ordering :=
  match x.negative, y.negative with
  | false, true => .gt
  | true, false => .lt
  | false, false => x.compareMagnitude y
  | true, true => y.compareMagnitude x

/-- The values are equal. -/
def equals (x y : Integer) : Bool := x.negative == y.negative && x.compareMagnitude y == .eq

/-- What a hash function is fed with. -/
def hashKey (x : Integer) : Bool × List Digit := (x.negative, x.significant)

/-- The magnitude of `x` is below that of `y`. -/
def below (x y : Integer) : Bool := x.compareMagnitude y == .lt

end Multiprecision.Integer
