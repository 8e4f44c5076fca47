import Multiprecision.Digits

/-!
# Multiprecision.Digits.Sum

Sums and differences, digit by digit with a carry or a borrow.  Each pass
keeps the number of places of its first operand: `addInto` needs one place
for the last carry, and the two differences need the value that they take
away to be the smaller one.
-/

namespace Multiprecision.Digits

/-- The sum in the places of `as`; what a carry takes past them is lost. -/
def addInto : List Digit → List Digit → (carry : Digit) → List Digit
  | [], _, _ => []
  | a :: as, [], carry =>
    if carry = 0 then a :: as
    else
      let sum := a + carry
      (sum &&& mask) :: addInto as [] (sum >>> 30)
  | a :: as, b :: bs, carry =>
    let sum := a + b + carry
    (sum &&& mask) :: addInto as bs (sum >>> 30)

/-- `a - b - borrow` as a digit, and the borrow that it leaves. -/
def subtractDigit (a b borrow : Digit) : Digit × Digit :=
  let taken := b + borrow
  if taken ≤ a then (a - taken, 0) else (a + 0x40000000 - taken, 1)

/-- `as - bs` in the places of `as`. -/
def subtract : List Digit → List Digit → (borrow : Digit) → List Digit
  | [], _, _ => []
  | a :: as, [], borrow =>
    if borrow = 0 then a :: as
    else
      let (d, next) := subtractDigit a 0 borrow
      d :: subtract as [] next
  | a :: as, b :: bs, borrow =>
    let (d, next) := subtractDigit a b borrow
    d :: subtract as bs next

/-- `bs - as` in the places of `as`; places past those of `bs` stay. -/
def subtractFrom : List Digit → List Digit → (borrow : Digit) → List Digit
  | [], _, _ => []
  | as, [], _ => as
  | a :: as, b :: bs, borrow =>
    let (d, next) := subtractDigit b a borrow
    d :: subtractFrom as bs next

end Multiprecision.Digits
