import Multiprecision.Digits.Shift
import Multiprecision.Digits.Sum

/-!
# Multiprecision.Digits.Checked

Sums, differences and moves of digits with every word and every place checked.
They go over the stored digits as `Multiprecision.Digits.Sum` does, and move
digits within the list that they read them from, but they have no result if

* a sum of words has more than 32 bits, or a difference is below zero;
* a place is read or written that is not stored;
* a carry or a borrow is left over.
-/

namespace Multiprecision.Digits

/-! ## Words -/

/-- The sum of two words, if it fits one. -/
def addWord? (a b : Digit) : Option Digit := if a + b < a then none else some (a + b)

/-- The difference of two words, if it is not below zero. -/
def subtractWord? (a b : Digit) : Option Digit := if a < b then none else some (a - b)

/-- `a - b - borrow` as a digit, and the borrow that it leaves. -/
def subtractDigit? (a b borrow : Digit) : Option (Digit × Digit) := do
  let taken ← addWord? b borrow
  if taken ≤ a then return (← subtractWord? a taken, 0)
  else return (← subtractWord? (← addWord? a 0x40000000) taken, 1)

/-! ## Sums and differences -/

/-- The sum in the places of `as`. -/
def addInto? : List Digit → List Digit → (carry : Digit) → Option (List Digit)
  | [], [], carry => if carry = 0 then some [] else none
  | [], _ :: _, _ => none
  | a :: as, [], carry =>
    if carry = 0 then some (a :: as)
    else do
      let sum ← addWord? a carry
      return (sum &&& mask) :: (← addInto? as [] (sum >>> 30))
  | a :: as, b :: bs, carry => do
    let sum ← addWord? (← addWord? a b) carry
    return (sum &&& mask) :: (← addInto? as bs (sum >>> 30))

/-- `as - bs` in the places of `as`. -/
def subtract? : List Digit → List Digit → (borrow : Digit) → Option (List Digit)
  | [], [], borrow => if borrow = 0 then some [] else none
  | [], _ :: _, _ => none
  | a :: as, [], borrow =>
    if borrow = 0 then some (a :: as)
    else do
      let step ← subtractDigit? a 0 borrow
      return step.1 :: (← subtract? as [] step.2)
  | a :: as, b :: bs, borrow => do
    let step ← subtractDigit? a b borrow
    return step.1 :: (← subtract? as bs step.2)

/-- `bs - as` in the places of `as`; places past those of `bs` stay. -/
def subtractFrom? : List Digit → List Digit → (borrow : Digit) → Option (List Digit)
  | as, [], borrow => if borrow = 0 then some as else none
  | [], _ :: _, _ => none
  | a :: as, b :: bs, borrow => do
    let step ← subtractDigit? b a borrow
    return step.1 :: (← subtractFrom? as bs step.2)

/-! ## Moves -/

/-- The digits with `d` in place `i`. -/
def put? (ds : List Digit) (i : Nat) (d : Digit) : Option (List Digit) :=
  if i < ds.length then some (ds.set i d) else none

/-- The digits with zeros in `n` places from place `i` on. -/
def clear? (ds : List Digit) (i n : Nat) : Option (List Digit) :=
  if i + n ≤ ds.length then some (ds.take i ++ List.replicate n 0 ++ ds.drop (i + n)) else none

/-- Moves the lowest `n` digits up by whole places, the highest digit first. -/
def moveUp? (places : Nat) : (n : Nat) → List Digit → Option (List Digit)
  | 0, ds => some ds
  | n + 1, ds => do
    let d ← ds[n]?
    moveUp? places n (← put? ds (n + places) d)

/-- Moves the lowest `n` digits up by whole places and some bits, the highest
digit first.  What a digit has above its place is joined to the digit there,
which has been moved already. -/
def shiftUp? (places : Nat) (bits : UInt32) : (n : Nat) → List Digit → Option (List Digit)
  | 0, ds => some ds
  | n + 1, ds => do
    let d ← ds[n]?
    let above ← ds[n + places + 1]?
    let ds ← put? ds (n + places + 1) (above ||| d >>> (30 - bits))
    shiftUp? places bits n (← put? ds (n + places) ((d <<< bits) &&& mask))

/-- Moves the lowest `n` digits up by whole places and `bits` bits more. -/
def moveUpBy? (places bits n : Nat) (ds : List Digit) : Option (List Digit) :=
  if bits = 0 then moveUp? places n ds else shiftUp? places (UInt32.ofNat bits) n ds

/-- Moves digits down by whole places and some bits into the places from `i` on,
the lowest digit first.  The next digit is not moved yet when its low bits are
read; past the end it reads as zero. -/
def shiftDown? (places : Nat) (bits : UInt32) : (i todo : Nat) → List Digit → Option (List Digit)
  | _, 0, ds => some ds
  | i, todo + 1, ds => do
    let low := (← ds[i + places]?) >>> bits
    let high :=
      if bits = 0 then 0 else ((ds.drop (i + places + 1)).headD 0 <<< (30 - bits)) &&& mask
    shiftDown? places bits (i + 1) todo (← put? ds i (low ||| high))

end Multiprecision.Digits
