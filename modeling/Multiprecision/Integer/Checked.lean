import Multiprecision.Digits.Checked
import Multiprecision.Integer.Shift
import Multiprecision.Integer.Sum

/-!
# Multiprecision.Integer.Checked

Sums, differences and shifts of integers, made of the checked passes over digits.
Where every word fits and every place is stored, they are those of
`Multiprecision.Integer.Sum` and `Multiprecision.Integer.Shift`, reserved places
included; elsewhere they have no result.
-/

namespace Multiprecision.Integer

/-- `x` with the digits that a pass returns, if it does. -/
def withDigits? (x : Integer) (ds? : Option (List Digit)) : Option Integer :=
  ds?.map fun ds => { x with digits := ds }

/-! ## Magnitudes -/

/-- `|x| + |y|` with the sign of `x`. -/
def addMagnitude? (x y : Integer) : Option Integer :=
  let places := max x.digitCount y.digitCount + 1
  x.withDigits? (Digits.addInto? (Digits.padTo places x.digits) y.significant 0)

/-- `|x| - |y|` with the sign of `x`. -/
def subSmaller? (x y : Integer) : Option Integer :=
  x.withDigits? (Digits.subtract? x.digits y.significant 0)

/-- `|y| - |x|` with the sign of `x`. -/
def subFromLarger? (x y : Integer) : Option Integer :=
  x.withDigits? (Digits.subtractFrom? (Digits.padTo y.digitCount x.digits) y.significant 0)

/-- The difference of the magnitudes: `x` keeps its sign if it is the larger
one and takes the other sign if not. -/
def subMagnitudes? (x y : Integer) : Option Integer :=
  if x.below y then (x.subFromLarger? y).map fun r => { r with negative := !r.negative }
  else x.subSmaller? y

/-! ## Sums and differences -/

/-- `x + y`, in the places of `x`. -/
def add? (x y : Integer) : Option Integer :=
  (if x.negative == y.negative then x.addMagnitude? y else x.subMagnitudes? y).map normalizeSign

/-- `x - y`, in the places of `x`. -/
def sub? (x y : Integer) : Option Integer :=
  (if x.negative != y.negative then x.addMagnitude? y else x.subMagnitudes? y).map normalizeSign

/-- `y - x`, in the places of `x`. -/
def subFrom? (x y : Integer) : Option Integer := (x.sub? y).map neg

/-! ## Shifts -/

/-- `x · 2^bits`, moved within the places of `x` and those opened for it. -/
def shiftLeft? (x : Integer) (bits : Nat) : Option Integer :=
  let n := x.digitCount
  if n == 0 || bits == 0 then some x
  else
    let places := bits / Digits.width
    let ds := Digits.padTo (n + places + 1) x.digits
    let moved := Digits.moveUpBy? places (bits % Digits.width) n ds
    x.withDigits? (moved.bind fun ds => Digits.clear? ds 0 places)

/-- `x / 2^bits`, rounded towards zero, moved within the places of `x`. -/
def shiftRight? (x : Integer) (bits : Nat) : Option Integer :=
  let n := x.digitCount
  let places := bits / Digits.width
  if n == 0 || bits == 0 then some x
  else if n ≤ places then some x.cleared
  else
    let kept := n - places
    let moved := Digits.shiftDown? places (UInt32.ofNat (bits % Digits.width)) 0 kept x.digits
    (x.withDigits? (moved.bind fun ds => Digits.clear? ds kept (n - kept))).map normalizeSign

/-- The number of bits in `n` digits, if it fits a double word. -/
def digitBits? (n : Nat) : Option Nat :=
  if n * Digits.width < Nat.pow 2 64 then some (n * Digits.width) else none

/-- `x` shifted up by whole digits. -/
def shiftLeftDigits? (x : Integer) (n : Nat) : Option Integer := do
  x.shiftLeft? (← digitBits? n)

/-- `x` shifted down by whole digits. -/
def shiftRightDigits? (x : Integer) (n : Nat) : Option Integer := do
  x.shiftRight? (← digitBits? n)

end Multiprecision.Integer
