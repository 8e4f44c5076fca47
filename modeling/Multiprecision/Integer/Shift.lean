import Multiprecision.Integer
import Multiprecision.Digits.Shift

/-!
# Multiprecision.Integer.Shift

Shifts of the magnitude; the sign stays.  A shift down drops the low bits,
so it rounds towards zero.
-/

namespace Multiprecision.Integer

/-- `x · 2^bits`.  One place is opened past the digits that the shift moves. -/
def shiftLeft (x : Integer) (bits : Nat) : Integer :=
  if x.isZero || bits == 0 then x
  else
    let places := List.replicate (bits / Digits.width) 0
    let moved := Digits.shiftUp (UInt32.ofNat (bits % Digits.width)) x.significant 0
    { x with digits := Digits.padTo x.capacity (places ++ moved) }

/-- `x / 2^bits`, rounded towards zero, in the places of `x`. -/
def shiftRight (x : Integer) (bits : Nat) : Integer :=
  if x.isZero || bits == 0 then x
  else
    let kept := x.significant.drop (bits / Digits.width)
    let moved := Digits.shiftDown (UInt32.ofNat (bits % Digits.width)) kept
    { x with digits := Digits.padTo x.capacity moved }.normalizeSign

/-- `x` shifted up by whole digits. -/
def shiftLeftDigits (x : Integer) (n : Nat) : Integer := x.shiftLeft (n * Digits.width)

/-- `x` shifted down by whole digits. -/
def shiftRightDigits (x : Integer) (n : Nat) : Integer := x.shiftRight (n * Digits.width)

end Multiprecision.Integer
