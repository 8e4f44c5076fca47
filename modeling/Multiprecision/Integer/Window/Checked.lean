import Multiprecision.Integer.Checked
import Multiprecision.Integer.Window
import Multiprecision.Size

/-!
# Multiprecision.Integer.Window.Checked

Windows of a magnitude, taken digit by digit.  Each digit of a window of bits is
put together from two digits of the integer, and the highest one is cut off.
Sizes are double words.  Where one does not fit, a place is not stored, or a shift
is by a whole word, there is no result.
-/

namespace Multiprecision

namespace Digits

/-- A word moved up, if the shift is by less than a word. -/
def shiftUpWord? (d : Digit) (bits : Nat) : Option Digit :=
  if bits < 32 then some (d <<< UInt32.ofNat bits) else none

/-- A word moved down, if the shift is by less than a word. -/
def shiftDownWord? (d : Digit) (bits : Nat) : Option Digit :=
  if bits < 32 then some (d >>> UInt32.ofNat bits) else none

/-- The digits in the places `lo` to `hi`, if they are stored. -/
def slice? (ds : List Digit) (lo hi : Nat) : Option (List Digit) :=
  if lo ≤ hi + 1 ∧ hi < ds.length then some ((ds.drop lo).take (hi + 1 - lo)) else none

/-- Clears what the highest of the digits has above `bits` bits of them all. -/
def cutTop? (bits : Nat) (ds : List Digit) : Option (List Digit) := do
  let last ← Size.sub? (countFor bits) 1
  let below ← Integer.digitBits? last
  let top ← Size.sub? bits below
  if top < width then
    let d ← ds[last]?
    put? ds last (d &&& (← subtractWord? (← shiftUpWord? 1 top) 1))
  else some ds

end Digits

namespace Integer

open Digits

/-- What the digit above `place` gives to it, when digits move down by `shift` bits. -/
def lent? (x : Integer) (place shift : Nat) : Option Digit :=
  if shift = 0 then some 0
  else do shiftUpWord? (x.digit (← Size.add? place 1)) (← Size.sub? width shift)

/-- Digit `k` of a window of bits that begins `shift` bits above the place `first`. -/
def windowDigit? (x : Integer) (first shift k : Nat) : Option Digit := do
  let place ← Size.add? first k
  let low ← shiftDownWord? (x.digit place) shift
  return (low ||| (← x.lent? place shift)) &&& mask

/-- The digits in the places `lo` to `hi`. -/
def digitWindow? (x : Integer) (lo hi : Nat) : Option Integer :=
  if hi < lo ∨ x.digitCount ≤ lo then some zero
  else do
    let last ← Size.sub? x.digitCount 1
    return ofDigits (← slice? x.digits lo (min hi last))

/-- The bits `lo` to `hi`. -/
def bitWindow? (x : Integer) (lo hi : Nat) : Option Integer := do
  let available ← digitBits? x.digitCount
  if hi < lo ∨ available ≤ lo then some zero
  else
    let last ← Size.sub? available 1
    let bits ← Size.add? (← Size.sub? (min hi last) lo) 1
    let ds ← (List.range (countFor bits)).mapM (x.windowDigit? (lo / width) (lo % width))
    return ofDigits (← cutTop? bits ds)

end Integer

end Multiprecision
