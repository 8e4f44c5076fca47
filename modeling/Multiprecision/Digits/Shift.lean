import Multiprecision.Digits

/-!
# Multiprecision.Digits.Shift

Shifts by fewer bits than a digit has, and the low bits of a number.  A
shift by whole digits is a change of the list (`List.drop`, or zeros in
front), so every shift and every window of bits is made of these.
-/

namespace Multiprecision.Digits

/-- `ds · 2^bits` for `bits < width`, with one more place; `low` is the
digit below. -/
def shiftUp (bits : UInt32) : List Digit → (low : Digit) → List Digit
  | [], low => [low >>> (30 - bits)]
  | d :: ds, low => (((d <<< bits) &&& mask) ||| (low >>> (30 - bits))) :: shiftUp bits ds d

/-- `ds / 2^bits` for `bits < width`, in as many places. -/
def shiftDown (bits : UInt32) : List Digit → List Digit
  | [] => []
  | [d] => [d >>> bits]
  | d :: e :: ds => ((d >>> bits) ||| ((e <<< (30 - bits)) &&& mask)) :: shiftDown bits (e :: ds)

/-- The low `bits` bits of the value, in just as many places as they need. -/
def lowBits (bits : Nat) : List Digit → List Digit
  | [] => []
  | d :: ds =>
    if bits = 0 then []
    else if bits < width then [d &&& ((1 <<< UInt32.ofNat bits) - 1)]
    else d :: lowBits (bits - width) ds

end Multiprecision.Digits
