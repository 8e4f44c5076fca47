import Multiprecision.Digits

/-!
# Multiprecision.Digits.Word

Products and quotients by one machine word.  The word may use all of its 32
bits, so a carry can fill more than one digit past the end, and a remainder
can be larger than a digit.
-/

namespace Multiprecision.Digits

/-- `ds · w + carry`; the last carry opens as many places as it needs. -/
def mulWord (w : UInt64) : List Digit → (carry : UInt64) → List Digit
  | [], carry => ofNat carry.toNat
  | d :: ds, carry =>
    let product := d.toUInt64 * w + carry
    (product &&& wideMask).toUInt32 :: mulWord w ds (product >>> 30)

/-- The quotient by `w`, in as many places, and the remainder. -/
def divWord (w : UInt64) : List Digit → List Digit × UInt64
  | [] => ([], 0)
  | d :: ds =>
    let (qs, high) := divWord w ds
    let current := high <<< 30 ||| d.toUInt64
    ((current / w).toUInt32 :: qs, current % w)

/-- The remainder by `w`. -/
def remWord (w : UInt64) : List Digit → UInt64
  | [] => 0
  | d :: ds => (remWord w ds <<< 30 ||| d.toUInt64) % w

end Multiprecision.Digits
