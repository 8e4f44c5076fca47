import Multiprecision.Error
import Multiprecision.Integer.Sum
import Multiprecision.Digits.Word

/-!
# Multiprecision.Integer.Word

Products, quotients and remainders by a machine word, one pass over the
digits each.
-/

namespace Multiprecision.Integer

/-! ## Products -/

/-- `x · w`, in the places of `x`. -/
def mulWord (x : Integer) (w : UInt32) : Integer :=
  if w = 0 then x.cleared
  else { x with digits :=
      Digits.padTo x.capacity (Digits.mulWord w.toUInt64 x.significant 0) }

/-- The absolute value of a signed word. -/
def wordMagnitude (w : Int32) : UInt32 := UInt32.ofNat w.toInt.natAbs

/-- `x · w` for a signed word. -/
def mulSignedWord (x : Integer) (w : Int32) : Integer :=
  let product := x.mulWord (wordMagnitude w)
  if w < 0 then product.neg else product

/-! ## Quotients and remainders -/

/-- The quotient of `x` by `w`, rounded towards zero, in the places of `x`,
and the remainder of the magnitude. -/
def divWord (x : Integer) (w : UInt32) : Except Error (Integer × UInt32) :=
  if w = 0 then .error .divideByZero
  else
    let (ds, r) := Digits.divWord w.toUInt64 x.digits
    .ok ({ x with digits := ds }.normalizeSign, r.toUInt32)

/-- The quotient and the remainder in `[0, |w|)` of `x` by a signed word. -/
def divSignedWord (x : Integer) (w : Int32) : Except Error (Integer × UInt32) := do
  let magnitude := wordMagnitude w
  let (q, r) ← x.divWord magnitude
  let (q, r) :=
    if x.isNegative && r != 0 then
      ({ q.addMagnitude 1 with negative := true }, magnitude - r)
    else (q, r)
  return (if w < 0 then q.neg else q, r)

/-- The remainder of the magnitude by `w`. -/
def remWord (x : Integer) (w : UInt32) : Except Error UInt32 :=
  if w = 0 then .error .divideByZero else .ok (Digits.remWord w.toUInt64 x.digits).toUInt32

/-- The remainder of `x` by `w`, in `[0, w)`. -/
def modWord (x : Integer) (w : UInt32) : Except Error UInt32 := do
  let r ← x.remWord w
  return if x.isNegative && r != 0 then w - r else r

end Multiprecision.Integer
