import Multiprecision.Digits

/-!
# Multiprecision.Digits.Product

Schoolbook products and squares, one column at a time.  Column `c` of a
product collects the terms `aᵢ · b_{c-i}` in a double word.  Before the
next term could overflow it, the part above one digit is moved to a second
double word: the column then is `low + 2^30 · high`.

The second word grows with the number of terms, and the carry to the next
column with it.  Every sum is checked: a product has no digits if one of
them would not fit a double word.
-/

namespace Multiprecision.Digits

/-- The largest product of two digits. -/
def maxProduct : UInt64 := wideMask * wideMask

/-- A column sum from here on has no room for one more product. -/
def foldLimit : UInt64 := 0xFFFFFFFFFFFFFFFF - maxProduct

/-- The sum of two double words, if it fits one. -/
def addWide (a b : UInt64) : Option UInt64 := if a + b < a then none else some (a + b)

/-- Adds the products of the paired digits to the column `low + 2^30·high`. -/
def accumulate : List Digit → List Digit → (low high : UInt64) → Option (UInt64 × UInt64)
  | a :: as, b :: bs, low, high => do
    let sum ← addWide low (a.toUInt64 * b.toUInt64)
    if foldLimit ≤ sum then accumulate as bs (sum &&& wideMask) (← addWide high (sum >>> 30))
    else accumulate as bs sum high
  | [], _, low, high => some (low, high)
  | _ :: _, [], low, high => some (low, high)

/-! ## Product -/

/-- The terms of column `c`: `as` upwards against `bs` downwards, the
latter given as the reversed list `rev` of `n` digits. -/
def productColumn (as rev : List Digit) (n c : Nat) (carry : UInt64) :
    Option (UInt64 × UInt64) :=
  accumulate (as.drop (c + 1 - n)) (rev.drop (n - 1 - c)) carry 0

/-- The columns from `c` on, `todo` of them, and the digits of the last carry. -/
def productColumns (as rev : List Digit) (n : Nat) :
    (c todo : Nat) → (carry : UInt64) → Option (List Digit)
  | _, 0, carry => some (ofNat carry.toNat)
  | c, todo + 1, carry => do
    let (low, high) ← productColumn as rev n c carry
    let ds ← productColumns as rev n (c + 1) todo (← addWide (low >>> 30) high)
    return (low &&& wideMask).toUInt32 :: ds

/-- The product of two lists of digits, in at least as many places as both
have together. -/
def product (as bs : List Digit) : Option (List Digit) :=
  if as.isEmpty || bs.isEmpty then some []
  else do
    let ds ← productColumns as bs.reverse bs.length 0 (as.length + bs.length - 1) 0
    return padTo (as.length + bs.length) ds

/-! ## Square -/

/-- The square of the middle digit of an even column. -/
def diagonal (ds : List Digit) (c : Nat) : UInt64 :=
  if c % 2 = 0 then
    let d := (ds.drop (c / 2)).headD 0
    d.toUInt64 * d.toUInt64
  else 0

/-- The terms of column `c` below its middle, each once; `rev` is the
reversed list of the `n` digits. -/
def squareColumn (ds rev : List Digit) (n c : Nat) : Option (UInt64 × UInt64) :=
  let lo := c + 1 - n
  accumulate ((ds.drop lo).take ((c + 1 - 2 * lo) / 2)) (rev.drop (n - 1 - c)) 0 0

/-- The columns from `c` on, `todo` of them, and the digits of the last carry. -/
def squareColumns (ds rev : List Digit) (n : Nat) :
    (c todo : Nat) → (carry : UInt64) → Option (List Digit)
  | _, 0, carry => some (ofNat carry.toNat)
  | c, todo + 1, carry => do
    let (low, high) ← squareColumn ds rev n c
    let high ← addWide high (low >>> 30)
    let low := low &&& wideMask
    let total ← addWide (← addWide carry (diagonal ds c)) (low + low)
    let carry ← addWide (total >>> 30) (← addWide high high)
    let ds ← squareColumns ds rev n (c + 1) todo carry
    return (total &&& wideMask).toUInt32 :: ds

/-- The square of a list of digits, in at least twice as many places.  Each
product off the diagonal is computed once and counted twice. -/
def square (ds : List Digit) : Option (List Digit) :=
  if ds.isEmpty then some []
  else do
    let squared ← squareColumns ds ds.reverse ds.length 0 (2 * ds.length - 1) 0
    return padTo (2 * ds.length) squared

end Multiprecision.Digits
