/-!
# Multiprecision.Digits

Natural numbers as lists of thirty-bit digits, least significant first:

```
value [d₀, d₁, d₂, …]  =  d₀ + 2^30·d₁ + 2^60·d₂ + …
```

A digit sits in a 32-bit word, so that the sum of two digits and a carry
fits the word, and the product of two digits with room for carries fits a
64-bit word.  A list may end in zeros: they are *reserved* places, part of
how a number is stored and no part of its value.
-/

namespace Multiprecision

/-- A word that holds one digit in its low thirty bits. -/
abbrev Digit := UInt32

namespace Digits

/-- The number of value bits in a digit. -/
def width : Nat := 30

/-- The number of values that a digit has, `2^width`. -/
def base : Nat := 1073741824

/-- The value bits of a digit. -/
def mask : Digit := 0x3FFFFFFF

/-- The value bits of a digit, in a double word. -/
def wideMask : UInt64 := 0x3FFFFFFF

/-- The number that the digits write. -/
def value : List Digit → Nat
  | [] => 0
  | d :: ds => d.toNat + base * value ds

/-- The number of digits that hold `bits` bits. -/
def countFor (bits : Nat) : Nat := (bits + width - 1) / width

/-! ## Significant digits -/

/-- Every digit is zero. -/
def isZero (ds : List Digit) : Bool := ds.all (· == 0)

/-- The digits up to the last one that is not zero. -/
def significant : List Digit → List Digit
  | [] => []
  | d :: ds =>
    match significant ds with
    | [] => if d = 0 then [] else [d]
    | e :: es => d :: e :: es

/-- The number of significant digits. -/
def count (ds : List Digit) : Nat := (significant ds).length

/-- The bits of a word up to its highest set bit. -/
def wordBits (n : Nat) : Nat := if n = 0 then 0 else n.log2 + 1

/-- The number of bits of the value: the least `n` with `value ds < 2 ^ n`. -/
def bitLength : List Digit → Nat
  | [] => 0
  | d :: ds =>
    match bitLength ds with
    | 0 => wordBits d.toNat
    | n + 1 => n + 1 + width

/-- The digits followed by zeros, so that at least `n` places are stored. -/
def padTo (n : Nat) (ds : List Digit) : List Digit :=
  ds ++ List.replicate (n - ds.length) 0

/-! ## Digits of a number -/

/-- The digits of `n`, without reserved places. -/
def ofNat (n : Nat) : List Digit :=
  if n = 0 then [] else UInt32.ofNat (n % base) :: ofNat (n / base)
termination_by n
decreasing_by exact Nat.div_lt_self (by omega) (by decide)

/-! ## Order -/

/-- The order of the values; reserved places do not matter. -/
def compare : List Digit → List Digit → Ordering
  | [], bs => if isZero bs then .eq else .lt
  | as, [] => if isZero as then .eq else .gt
  | a :: as, b :: bs => (compare as bs).then (Ord.compare a b)

end Digits

end Multiprecision
