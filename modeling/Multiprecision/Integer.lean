import Multiprecision.Digits

/-!
# Multiprecision.Integer

Integers of any size as a sign and the digits of a magnitude.  The digits
may end in reserved places (see `Multiprecision.Digits`); operations that
work in place keep the places of the operand they change and open new ones
as they need them, and the functions below say how many.

Operations return canonical integers: every digit is below `2^30`, and zero
is not negative.
-/

namespace Multiprecision

/-- An integer, stored as a sign and a magnitude. -/
structure Integer where
  negative : Bool
  digits : List Digit
deriving DecidableEq, Repr

namespace Integer

/-! ## Value -/

/-- The number that an integer stands for. -/
def toInt (x : Integer) : Int :=
  if x.negative then -(Digits.value x.digits : Int) else Digits.value x.digits

/-- The absolute value as a natural number. -/
def magnitude (x : Integer) : Nat := Digits.value x.digits

/-- Every digit is in range, and zero carries no sign. -/
def Canonical (x : Integer) : Prop :=
  (∀ d ∈ x.digits, d.toNat < Digits.base) ∧
    (x.negative = true → Digits.isZero x.digits = false)

/-! ## Making integers -/

/-- Zero, with no place stored. -/
def zero : Integer := ⟨false, []⟩

instance : Inhabited Integer := ⟨zero⟩

/-- The integer with the given value and no reserved place. -/
def ofInt (i : Int) : Integer := ⟨decide (i < 0), Digits.ofNat i.natAbs⟩

/-- The natural number `n`, with no reserved place. -/
def ofNat (n : Nat) : Integer := ⟨false, Digits.ofNat n⟩

instance (n : Nat) : OfNat Integer n := ⟨ofNat n⟩

/-- Zero, with places for `bits` bits. -/
def zeros (bits : Nat) : Integer := ⟨false, List.replicate (Digits.countFor bits) 0⟩

/-- The number that the low thirty bits of each word write; every word
makes one place. -/
def ofDigits (words : List Digit) : Integer := ⟨false, words.map (· &&& Digits.mask)⟩

/-! ## Reading an integer -/

/-- The number of places stored. -/
def capacity (x : Integer) : Nat := x.digits.length

/-- The digits without reserved places. -/
def significant (x : Integer) : List Digit := Digits.significant x.digits

/-- The number of digits without reserved places. -/
def digitCount (x : Integer) : Nat := Digits.count x.digits

/-- The digit in place `i`; places that are not stored read as zero. -/
def digit (x : Integer) (i : Nat) : Digit := (x.digits.drop i).headD 0

/-- The number of bits of the magnitude. -/
def bitLength (x : Integer) : Nat := Digits.bitLength x.digits

def isZero (x : Integer) : Bool := Digits.isZero x.digits

def isNegative (x : Integer) : Bool := x.negative && !x.isZero

def isPositive (x : Integer) : Bool := !x.negative && !x.isZero

/-- The sign as -1, 0 or 1. -/
def signum (x : Integer) : Int :=
  if x.isZero then 0 else if x.negative then -1 else 1

def isEven (x : Integer) : Bool := x.digit 0 &&& 1 == 0

/-- The value is one. -/
def isOne (x : Integer) : Bool := !x.negative && x.significant == [1]

/-! ## Storage -/

/-- Takes the sign off a zero. -/
def normalizeSign (x : Integer) : Integer :=
  if x.negative && x.isZero then { x with negative := false } else x

/-- Opens places until at least `n` are stored. -/
def reserve (x : Integer) (n : Nat) : Integer := { x with digits := Digits.padTo n x.digits }

/-- Opens places for `bits` bits. -/
def reserveBits (x : Integer) (bits : Nat) : Integer := x.reserve (Digits.countFor bits)

/-- Gives up the reserved places. -/
def trim (x : Integer) : Integer := { x with digits := x.significant }

/-- The same value, stored anew without reserved places. -/
def compact (x : Integer) : Integer := x.trim.normalizeSign

/-- Zero in the places of `x`. -/
def cleared (x : Integer) : Integer := ⟨false, List.replicate x.capacity 0⟩

/-- The digits `ds` in the places of `x`, and in new ones past those. -/
def overwrite (x : Integer) (ds : List Digit) : Integer := ⟨false, Digits.padTo x.capacity ds⟩

/-- The natural number `n` in the places of `x`. -/
def setSmall (x : Integer) (n : Nat) : Integer := x.overwrite (Digits.ofNat n)

/-! ## Sign -/

/-- The additive inverse. -/
def neg (x : Integer) : Integer := { x with negative := !x.negative }.normalizeSign

instance : Neg Integer := ⟨neg⟩

/-- The absolute value. -/
def abs (x : Integer) : Integer := { x with negative := false }

end Integer

end Multiprecision
