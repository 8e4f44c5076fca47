import Multiprecision.Integer

/-!
# Multiprecision.Integer.Bits

The magnitude as a row of bits: single bits, and the runs of equal bits at the
low end.
-/

namespace Multiprecision.Integer

/-! ## Single bits -/

/-- Bit `i` of the magnitude. -/
def bit (x : Integer) (i : Nat) : Bool :=
  (x.digit (i / Digits.width) >>> UInt32.ofNat (i % Digits.width)) &&& 1 == 1

/-- The magnitude with bit `i` set to `b`.  Setting a bit opens the places up
to it; clearing one opens none. -/
def setBit (x : Integer) (i : Nat) (b : Bool) : Integer :=
  let place := i / Digits.width
  let bit : Digit := 1 <<< UInt32.ofNat (i % Digits.width)
  if b then
    let x := x.reserve (place + 1)
    { x with digits := x.digits.modify place (· ||| bit) }
  else { x with digits := x.digits.modify place (· &&& ~~~bit) }.normalizeSign

/-! ## Runs at the low end -/

/-- The zeros at the low end of a word of `fuel` bits. -/
def wordTrailingZeros : (fuel n : Nat) → Nat
  | 0, _ => 0
  | fuel + 1, n => if n % 2 = 1 then 0 else wordTrailingZeros fuel (n / 2) + 1

/-- The ones at the low end of a word of `fuel` bits. -/
def wordTrailingOnes : (fuel n : Nat) → Nat
  | 0, _ => 0
  | fuel + 1, n => if n % 2 = 0 then 0 else wordTrailingOnes fuel (n / 2) + 1

/-- The zero bits below the lowest one; none for zero. -/
def countTrailingZeros (x : Integer) : Nat :=
  go x.significant
where
  go : List Digit → Nat
    | [] => 0
    | d :: ds => if d = 0 then Digits.width + go ds else wordTrailingZeros Digits.width d.toNat

/-- The one bits below the lowest zero. -/
def countTrailingOnes (x : Integer) : Nat :=
  go x.significant
where
  go : List Digit → Nat
    | [] => 0
    | d :: ds =>
      let ones := wordTrailingOnes Digits.width d.toNat
      if ones < Digits.width then ones else ones + go ds

end Multiprecision.Integer
