import Multiprecision.Integer.Bits
import Multiprecision.Integer.Shift
import Multiprecision.Integer.Sum
import Multiprecision.Integer.Window

/-!
# Multiprecision.Fermat

Arithmetic modulo `2^e + 1`.  Since `2^e ≡ -1`, a power of two has order
`2e`, and a product by one is a shift whose overflow is taken off again.
Residues are the numbers from 0 to `2^e`, so `-1` is `2^e`.
-/

namespace Multiprecision.Fermat

/-- `2^e + 1`. -/
def modulus (e : Nat) : Integer := ((Integer.zeros (e + 1)).setBit e true).setBit 0 true

/-! ## Powers of two -/

/-- `x · 2^s` modulo `2^e + 1`, for a residue `x`.  A negative `s` divides. -/
def shiftLeft (e : Nat) (x : Integer) (s : Int) : Integer :=
  let folded := (s % (2 * e : Nat)).toNat
  let bits := folded % e
  let low := (x.bitWindow 0 (e - bits - 1)).shiftLeft bits
  let shifted := low.sub (x.bitWindow (e - bits) e)
  let shifted := if folded / e = 1 then shifted.neg else shifted
  if shifted.isNegative then shifted.add (modulus e) else shifted

/-- `x / 2^s` modulo `2^e + 1`, for a residue `x`. -/
def shiftRight (e : Nat) (x : Integer) (s : Int) : Integer := shiftLeft e x (-s)

/-! ## Reduction -/

/-- Adds `m` to a negative `x`, at most `n` times. -/
def raise (m : Integer) : (n : Nat) → Integer → Integer
  | 0, x => x
  | n + 1, x => if x.isNegative then raise m n (x.add m) else x

/-- Takes `m` off an `x` that is not below it, at most `n` times. -/
def lower (m : Integer) : (n : Nat) → Integer → Integer
  | 0, x => x
  | n + 1, x => if x.below m then x else lower m n (x.sub m)

/-- The sum of the `n` windows of `e` bits from bit `start` on, the first
taken with the sign `subtract` says and the others with alternating signs. -/
def alternatingSum (e : Nat) (x : Integer) : (n start : Nat) → (subtract : Bool) → Integer → Integer
  | 0, _, _, sum => sum
  | n + 1, start, subtract, sum =>
    let window := x.bitWindow start (start + e - 1)
    let sum := if subtract then sum.sub window else sum.add window
    alternatingSum e x n (start + e) (!subtract) sum

/-- `x` modulo `2^e + 1`, for any `x` that is not negative.  The windows of
`e` bits count with alternating signs, since `2^e ≡ -1`. -/
def reduce (e : Nat) (x : Integer) : Integer :=
  let m := modulus e
  if x.below m then x.abs
  else
    let windows := (x.bitLength + e - 1) / e
    lower m windows (raise m windows (alternatingSum e x windows 0 false .zero))

/-! ## Sums of residues -/

/-- The residue 0 for the modulus itself. -/
def canonical (e : Nat) (x : Integer) : Integer :=
  if x.compareMagnitude (modulus e) == .eq then .zero else x

/-- `x + y` modulo `2^e + 1`. -/
def add (e : Nat) (x y : Integer) : Integer :=
  let sum := x.add y
  if sum.below (modulus e) then sum else sum.sub (modulus e)

/-- `x - y` modulo `2^e + 1`. -/
def sub (e : Nat) (x y : Integer) : Integer :=
  let difference := x.sub y
  if difference.isNegative then difference.add (modulus e) else difference

/-- `-x` modulo `2^e + 1`. -/
def neg (e : Nat) (x : Integer) : Integer :=
  let difference := (modulus e).sub x
  if difference.compareMagnitude (modulus e) == .eq then difference.cleared else difference

/-- The residue is `2^e`, the only one with more than `e` bits. -/
def isMinusOne (e : Nat) (x : Integer) : Bool := x.bitLength == e + 1

end Multiprecision.Fermat
