import Multiprecision.Integer.Shift
import Multiprecision.Integer.Window
import Multiprecision.Integer.Word
import Multiprecision.Product.Factors

/-!
# Multiprecision.Product.ToomCook

Toom–Cook products and squares.  The operands are cut into chunks of `z`
digits, which are the coefficients of two polynomials:

```
left = p(B^z),   right = q(B^z),   with B = 2^30
```

The polynomials are evaluated at a few of the points 0, 1, -1, -2 and ∞,
the values are multiplied by the multiplier that is given, and the
coefficients of `p·q` are found from the products by sums, halvings and a
division by three, all of them exact.  The last chunk takes the digits that
are left, so it may be wider than the others or empty.

The operand with more digits is the left one.
-/

namespace Multiprecision.ToomCook

/-! ## Chunks -/

/-- Chunk `i` of `z` digits. -/
def chunk (x : Integer) (z i : Nat) : Integer := x.digitWindow (i * z) ((i + 1) * z - 1)

/-- The digits from chunk `i` on. -/
def lastChunk (x : Integer) (z i : Nat) : Integer := x.digitWindow (i * z) x.digitCount

/-- The value at `B^z` of the polynomial with the given coefficients, lowest
first, written into `into`. -/
def recombine (into : Integer) (coefficients : List Integer) (z : Nat) : Integer :=
  (coefficients.foldr (fun c sum => (sum.shiftLeftDigits z).add c) into.cleared).abs

/-! ## Exact division -/

/-- Half of an even value. -/
def exactHalf (x : Integer) : Except Error Integer :=
  if x.isEven then .ok (x.shiftRight 1)
  else .error (.invariantViolation "Toom interpolation halved an odd value")

/-- A third of a multiple of three. -/
def exactThird (x : Integer) : Except Error Integer := do
  let (q, r) ← x.divWord 3
  if r = 0 then return q
  else throw (.invariantViolation "Toom interpolation divided a non-multiple of three")

/-! ## Two points and three points -/

/-- Toom-1.5: the right operand multiplies both halves of the left one. -/
def mul15 (multiply : Multiplier) (left right into : Integer) : Outcome Integer := do
  let z := max (left.digitCount / 2) right.digitCount
  if z = 0 || left.digitCount ≤ z then return ← Integer.mulGradeSchool left right into
  let q := right.abs
  let low ← multiply.signed (.pair (chunk left z 0) q)
  let high ← multiply.signed (.pair (lastChunk left z 1) q)
  return recombine into [low, high] z

/-- The coefficients of a product of linear polynomials from its values at
0, 1 and ∞. -/
def interpolate2 (r0 r1 rInf : Integer) : List Integer := [r0, (r1.sub r0).sub rInf, rInf]

/-- Toom-2, also known as Karatsuba's method. -/
def mul2 (multiply : Multiplier) (left right into : Integer) : Outcome Integer := do
  let z := max (left.digitCount / 2) (right.digitCount / 2)
  if z = 0 then return ← Integer.mulGradeSchool left right into
  let p0 := chunk left z 0
  let p1 := lastChunk left z 1
  let q0 := chunk right z 0
  let q1 := lastChunk right z 1
  let r0 ← multiply.signed (.pair p0 q0)
  let rInf ← multiply.signed (.pair p1 q1)
  let r1 ← multiply.signed (.pair (p0.add p1) (q0.add q1))
  return recombine into (interpolate2 r0 r1 rInf) z

/-- The square by Toom-2. -/
def square2 (multiply : Multiplier) (x into : Integer) : Outcome Integer := do
  let z := x.digitCount / 2
  if z = 0 then return ← Integer.squareGradeSchool x into
  let p0 := chunk x z 0
  let p1 := lastChunk x z 1
  let r0 ← multiply (.twice p0)
  let rInf ← multiply (.twice p1)
  let r1 ← multiply (.twice (p0.add p1))
  return recombine into (interpolate2 r0 r1 rInf) z

/-! ## Four points -/

/-- Toom-2.5: points 0, 1, -1 and ∞. -/
def mul25 (multiply : Multiplier) (left right into : Integer) : Outcome Integer := do
  let z := max (left.digitCount / 3) (right.digitCount / 2)
  if z = 0 then return ← Integer.mulGradeSchool left right into
  let p0 := chunk left z 0
  let p1 := chunk left z 1
  let p2 := lastChunk left z 2
  let q0 := chunk right z 0
  let q1 := lastChunk right z 1
  let r0 ← multiply.signed (.pair p0 q0)
  let rInf ← multiply.signed (.pair p2 q1)
  let p02 := p0.add p2
  let rPos1 ← multiply.signed (.pair (p02.add p1) (q0.add q1))
  let rNeg1 ← multiply.signed (.pair (p02.sub p1) (q0.sub q1))
  let odd ← exactHalf (rPos1.sub rNeg1)
  return recombine into [r0, odd.sub rInf, (odd.add rNeg1).sub r0, rInf] z

/-! ## Five points -/

/-- The values of a polynomial at 1, -1 and -2, from its coefficients:
`p(-2) = 2·(p(-1) + p2) - p0`. -/
def evaluate3 (p0 p1 p2 : Integer) : Integer × Integer × Integer :=
  let p02 := p0.add p2
  let neg1 := p02.sub p1
  (p02.add p1, neg1, ((neg1.add p2).shiftLeft 1).sub p0)

/-- The coefficients of a product of quadratic polynomials from its values
at 0, 1, -1, -2 and ∞. -/
def interpolate3 (r0 rPos1 rNeg1 rNeg2 rInf : Integer) : Except Error (List Integer) := do
  let third ← exactThird (rNeg2.sub rPos1)
  let odd ← exactHalf (rPos1.sub rNeg1)
  let even := rNeg1.sub r0
  let half ← exactHalf (third.subFrom even)
  let r3 := half.add (rInf.shiftLeft 1)
  let r2 := (even.add odd).sub rInf
  return [r0, odd.sub r3, r2, r3, rInf]

/-- Toom-3. -/
def mul3 (multiply : Multiplier) (left right into : Integer) : Outcome Integer := do
  let z := max (left.digitCount / 3) (right.digitCount / 3)
  if z = 0 then return ← Integer.mulGradeSchool left right into
  let p0 := chunk left z 0
  let p2 := lastChunk left z 2
  let q0 := chunk right z 0
  let q2 := lastChunk right z 2
  let r0 ← multiply.signed (.pair p0 q0)
  let rInf ← multiply.signed (.pair p2 q2)
  let (pPos1, pNeg1, pNeg2) := evaluate3 p0 (chunk left z 1) p2
  let (qPos1, qNeg1, qNeg2) := evaluate3 q0 (chunk right z 1) q2
  let rPos1 ← multiply.signed (.pair pPos1 qPos1)
  let rNeg1 ← multiply.signed (.pair pNeg1 qNeg1)
  let rNeg2 ← multiply.signed (.pair pNeg2 qNeg2)
  let coefficients ← interpolate3 r0 rPos1 rNeg1 rNeg2 rInf
  return recombine into coefficients z

/-- The square by Toom-3. -/
def square3 (multiply : Multiplier) (x into : Integer) : Outcome Integer := do
  let z := x.digitCount / 3
  if z = 0 then return ← Integer.squareGradeSchool x into
  let p0 := chunk x z 0
  let p2 := lastChunk x z 2
  let r0 ← multiply (.twice p0)
  let rInf ← multiply (.twice p2)
  let (pPos1, pNeg1, pNeg2) := evaluate3 p0 (chunk x z 1) p2
  let rPos1 ← multiply (.twice pPos1)
  let rNeg1 ← multiply (.twice pNeg1)
  let rNeg2 ← multiply (.twice pNeg2)
  let coefficients ← interpolate3 r0 rPos1 rNeg1 rNeg2 rInf
  return recombine into coefficients z

end Multiprecision.ToomCook
