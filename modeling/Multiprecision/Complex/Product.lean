import Multiprecision.Complex.Samples
import Multiprecision.Product.Factors

/-!
# Multiprecision.Complex.Product

Products of integers by transforms of doubles.  A term of the convolution
has to stay well inside the bits of a double's significand, or rounding
could miss it; factors that are too long for that are refused.
-/

namespace Multiprecision.Complex

/-- The bits of a chunk. -/
def chunkBits : Nat := 10

/-- The bits of a significand that a term may use, with its rounding error. -/
def safeBits : Nat := 50

/-- The least power of two from `n` on. -/
def nextPowerOfTwo (n : Nat) : Nat := if n = Nat.pow 2 n.log2 then n else Nat.pow 2 (n.log2 + 1)

/-- The bits of the largest term of a convolution of `m` and `n` chunks in
`len` samples. -/
def termBits (m n len : Nat) : Nat := 2 * chunkBits + (min m n).log2 + 1 + len.log2

/-- The convolution of the chunks of both factors in `len` samples. -/
def convolve (f : Factors) (len : Nat) : Except Error Sequence := do
  let left := match f with
    | .pair x _ => x
    | .twice x => x
  let xs ← (← ofInteger left chunkBits len).scramble
  let products ← match f with
    | .pair _ y => do xs.pointwise (← (← ofInteger y chunkBits len).scramble)
    | .twice _ => pure xs.pointwiseSquare
  products.unscramble

/-- The signed product. -/
def product (f : Factors) : Except Error Integer := do
  let (x, y) := match f with
    | .pair x y => (x, y)
    | .twice x => (x, x)
  if x.isZero || y.isZero then return .zero
  let m := chunkCount x chunkBits
  let n := chunkCount y chunkBits
  let len := nextPowerOfTwo (m + n)
  if safeBits < termBits m n len then
    throw (.invalidArgument
      ("operands of " ++ Nat.repr x.bitLength ++ " and " ++ Nat.repr y.bitLength
        ++ " bits exceed the double-precision FFT range"))
  let product ← toInteger (← convolve f len) chunkBits
  return { product with negative := f.negative }.normalizeSign

end Multiprecision.Complex
