import Multiprecision.Complex
import Multiprecision.Error

/-!
# Multiprecision.Complex.Sequence

Sequences of samples and their discrete Fourier transforms:

```
X(k)  =  Σⱼ x(j) · e^(-2πi·j·k/n)
```

The recursive transform keeps the natural order.  The other pair of
transforms takes the natural order to the bit-reversed one and back, which
is enough for a convolution.  All need a length that is a power of two, and
the inverses are scaled by `1/n`.
-/

namespace Multiprecision.Complex

/-- A sequence of samples. -/
abbrev Sequence := List Complex

namespace Sequence

/-- `n` zeros. -/
def zeros (n : Nat) : Sequence := List.replicate n zero

/-- The sequence cut off, or continued with zeros, at length `n`. -/
def padded (xs : Sequence) (n : Nat) : Sequence := xs.take n ++ zeros (n - xs.length)

/-- The sum; the shorter sequence is continued with zeros. -/
def add (xs ys : Sequence) : Sequence :=
  List.zipWith (· + ·) xs ys ++ xs.drop ys.length ++
    (ys.drop xs.length).map (zero + ·)

/-- The products entry by entry of two sequences of one length. -/
def pointwise (xs ys : Sequence) : Except Error Sequence :=
  if xs.length = ys.length then .ok (List.zipWith (· * ·) xs ys)
  else .error (.invalidArgument
    ("pointwise product of lengths " ++ Nat.repr xs.length ++ " and " ++ Nat.repr ys.length))

/-- The squares entry by entry. -/
def pointwiseSquare (xs : Sequence) : Sequence := xs.map fun z => z * z

/-! ## Transforms of `2^m` samples -/

/-- `e^(sign·2πi·j/span)`. -/
def twiddle (sign : Float) (j span : Nat) : Complex :=
  cis (sign * 2 * pi * Nat.toFloat j / Nat.toFloat span)

/-- The product of entry `j` and its twiddle, for every `j` from `start` on. -/
def twist (sign : Float) (span : Nat) : (start : Nat) → Sequence → Sequence
  | _, [] => []
  | j, z :: zs => z * twiddle sign j span :: twist sign span (j + 1) zs

/-- The entries at even places. -/
def evens : Sequence → Sequence
  | [] => []
  | [z] => [z]
  | z :: _ :: zs => z :: evens zs

/-- The transform in natural order, by even and odd places. -/
def natural (sign : Float) : (m : Nat) → Sequence → Sequence
  | 0, xs => xs
  | m + 1, xs =>
    let even := natural sign m (evens xs)
    let odd := twist sign (Nat.pow 2 (m + 1)) 0 (natural sign m (evens (xs.drop 1)))
    List.zipWith (· + ·) even odd ++ List.zipWith (· - ·) even odd

/-- The transform into bit-reversed order. -/
def forward : (m : Nat) → Sequence → Sequence
  | 0, xs => xs
  | m + 1, xs =>
    let low := xs.take (Nat.pow 2 m)
    let high := xs.drop (Nat.pow 2 m)
    forward m (List.zipWith (· + ·) low high) ++
      forward m (twist (-1) (Nat.pow 2 (m + 1)) 0 (List.zipWith (· - ·) low high))

/-- The inverse of `forward`, not yet scaled. -/
def backward : (m : Nat) → Sequence → Sequence
  | 0, xs => xs
  | m + 1, xs =>
    let low := backward m (xs.take (Nat.pow 2 m))
    let high := twist 1 (Nat.pow 2 (m + 1)) 0 (backward m (xs.drop (Nat.pow 2 m)))
    List.zipWith (· + ·) low high ++ List.zipWith (· - ·) low high

/-! ## Transforms of any sequence -/

/-- Divides every sample by the length. -/
def scaled (xs : Sequence) : Sequence :=
  let factor := 1 / Nat.toFloat xs.length
  xs.map (·.scale factor)

/-- Applies a transform of `2^m` samples to a sequence of that length. -/
def transform (f : Nat → Sequence → Sequence) (xs : Sequence) : Except Error Sequence :=
  let n := xs.length
  if n = Nat.pow 2 n.log2 then .ok (f n.log2 xs)
  else .error (.invalidArgument
    ("transform length " ++ Nat.repr n ++ " is not a power of two"))

/-- The transform in natural order. -/
def dft (xs : Sequence) : Except Error Sequence := xs.transform (natural (-1))

/-- The inverse of `dft`. -/
def inverseDft (xs : Sequence) : Except Error Sequence :=
  xs.transform fun m xs => scaled (natural 1 m xs)

/-- The transform into bit-reversed order. -/
def scramble (xs : Sequence) : Except Error Sequence := xs.transform forward

/-- The inverse of `scramble`. -/
def unscramble (xs : Sequence) : Except Error Sequence :=
  xs.transform fun m xs => scaled (backward m xs)

end Sequence

end Multiprecision.Complex
