import Multiprecision.Fermat.Convolution
import Multiprecision.Fermat.Transform
import Multiprecision.Thresholds

/-!
# Multiprecision.Fermat.Product

Products modulo `2^e + 1` by transforms, and the Schönhage–Strassen product.

The operands are split into `2^k` parts of `M` bits, the coefficients of
two polynomials.  Modulo `X^(2^k) + 1` with `X = 2^M` a product of the
polynomials is a product modulo `2^(2^k·M) + 1`.  It is computed in an inner
ring `2^i + 1` that holds every coefficient: the parts are weighted by
powers of `2^(i/2^k)`, a root of `-1`, transformed, multiplied entry by
entry, and transformed back.  The products of the entries are products in
the inner ring, which is smaller, or else they are computed as plain
products and reduced.

A product of two integers is a product modulo a `2^e + 1` that is larger.
-/

namespace Multiprecision.Fermat

/-- The least multiple of `step` from `n` on. -/
def roundUp (n step : Nat) : Nat := (n + step - 1) / step * step

/-- The exponent of the inner ring for `2^k` parts of a ring of exponent `e`. -/
def innerExponent (e k : Nat) : Nat := roundUp (2 * (e / Nat.pow 2 k) + k) (Nat.pow 2 k)

/-! ## Convolution in the inner ring -/

/-- The `parts` windows of `size` bits from the low end. -/
def split (parts size : Nat) (x : Integer) : List Integer :=
  (List.range parts).map fun j => x.bitWindow (j * size) ((j + 1) * size - 1)

/-- Weights part `j` by `2^(step·j)` and transforms with the root that
belongs to the weights. -/
def weightedForward (inner step : Nat) (parts : List Integer) : Except Error (List Integer) :=
  scramble inner (twist inner (-step) 0 parts) (2 * step)

/-- Takes off the weight of entry `j` and the factor `2^k` of the transforms.
A coefficient that is not below `(j + 1)·2^(2·size)` stands for a negative one. -/
def coefficient (inner step k size j : Nat) (x : Integer) : Integer :=
  let c := shiftRight inner x (k + j * step : Nat)
  let bound := (Integer.ofNat (j + 1)).shiftLeft (2 * size)
  if c.below bound then c else c.sub (modulus inner)

/-- The coefficients of entries `j` and later. -/
def coefficients (inner step k size : Nat) : (j : Nat) → List Integer → List Integer
  | _, [] => []
  | j, x :: xs => coefficient inner step k size j x :: coefficients inner step k size (j + 1) xs

/-- The value of a polynomial at `2^size` modulo `2^e + 1`. -/
def evaluate (e size : Nat) (cs : List Integer) : Integer :=
  let step := fun c sum =>
    lower (modulus e) 4 (raise (modulus e) 4 ((shiftLeft e sum size).add c))
  (cs.foldr step (Integer.zeros (e + 1))).trim

/-- The first coefficient that differs from the one expected. -/
def disagreement? : (j : Nat) → List Integer → List Integer → Option Nat
  | j, c :: cs, d :: ds => if c.equals d then disagreement? (j + 1) cs ds else some j
  | _, [], _ => none
  | _, _ :: _, [] => none

/-- What the coefficients are compared with: the direct convolution, up to the
exponent `check`. -/
def expectedCoefficients (check e : Nat) (xs ys : List Integer) :
    Outcome (Option (List Integer)) :=
  if e ≤ check then some <$> negacyclic xs ys else .value none

/-- The product modulo `2^e + 1` through a convolution of `2^k` parts, whose
transformed entries are multiplied by `pointwise`. -/
def convolve (pointwise : Multiplier) (check e k : Nat) (f : Factors) : Outcome Integer := do
  let parts := Nat.pow 2 k
  if e % parts ≠ 0 then
    throw (.invariantViolation
      ("exponent " ++ Nat.repr e ++ " is not a multiple of " ++ Nat.repr parts))
  let size := e / parts
  let inner := innerExponent e k
  if e < inner then
    throw (.invariantViolation
      ("inner ring 2^" ++ Nat.repr inner ++ "+1 is larger than outer ring 2^" ++ Nat.repr e
        ++ "+1"))
  let step := inner / parts
  let (xs, ys) := match f with
    | .pair x y => (split parts size x, split parts size y)
    | .twice x => let xs := split parts size x; (xs, xs)
  let expected ← expectedCoefficients check e xs ys
  let transformed ← weightedForward inner step xs
  let entries ← match f with
    | .pair _ _ => do
      let other ← weightedForward inner step ys
      pure (List.zipWith Factors.pair transformed other)
    | .twice _ => pure (transformed.map Factors.twice)
  let products ← entries.mapM pointwise
  let cs := coefficients inner step k size 0 (← unscramble inner products (-(2 * step : Nat)))
  if let some j := expected.bind (disagreement? 0 cs) then
    throw (.invariantViolation
      ("negacyclic coefficient " ++ Nat.repr j ++ " disagrees with direct convolution"))
  return evaluate e size cs

/-! ## Products of residues -/

/-- The product modulo `2^e + 1` by a plain product. -/
def reducedProduct (multiply : Multiplier) (e : Nat) (f : Factors) : Outcome Integer := do
  return reduce e (← multiply f)

/-- The bits of the longer factor. -/
def longest : Factors → Nat
  | .pair x y => max x.bitLength y.bitLength
  | .twice x => x.bitLength

/-- A product with a factor `-1`. -/
def minusOneProduct? (e : Nat) : Factors → Option Integer
  | .pair x y =>
    if isMinusOne e x then some (neg e y)
    else if isMinusOne e y then some (neg e x)
    else none
  | .twice x => if isMinusOne e x then some 1 else none

/-- The product of residues modulo `2^e + 1` with `2^k` parts.  It is a plain
product if the factors are short, the exponent does not split into equal
parts, or the inner ring would not be smaller. -/
def product (t : Thresholds) (multiply : Multiplier) (k e : Nat) (f : Factors) :
    Outcome Integer :=
  match minusOneProduct? e f with
  | some r => .value r
  | none =>
    if longest f < t.fermat then reducedProduct multiply e f
    else if _ : innerExponent e k < e ∧ e % Nat.pow 2 k = 0 then
      convolve (fun g => product t multiply k (innerExponent e k) g) t.check e k f
    else reducedProduct multiply e f
termination_by e
decreasing_by exact (‹_ ∧ _› : _ ∧ _).1

/-! ## Products of integers -/

/-- The exponent of a ring with `2^k` parts that holds the product. -/
def outerExponent (k : Nat) (f : Factors) : Nat :=
  let bits := match f with
    | .pair x y => x.bitLength + y.bitLength
    | .twice x => 2 * x.bitLength
  roundUp (bits + 1) (Nat.pow 2 k)

/-- The product of magnitudes with `2^k` parts. -/
def schonhageStrassen (t : Thresholds) (multiply : Multiplier) (k : Nat) (f : Factors) :
    Outcome Integer :=
  if 2 ≤ k && k < 63 then
    let e := outerExponent k f
    convolve (product t multiply k (innerExponent e k)) t.check e k f
  else
    .failure (.invalidArgument
      ("schonhage-strassen needs at least 4 parts, got 2^" ++ Nat.repr k))

end Multiprecision.Fermat
