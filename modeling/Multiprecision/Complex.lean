import Multiprecision.Text.Positional

/-!
# Multiprecision.Complex

Complex numbers with doubles as parts.  Sums and products round as the
formulas below say, term by term.
-/

namespace Multiprecision

/-- A complex number. -/
structure Complex where
  re : Float
  im : Float
deriving Inhabited, Repr

namespace Complex

def zero : Complex := ⟨0, 0⟩

def one : Complex := ⟨1, 0⟩

/-- The ratio of a circle to its diameter. -/
def pi : Float := 3.141592653589793

/-! ## Arithmetic -/

def add (z w : Complex) : Complex := ⟨z.re + w.re, z.im + w.im⟩

def sub (z w : Complex) : Complex := ⟨z.re - w.re, z.im - w.im⟩

def mul (z w : Complex) : Complex :=
  ⟨z.re * w.re - z.im * w.im, z.re * w.im + z.im * w.re⟩

/-- The product with a real number. -/
def scale (z : Complex) (s : Float) : Complex := ⟨z.re * s, z.im * s⟩

def neg (z : Complex) : Complex := ⟨-z.re, -z.im⟩

/-- The complex conjugate. -/
def conj (z : Complex) : Complex := ⟨z.re, -z.im⟩

instance : Add Complex := ⟨add⟩

instance : Sub Complex := ⟨sub⟩

instance : Mul Complex := ⟨mul⟩

instance : Neg Complex := ⟨neg⟩

/-- Both parts are equal as doubles: zeros of either sign are, and nothing is
equal to what is not a number. -/
def equals (z w : Complex) : Bool := z.re == w.re && z.im == w.im

/-- The root of `a² + b²` for `0 ≤ b ≤ a`, where the squares are well
represented.  The root `h` that the rounded squares give is corrected by one
step of Newton's method.  Its excess `h² - a² - b²` is taken from the
differences of `h`, `a` and `b`, where hardly anything is rounded. -/
def hypotenuse (a b : Float) : Float :=
  let h := Float.sqrt (a * a + b * b)
  let excess :=
    if h ≤ 2 * b then
      let d := h - b
      a * (2 * d - a) + (d - 2 * (a - b)) * d
    else
      let d := h - a
      2 * d * (a - 2 * b) + ((4 * d - b) * b + d * d)
  h - excess / (2 * h)

/-- The modulus.  A part that is too small to count is not squared, and parts
are scaled where their squares would not be represented well. -/
def abs (z : Complex) : Float :=
  let x := z.re.abs
  let y := z.im.abs
  let (large, small) := if x < y then (y, x) else (x, y)
  if x.isInf || y.isInf then 1 / 0
  else if small.scaleB 54 ≤ large then large + small
  else if Float.scaleB 1 511 < large then
    (hypotenuse (large.scaleB (-600)) (small.scaleB (-600))).scaleB 600
  else if small < Float.scaleB 1 (-459) then
    (hypotenuse (large.scaleB 600) (small.scaleB 600)).scaleB (-600)
  else hypotenuse large small

/-! ## Powers and roots of unity -/

/-- Multiplies `result` by `base` raised to `e`, by repeated squaring. -/
def powSteps (e : Nat) (base result : Complex) : Complex :=
  if e = 0 then result
  else powSteps (e / 2) (base * base) (if e % 2 = 1 then result * base else result)
termination_by e
decreasing_by omega

def pow (z : Complex) (e : Nat) : Complex := powSteps e z one

/-- The point of the unit circle at the angle `theta`. -/
def cis (theta : Float) : Complex := ⟨theta.cos, theta.sin⟩

/-- The first of the `n` roots of unity; a negative `n` gives its inverse. -/
def rootOfUnity (n : Int) : Complex := cis (2 * pi / Float.ofInt n)

/-! ## Text -/

/-- Both parts in shortest decimal form. -/
def display (z : Complex) : String :=
  if Binary.signBit z.im then
    Text.positional z.re ++ "-" ++ Text.positional (-z.im) ++ "i"
  else Text.positional z.re ++ "+" ++ Text.positional z.im ++ "i"

end Complex

end Multiprecision
