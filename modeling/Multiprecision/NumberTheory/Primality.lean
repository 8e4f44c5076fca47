import Multiprecision.NumberTheory.Power
import Multiprecision.Integer.Machine
import Multiprecision.Random
import Multiprecision.Text.Positional

/-!
# Multiprecision.NumberTheory.Primality

Tests for primes.  A small number is divided by the odd numbers up to its
root.  A larger one is put to the test of Miller and Rabin with random
witnesses; a composite passes one round with a chance of at most a quarter,
so the rounds go on until the chance of passing all is below the one allowed.
-/

namespace Multiprecision.NumberTheory

/-! ## Small numbers -/

/-- Numbers of up to this many bits are settled by trial division. -/
def trialDivisionBits : Nat := 20

/-- No odd number from `p` on divides `n`, up to its root. -/
def noDivisorFrom (n p : Nat) : Bool :=
  if p * p ≤ n then
    if n % p = 0 then false else noDivisorFrom n (p + 2)
  else true
termination_by n + 1 - p
decreasing_by have := Nat.le_mul_self p; omega

/-! ## Rounds -/

/-- Rounds until the chance `bound`, multiplied by four each time, is no
longer below one.  The smallest double gets there in fewer than `fuel`. -/
def roundsFor : (fuel : Nat) → (bound : Float) → Nat
  | 0, _ => 0
  | fuel + 1, bound => if bound < 1 then roundsFor fuel (bound * 4) + 1 else 0

/-- More rounds than any positive double asks for. -/
def mostRounds : Nat := 1100

/-- One of the next `n` squares of `x` is `-1` modulo `m`, before any is 1. -/
def reachesMinusOne (A : Arithmetic) (m minusOne : Integer) :
    (n : Nat) → Alternating → Outcome Bool
  | 0, _ => .value false
  | n + 1, x => do
    let x ← Alternating.orFail (x.square A)
    let x ← Alternating.orFail (x.rem A m)
    if x.current.equals minusOne then return true
    if x.current.isOne then return false
    reachesMinusOne A m minusOne n x

/-- The witness `w` does not show that `m` is composite.  `m - 1` is
`odd · 2^twos`. -/
def passes (A : Arithmetic) (m minusOne odd : Integer) (twos : Nat) (w : Integer) :
    Outcome Bool := do
  let x ← powerMod A w odd m
  if x.isOne || x.equals minusOne then return true
  reachesMinusOne A m minusOne (twos - 1) (.ofInteger x)

variable {σ : Type} [ByteSource σ]

/-- A witness: a number below `m` other than zero. -/
def witness (attempts : Nat) (m : Integer) : (draws : Nat) → Draw σ Integer
  | 0 => fun _ => .exhausted
  | draws + 1 => do
    let w ← Random.below attempts m
    if w.isZero then witness attempts m draws else return w

/-- No witness of `n` rounds shows that `m` is composite. -/
def millerRabin (A : Arithmetic) (attempts : Nat) (m : Integer) : (n : Nat) → Draw σ Bool
  | 0 => return true
  | n + 1 => do
    let minusOne := m.sub 1
    let twos := minusOne.countTrailingZeros
    let w ← witness attempts m attempts
    if ← passes A m minusOne (minusOne.shiftRight twos) twos w then
      millerRabin A attempts m n
    else return false

/-! ## The test -/

/-- The chance of error where no other is given. -/
def defaultProbability : Float := 1e-6

/-- Whether `n` is a prime, with a chance of at most `probability` that a
composite is taken for one. -/
def isPrime (A : Arithmetic) (attempts : Nat) (n : Integer) (probability : Float) :
    Draw σ Bool := do
  if !n.isPositive then
    throw (.invalidArgument ("primality is defined for positive integers, got " ++ n.toDecimal))
  if probability.isNaN || probability ≤ 0 then
    throw (.invalidArgument
      ("false-positive probability must be positive, got " ++ Text.positional probability))
  if n.isOne then return false
  if n.isEven then return n.equals 2
  if n.bitLength ≤ trialDivisionBits then
    match n.toUInt64 with
    | .ok word => return noDivisorFrom word.toNat 3
    | .error e => throw e
  millerRabin A attempts n (roundsFor mostRounds probability)

end Multiprecision.NumberTheory
