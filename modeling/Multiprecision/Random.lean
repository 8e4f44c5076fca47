import Multiprecision.Outcome
import Multiprecision.Digits.Shift
import Multiprecision.Integer.Decimal
import Multiprecision.Integer.Order

/-!
# Multiprecision.Random

Random numbers from a stream of random bytes.  Four bytes make a word, low
byte first, and a word makes a digit.  A number below a bound is drawn with
as many bits as the bound has, again and again until it is below: every
number below the bound is equally likely, and two draws are enough on
average.
-/

namespace Multiprecision

/-- A source of random bytes. -/
class ByteSource (σ : Type) where
  next : σ → UInt8 × σ

/-- A computation that draws random bytes. -/
abbrev Draw (σ α : Type) := StateT σ Outcome α

namespace Random

variable {σ : Type} [ByteSource σ]

/-- One byte of the stream. -/
def byte : Draw σ UInt8 := fun s => .value (ByteSource.next s)

/-- Four bytes of the stream as a word. -/
def word : Draw σ UInt32 := do
  let b0 ← byte
  let b1 ← byte
  let b2 ← byte
  let b3 ← byte
  return b0.toUInt32 ||| b1.toUInt32 <<< 8 ||| b2.toUInt32 <<< 16 ||| b3.toUInt32 <<< 24

/-- The next `n` words of the stream. -/
def words : (n : Nat) → Draw σ (List UInt32)
  | 0 => return []
  | n + 1 => do
    let w ← word
    return w :: (← words n)

/-- The number of `bits` bits that as many words as it has digits make. -/
def ofWords (bits : Nat) (ws : List UInt32) : Integer :=
  Integer.ofDigits (Digits.lowBits bits ws)

/-- A number of at most `n` bits. -/
def bits (n : Nat) : Draw σ Integer := do
  return ofWords n (← words (Digits.countFor n))

/-- The first number of at most `n` bits that `accept` takes. -/
def untilAccepted (n : Nat) (accept : Integer → Bool) : (attempts : Nat) → Draw σ Integer
  | 0 => fun _ => .exhausted
  | attempts + 1 => do
    let x ← bits n
    if accept x then return x else untilAccepted n accept attempts

/-- A number from zero up to, and without, the bound. -/
def below (attempts : Nat) (bound : Integer) : Draw σ Integer :=
  if bound.isPositive then untilAccepted bound.bitLength (·.below bound) attempts
  else fun _ => .failure (.invalidArgument
    ("random bound must be positive, got " ++ bound.toDecimal))

/-- Attempts that are more than enough for a stream that does not repeat. -/
def defaultAttempts : Nat := 100000

end Random

end Multiprecision
