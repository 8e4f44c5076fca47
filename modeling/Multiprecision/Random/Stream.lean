import Multiprecision.Random.Generator

/-!
# Multiprecision.Random.Stream

Bytes that are given, and behind them those of a generator.  The stream
counts the bytes that were taken from it.
-/

namespace Multiprecision.Random

/-- Bytes, and a generator of those behind them. -/
structure Stream where
  given : List UInt8 := []
  generator : Generator
  taken : Nat := 0
deriving DecidableEq, Repr, Inhabited

instance : ByteSource Stream where
  next s :=
    match s.given with
    | b :: rest => (b, { s with given := rest, taken := s.taken + 1 })
    | [] =>
      let (b, generator) := ByteSource.next s.generator
      (b, { s with generator, taken := s.taken + 1 })

end Multiprecision.Random
