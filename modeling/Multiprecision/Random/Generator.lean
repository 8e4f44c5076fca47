import Multiprecision.Random

/-!
# Multiprecision.Random.Generator

A linear congruential generator on words of 64 bits.  A byte is the top one
of the next word; the low bits of such a generator have short periods.
-/

namespace Multiprecision.Random

/-- A generator, by its last word. -/
structure Generator where
  word : UInt64
deriving DecidableEq, Repr, Inhabited

namespace Generator

/-- The generator after one more word. -/
def next (g : Generator) : Generator :=
  ⟨g.word * 6364136223846793005 + 1442695040888963407⟩

/-- The byte of the last word. -/
def byte (g : Generator) : UInt8 := (g.word >>> 56).toUInt8

instance : ByteSource Generator where
  next g := (g.next.byte, g.next)

end Generator

end Multiprecision.Random
