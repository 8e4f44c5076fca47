import Multiprecision.Complex.Samples
import Multiprecision.Digits.Regroup.Checked
import Multiprecision.Outcome

/-!
# Multiprecision.Complex.Samples.Checked

Integers as samples and back, in machine words.  Bits are regrouped through
an accumulator of 64 bits, samples are written one by one to a sequence of
zeros, and a carry with a sample has 128 bits.  A word that is too narrow, or
a sample that is not there, stops the program.
-/

namespace Multiprecision.Complex

/-- The low `width` bits of an accumulator. -/
def chunkOf (width : Nat) (acc : UInt64) : UInt32 :=
  (acc &&& ((1 <<< UInt64.ofNat width) - 1)).toUInt32

/-- Writes the chunks at the low end of the accumulators to the samples from
`i` on.  Zeros are not written: past the top bit there may be more of them
than samples. -/
def writeChunks? (width : Nat) : (i : Nat) → List UInt64 → Sequence → Option Sequence
  | _, [], zs => some zs
  | i, acc :: accs, zs =>
    if chunkOf width acc = 0 then writeChunks? width (i + 1) accs zs
    else if i < zs.length then
      writeChunks? width (i + 1) accs (zs.set i (ofChunk (chunkOf width acc)))
    else none

/-- The chunks of a magnitude as `len` samples. -/
def ofInteger? (x : Integer) (width len : Nat) : Outcome Sequence := do
  checkWidth width
  checkLength len (chunkCount x width)
  let items := x.significant.map (·.toUInt64)
  let accs ← .ofChecked (Digits.regroup? Digits.width width items 0 0)
  .ofChecked (writeChunks? width 0 accs (Sequence.zeros len))

/-- A carry with a sample, if it fits 128 bits. -/
def addCarry? (carry n : Nat) : Option Nat :=
  if carry + n < Nat.pow 2 128 then some (carry + n) else none

/-- Cuts numbers to chunks of `width` bits, with carries. -/
def carried? (width : Nat) : List Nat → (carry : Nat) → Option (List UInt64)
  | [], carry => some ((carryChunks width carry).map UInt64.ofNat)
  | n :: ns, carry => do
    let sum ← addCarry? carry n
    return UInt64.ofNat (sum % Nat.pow 2 width) :: (← carried? width ns (sum / Nat.pow 2 width))

/-- The sum of the rounded samples times `2^(i·width)`. -/
def toInteger? (xs : Sequence) (width : Nat) : Outcome Integer := do
  checkWidth width
  let ns ← roundSamples 0 xs
  let items ← .ofChecked (carried? width ns 0)
  let accs ← .ofChecked (Digits.regroup? width Digits.width items 0 0)
  return Integer.ofDigits (accs.map (·.toUInt32))

end Multiprecision.Complex
