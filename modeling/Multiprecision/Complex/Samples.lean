import Multiprecision.Complex.Sequence
import Multiprecision.Digits.Regroup
import Multiprecision.Integer

/-!
# Multiprecision.Complex.Samples

Integers as sequences of samples, and back.  A magnitude is cut into chunks
of a few bits, one for the real part of each sample.  Samples that were
convolved hold more bits than a chunk: they are rounded, and what does not
fit a chunk is carried to the next.
-/

namespace Multiprecision.Complex

/-- Chunks have from one bit to as many as a digit. -/
def checkWidth (width : Nat) : Except Error Unit :=
  if 1 ≤ width && width ≤ Digits.width then .ok ()
  else .error (.invalidArgument
    ("chunk width " ++ Nat.repr width ++ " is outside 1..=" ++ Nat.repr Digits.width))

/-! ## From integers to samples -/

/-- The number of chunks of `width` bits in a magnitude. -/
def chunkCount (x : Integer) (width : Nat) : Nat := (x.bitLength + width - 1) / width

/-- The chunks of a magnitude, low ones first. -/
def chunks (x : Integer) (width : Nat) : List Nat :=
  Digits.regroup Digits.width width (x.significant.map (·.toNat)) 0 0

/-- The length is a power of two, with room for `count` chunks. -/
def checkLength (len count : Nat) : Except Error Unit :=
  if len ≠ Nat.pow 2 len.log2 || len < count then
    .error (.invalidArgument
      ("sequence length " ++ Nat.repr len ++ " cannot hold " ++ Nat.repr count ++ " chunks"))
  else .ok ()

/-- A chunk as a sample. -/
def ofChunk (chunk : UInt32) : Complex := ⟨chunk.toFloat, 0⟩

/-- The chunks of a magnitude as `len` samples. -/
def ofInteger (x : Integer) (width len : Nat) : Except Error Sequence := do
  checkWidth width
  checkLength len (chunkCount x width)
  -- Chunks past the top bit are zero, and there may be more of them than room.
  let samples := (chunks x width).take len |>.map fun c => ofChunk (UInt32.ofNat c)
  return Sequence.padded samples len

/-! ## From samples to integers -/

/-- Samples from here on, from `2^100`, are refused. -/
def sampleLimit : Float :=
  let root := ((1 : UInt32) <<< 25).toFloat
  root * root * (root * root)

/-- The number that sample `i` rounds to. -/
def roundSample (i : Nat) (z : Complex) : Except Error Nat :=
  let r := Binary.round z.re
  if r.isFinite && 0 ≤ r && r < sampleLimit then .ok (Binary.ofFloat r).toNat
  else .error (.invariantViolation
    ("sample " ++ Nat.repr i ++ " rounds to " ++ Text.positional r
      ++ ", outside the convolution range"))

/-- The numbers that the samples from `i` on round to. -/
def roundSamples : (i : Nat) → Sequence → Except Error (List Nat)
  | _, [] => .ok []
  | i, z :: zs => do
    let n ← roundSample i z
    return n :: (← roundSamples (i + 1) zs)

/-- A carry in chunks of `width` bits. -/
def carryChunks (width carry : Nat) : List Nat :=
  if _ : carry = 0 ∨ width = 0 then []
  else carry % Nat.pow 2 width :: carryChunks width (carry / Nat.pow 2 width)
termination_by carry
decreasing_by exact Nat.div_lt_self (by omega) (Nat.one_lt_two_pow (by omega))

/-- Cuts numbers to chunks of `width` bits, with carries. -/
def carried (width : Nat) : List Nat → (carry : Nat) → List Nat
  | [], carry => carryChunks width carry
  | n :: ns, carry =>
    let sum := carry + n
    sum % Nat.pow 2 width :: carried width ns (sum / Nat.pow 2 width)

/-- The sum of the rounded samples times `2^(i·width)`. -/
def toInteger (xs : Sequence) (width : Nat) : Except Error Integer := do
  checkWidth width
  let ns ← roundSamples 0 xs
  let digits := Digits.regroup width Digits.width (carried width ns 0) 0 0
  return ⟨false, digits.map UInt32.ofNat⟩

end Multiprecision.Complex
