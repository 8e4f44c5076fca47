import Multiprecision.Integer
import Multiprecision.Digits.Shift

/-!
# Multiprecision.Integer.Window

Windows of a magnitude, as non-negative integers.  A window counts from the
low end and includes both of its ends; past the significant digits there is
nothing to take, so a window may end anywhere.
-/

namespace Multiprecision.Integer

/-- The digits in the places `lo` to `hi`. -/
def digitWindow (x : Integer) (lo hi : Nat) : Integer :=
  let ds := x.significant
  if hi < lo || ds.length ≤ lo then zero
  else ⟨false, (ds.drop lo).take (hi + 1 - lo)⟩

/-- The bits `lo` to `hi`. -/
def bitWindow (x : Integer) (lo hi : Nat) : Integer :=
  let ds := x.significant
  let available := ds.length * Digits.width
  if hi < lo || available ≤ lo then zero
  else
    let bits := min hi (available - 1) + 1 - lo
    let above := ds.drop (lo / Digits.width)
    ⟨false, Digits.lowBits bits (Digits.shiftDown (UInt32.ofNat (lo % Digits.width)) above)⟩

end Multiprecision.Integer
