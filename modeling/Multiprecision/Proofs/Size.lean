import Mathlib
import Multiprecision.Size

/-!
# Multiprecision.Proofs.Size

Sizes that fit a double word are added and subtracted as numbers are.
-/

namespace Multiprecision.Size

/-- A sum that fits a word is formed. -/
theorem add?_eq {a b : Nat} (h : a + b < 2 ^ 64) : add? a b = some (a + b) := if_pos h

theorem sub?_eq {a b : Nat} (h : b ≤ a) : sub? a b = some (a - b) := if_pos h

end Multiprecision.Size
