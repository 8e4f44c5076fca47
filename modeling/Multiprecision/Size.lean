/-!
# Multiprecision.Size

Numbers of bits and of digits, and places, in a double word.  A sum that does
not fit it, or a difference below zero, is none.
-/

namespace Multiprecision.Size

/-- A sum, if it fits a double word. -/
def add? (a b : Nat) : Option Nat := if a + b < Nat.pow 2 64 then some (a + b) else none

/-- A difference, if it is not below zero. -/
def sub? (a b : Nat) : Option Nat := if b ≤ a then some (a - b) else none

end Multiprecision.Size
