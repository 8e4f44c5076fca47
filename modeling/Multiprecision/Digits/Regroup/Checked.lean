import Multiprecision.Digits.Regroup

/-!
# Multiprecision.Digits.Regroup.Checked

Regrouping through a double word, the *accumulator*.  An item is joined to it
above the bits that wait, and as long as it holds a full group, the group is
put out and shifted away.  A group is the low end of the whole accumulator
that is put out for it; who takes it cuts the rest off.

Where a bit of an item would be shifted out of the accumulator, there is no
result.
-/

namespace Multiprecision.Digits

/-- The accumulator with an item above its `held` bits, if it has the room. -/
def join? (acc : UInt64) (held : Nat) (x : UInt64) : Option UInt64 :=
  if held < 64 && x.toNat * Nat.pow 2 held < Nat.pow 2 64 then
    some (acc ||| x <<< UInt64.ofNat held)
  else none

/-- The accumulators that are put out as long as there is a full group, the
accumulator that is left, and the bits that it holds. -/
def drain (target : Nat) (acc : UInt64) (held : Nat) : List UInt64 × UInt64 × Nat :=
  if target = 0 ∨ held < target then ([], acc, held)
  else
    let rest := drain target (acc >>> UInt64.ofNat target) (held - target)
    (acc :: rest.1, rest.2)
termination_by held
decreasing_by omega

/-- Cuts items of `source` bits into groups of `target` bits, with `held` bits
in the accumulator. -/
def regroup? (source target : Nat) : List UInt64 → (acc : UInt64) → (held : Nat) →
    Option (List UInt64)
  | [], acc, held => some (if held = 0 then [] else [acc])
  | x :: xs, acc, held => do
    let acc ← join? acc held x
    let drained := drain target acc (held + source)
    return drained.1 ++ (← regroup? source target xs drained.2.1 drained.2.2)

end Multiprecision.Digits
