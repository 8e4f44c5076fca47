import Multiprecision.Digits

/-!
# Multiprecision.Digits.Regroup

Regrouping a stream of bits.  Items of `from` bits each, low bits first, are
cut anew into groups of `to` bits: digits into hexadecimal figures, figures
into digits, digits into samples of a transform.  The value of the stream
stays: groups below the last are full, and the last takes what is left.
-/

namespace Multiprecision.Digits

/-- The lowest `n` groups of `size` bits of `bits`. -/
def groups (size : Nat) : (n bits : Nat) → List Nat
  | 0, _ => []
  | n + 1, bits => bits % Nat.pow 2 size :: groups size n (bits / Nat.pow 2 size)

/-- Cuts items of `source` bits into groups of `target` bits; `held` bits of
value `bits` wait for more. -/
def regroup (source target : Nat) : List Nat → (bits held : Nat) → List Nat
  | [], bits, held => if held = 0 then [] else [bits]
  | x :: xs, bits, held =>
    let bits := bits ||| x <<< held
    let held := held + source
    let n := held / target
    groups target n bits ++ regroup source target xs (bits >>> (n * target)) (held - n * target)

end Multiprecision.Digits
