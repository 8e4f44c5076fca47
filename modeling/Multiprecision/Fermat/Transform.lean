import Multiprecision.Error
import Multiprecision.Fermat

/-!
# Multiprecision.Fermat.Transform

Discrete Fourier transforms modulo `2^e + 1` with a power of two as root of
unity, so that no product is computed.  The forward transform takes the
natural order to the bit-reversed one, the backward transform goes the
other way:

```
forward:   X(reversed k)  =  Σⱼ x(j) · 2^(-r·j·k)
```

A signal of `2^m` residues is split in halves, and a transform of either
half uses twice the exponent `r` of the root.
-/

namespace Multiprecision.Fermat

/-- The product of entry `j` and `2^(-root·j)`, for every `j` from `start` on. -/
def twist (e : Nat) (root : Int) : (start : Nat) → List Integer → List Integer
  | _, [] => []
  | j, x :: xs => shiftRight e x (root * j) :: twist e root (j + 1) xs

/-- The forward transform of `2^m` residues with the root `2^(-root)`. -/
def forward (e : Nat) : (m : Nat) → (root : Int) → List Integer → List Integer
  | 0, _, xs => xs
  | m + 1, root, xs =>
    let xs := xs.map (canonical e)
    let low := xs.take (Nat.pow 2 m)
    let high := xs.drop (Nat.pow 2 m)
    forward e m (2 * root) (List.zipWith (add e) low high) ++
      forward e m (2 * root) (twist e root 0 (List.zipWith (sub e) low high))

/-- The backward transform of `2^m` residues with the root `2^(-root)`. -/
def backward (e : Nat) : (m : Nat) → (root : Int) → List Integer → List Integer
  | 0, _, xs => xs
  | m + 1, root, xs =>
    let low := (backward e m (2 * root) (xs.take (Nat.pow 2 m))).map (canonical e)
    let high := (twist e root 0 (backward e m (2 * root) (xs.drop (Nat.pow 2 m)))).map (canonical e)
    List.zipWith (add e) low high ++ List.zipWith (sub e) low high

/-! ## Signals of any length -/

/-- The exponent of a power of two. -/
def log2? (n : Nat) : Option Nat := if n = Nat.pow 2 n.log2 then some n.log2 else none

/-- Applies a transform of `2^m` residues to a signal of that length. -/
def onSignal (transform : Nat → Int → List Integer → List Integer) (signal : List Integer)
    (root : Int) : Except Error (List Integer) :=
  match log2? signal.length with
  | some m => .ok (transform m root signal)
  | none => .error (.invalidArgument
      ("transform length " ++ Nat.repr signal.length ++ " is not a power of two"))

/-- The forward transform of a signal into bit-reversed order. -/
def scramble (e : Nat) (signal : List Integer) (root : Int) : Except Error (List Integer) :=
  onSignal (forward e) signal root

/-- The backward transform of a signal from bit-reversed order.  With `-root`
it undoes `scramble` up to a factor of the length. -/
def unscramble (e : Nat) (signal : List Integer) (root : Int) : Except Error (List Integer) :=
  onSignal (backward e) signal root

end Multiprecision.Fermat
