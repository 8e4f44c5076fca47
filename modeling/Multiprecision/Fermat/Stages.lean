import Multiprecision.Fermat.Transform

/-!
# Multiprecision.Fermat.Stages

Transforms that change a signal in place, one stage after another.  A stage
sees the signal as blocks of `2·half` entries.  It replaces any two entries of
a block that are `half` places apart by a butterfly of the two:

```
block:   x(0) … x(half - 1)   x(half) … x(2·half - 1)
          └─ place 0 ──────────┘
```

The forward transform starts with one block, and the blocks of the last stage
have two entries; the stages of the backward transform go the other way.
-/

namespace Multiprecision.Fermat

/-! ## Butterflies -/

/-- What becomes of two entries, for the shift of their place. -/
abbrev Butterfly := (shift : Int) → (low high : Integer) → Integer × Integer

/-- The sum, and the shifted difference. -/
def forwardButterfly (e : Nat) : Butterfly := fun shift low high =>
  let low := canonical e low
  let high := canonical e high
  (add e low high, shiftRight e (sub e low high) shift)

/-- The sum and the difference, once the second entry is shifted. -/
def backwardButterfly (e : Nat) : Butterfly := fun shift low high =>
  let low := canonical e low
  let high := canonical e (shiftRight e high shift)
  (add e low high, sub e low high)

/-- The shift of place `j` in the blocks of a signal of `n` entries. -/
def twiddle (root : Int) (n half j : Nat) : Int := root * (j * (n / (2 * half)) : Nat)

/-! ## Stages -/

/-- Replaces entries `i` and `i + half`. -/
def combine (butterfly : Integer → Integer → Integer × Integer) (half i : Nat)
    (signal : List Integer) : List Integer :=
  let entries := butterfly (signal.getD i .zero) (signal.getD (i + half) .zero)
  (signal.set i entries.1).set (i + half) entries.2

/-- Replaces, for one place after the other, the entries there in all blocks. -/
def stage (butterfly : Butterfly) (root : Int) (half : Nat) (signal : List Integer) :
    List Integer :=
  let n := signal.length
  (List.range half).foldl (fun signal j =>
    (List.range' j (n / (2 * half)) (2 * half)).foldl (fun signal i =>
      combine (butterfly (twiddle root n half j)) half i signal) signal) signal

/-- The stages with blocks of `2^m` entries and less. -/
def forwardStages (e : Nat) : (m : Nat) → (root : Int) → List Integer → List Integer
  | 0, _, signal => signal
  | m + 1, root, signal =>
    forwardStages e m root (stage (forwardButterfly e) root (Nat.pow 2 m) signal)

/-- The stages with blocks of up to `2^m` entries. -/
def backwardStages (e : Nat) : (m : Nat) → (root : Int) → List Integer → List Integer
  | 0, _, signal => signal
  | m + 1, root, signal =>
    stage (backwardButterfly e) root (Nat.pow 2 m) (backwardStages e m root signal)

/-! ## Signals of any length -/

/-- Puts the transform of a signal in its place.  A signal that has none is left
alone. -/
def inPlace (transform : Nat → Int → List Integer → List Integer) (signal : List Integer)
    (root : Int) : List Integer × Except Error Unit :=
  match onSignal transform signal root with
  | .ok transformed => (transformed, .ok ())
  | .error reason => (signal, .error reason)

/-- The forward transform of a signal in place, into bit-reversed order. -/
def scrambleInPlace (e : Nat) (signal : List Integer) (root : Int) :
    List Integer × Except Error Unit :=
  inPlace (forwardStages e) signal root

/-- The backward transform of a signal in place, from bit-reversed order. -/
def unscrambleInPlace (e : Nat) (signal : List Integer) (root : Int) :
    List Integer × Except Error Unit :=
  inPlace (backwardStages e) signal root

end Multiprecision.Fermat
