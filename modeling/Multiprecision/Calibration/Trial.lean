import Multiprecision.Arithmetic
import Multiprecision.Calibration.Timing
import Multiprecision.Integer.Hexadecimal

/-!
# Multiprecision.Calibration.Trial

Timed runs of one product or one division.  The operands are numbers of
given lengths with a fixed pattern of bits, so that runs compare.
-/

namespace Multiprecision.Calibration.Trial

/-! ## Operands -/

/-- The repeated figures `AB` as a number of `n` bits: as many bytes as are
needed, with the surplus bits shifted out. -/
def pattern (n : Nat) : Integer :=
  let bytes := (n + 7) / 8
  let figures := (List.replicate bytes ['A', 'B']).flatten
  match Integer.ofHex (String.ofList figures) with
  | .ok x => x.shiftRight (8 * bytes - n)
  | .error _ => .zero

/-! ## Runs -/

variable {m : Type → Type} [Monad m]

/-- Calls that come before the timed ones. -/
def warmup : Nat := 2

/-- Timed calls. -/
def iterations : Nat := 7

/-- The figures of a computation. -/
def measure {α : Type} (now : m Nat) (name : String) (compute : Unit → Outcome α) :
    ExceptT Failure m Summary := do
  let action (_ : Unit) : ExceptT Failure m Unit :=
    ExceptT.mk (pure ((Failure.ofOutcome (compute ())).map fun _ => ()))
  let s ← Timing.measure (ExceptT.lift now) warmup iterations action
  return { s with name }

/-- A product of numbers of about `bits` bits by the given algorithm, whose
own products are left to the thresholds. -/
def product (t : Thresholds) (depth : Nat) (algorithm : Algorithm) (bits : Nat) :
    Outcome Integer :=
  Product.byAlgorithm t (fun f => Product.magnitudes t depth f .zero) algorithm
    (pattern bits) (pattern (max (bits - 3) 1)) .zero

/-- A quotient of a number of `bits` bits by one of half as many. -/
def quotient (t : Thresholds) (depth : Nat) (bits : Nat) : Outcome (Integer × Integer) :=
  Quotient.magnitudes t (fun f => Product.magnitudes t depth f .zero) depth
    (pattern bits) (pattern (max (bits / 2) 1)) .zero

/-- The figures of a product. -/
def measureProduct (now : m Nat) (t : Thresholds) (depth : Nat) (algorithm : Algorithm)
    (bits : Nat) : ExceptT Failure m Summary :=
  measure now (algorithm.name ++ "@" ++ toString bits) fun _ => product t depth algorithm bits

/-- The figures of a quotient. -/
def measureQuotient (now : m Nat) (t : Thresholds) (depth : Nat) (bits : Nat) :
    ExceptT Failure m Summary :=
  measure now ("divide@" ++ toString bits) fun _ => quotient t depth bits

end Multiprecision.Calibration.Trial
