import Multiprecision.Calibration.Crossover
import Multiprecision.Size

/-!
# Multiprecision.Calibration.Crossover.Checked

The search between two sizes, in double words.  Where an end of the interval
and the least width together do not fit one, the program stops without a
result.
-/

namespace Multiprecision.Calibration.Crossover

variable {m : Type → Type} [Monad m]

/-- The middle of an interval, rounded down. -/
def middle? (low high : Nat) : Option Nat := do
  let width ← Size.sub? high low
  Size.add? low (width / 2)

/-- Halves the interval from `low` up to `high` as long as it is wide, at most
`rounds` times. -/
def refine? (wins : (bits : Nat) → m Bool) : (rounds low high : Nat) → m (Option Nat)
  | 0, _, high => return some high
  | rounds + 1, low, high =>
    match Size.add? low leastWidth with
    | none => return none
    | some least =>
      if high ≤ least then return some high
      else
        match middle? low high with
        | none => return none
        | some mid => do
          if ← wins mid then refine? wins rounds low mid else refine? wins rounds mid high

end Multiprecision.Calibration.Crossover
