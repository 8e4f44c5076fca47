import Multiprecision.Outcome

/-!
# Multiprecision.Calibration.Crossover

The size from which a fast algorithm beats a slow one.  Trials at a ladder
of sizes show where the fast one wins first; more trials between that size
and the one below it narrow the interval.  A trial is an action in any
monad, and says whether the fast algorithm won.
-/

namespace Multiprecision.Calibration.Crossover

/-- What a trial at a size showed. -/
structure Point where
  bits : Nat
  won : Bool
deriving DecidableEq, Repr, Inhabited

/-- The first size at which the fast algorithm won, with the size before it,
if there is one. -/
def firstWinAfter (before : Option Nat) : List Point → Option (Option Nat × Nat)
  | [] => none
  | p :: rest => if p.won then some (before, p.bits) else firstWinAfter (some p.bits) rest

/-- The first size at which the fast algorithm won. -/
def firstWin (points : List Point) : Option Nat := (firstWinAfter none points).map (·.2)

variable {m : Type → Type} [Monad m]

/-- The width of an interval that is not halved any more: one digit. -/
def leastWidth : Nat := 30

/-- Halves the interval from `low` up to `high` as long as it is wide, at
most `rounds` times.  The fast algorithm loses at `low` and wins at `high`;
the answer is the last `high`. -/
def refine (wins : (bits : Nat) → m Bool) : (rounds low high : Nat) → m Nat
  | 0, _, high => return high
  | rounds + 1, low, high =>
    if high ≤ low + leastWidth then return high
    else do
      let mid := low + (high - low) / 2
      if ← wins mid then refine wins rounds low mid else refine wins rounds mid high

/-- The size from which the fast algorithm wins.  A ladder on which it never
does gives none; one on which it always does gives its first size. -/
def locate (wins : (bits : Nat) → m Bool) (rounds : Nat) (ladder : List Nat) :
    m (Option Nat) := do
  let points ← ladder.mapM fun bits => return { bits, won := ← wins bits }
  match firstWinAfter none points with
  | none => return none
  | some (none, bits) => return some bits
  | some (some low, high) => some <$> refine wins rounds low high

end Multiprecision.Calibration.Crossover
