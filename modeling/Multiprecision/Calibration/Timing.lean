import Multiprecision.Calibration.Failure

/-!
# Multiprecision.Calibration.Timing

Timing an action by calling it several times.  Some calls go before the
timed ones and are not timed.  Where an action may fail, its first failure
ends the run.

A run is given by the clock and the action, in any monad; the action comes
with an argument so that its work is done when it is called and not before.
-/

namespace Multiprecision.Calibration

/-- The figures of a run, in nanoseconds. -/
structure Summary where
  name : String := ""
  mean : Nat
  median : Nat
  least : Nat
  greatest : Nat
  iterations : Nat
deriving DecidableEq, Repr, Inhabited

namespace Summary

/-- The middle one of ascending times, or the mean of the two middle ones. -/
def medianOf (sorted : List Nat) : Nat :=
  let mid := sorted.length / 2
  if sorted.length % 2 = 1 then sorted.getD mid 0
  else (sorted.getD (mid - 1) 0 + sorted.getD mid 0) / 2

/-- The figures of single times. -/
def ofTimes (times : List Nat) : Summary :=
  let sorted := times.mergeSort fun a b => decide (a ≤ b)
  { mean := sorted.foldl (· + ·) 0 / sorted.length
    median := medianOf sorted
    least := sorted.headD 0
    greatest := sorted.getLastD 0
    iterations := sorted.length }

end Summary

namespace Timing

variable {m : Type → Type} [Monad m]

/-- Calls an action `n` times. -/
def call (action : Unit → m Unit) : (n : Nat) → m Unit
  | 0 => return
  | n + 1 => do
    action ()
    call action n

/-- The times of `n` calls. -/
def times (now : m Nat) (action : Unit → m Unit) : (n : Nat) → m (List Nat)
  | 0 => return []
  | n + 1 => do
    let start ← now
    action ()
    let finish ← now
    return (finish - start) :: (← times now action n)

/-- The mean time of a call, from calls timed together. -/
def mean (now : m Nat) (iterations : Nat) (action : Unit → m Unit) : m Nat := do
  call action 1
  let iterations := max iterations 1
  let start ← now
  call action iterations
  let finish ← now
  return (finish - start) / iterations

/-- The figures of calls timed one by one. -/
def measure (now : m Nat) (warmup iterations : Nat) (action : Unit → m Unit) : m Summary := do
  call action warmup
  return .ofTimes (← times now action (max iterations 1))

end Timing

end Multiprecision.Calibration
