import Multiprecision.Alternating

/-!
# Multiprecision.Alternating.Action

Runs of two buffers that take turns, in which any function may fill the idle
buffer.  An action that fails is not the end of a run.

The same actions make sense for integers alone, where there are no buffers:
`Action.value` says what an action makes of an integer, and an action that
fails makes nothing of it.
-/

namespace Multiprecision.Alternating

/-- Fills the idle buffer, given the current value and what the buffer holds.
The buffer is filled even if the outcome is a failure. -/
abbrev Writer : Type := (current idle : Integer) → Integer × Outcome Unit

/-- A use of a pair of buffers, with operands in `α` and writers in `ω`. -/
inductive Action (α ω : Type) where
  | mul (y : α)
  | square
  | rem (m : α)
  | reserveBits (bits : Nat)
  | reserveBitsAfter (writes bits : Nat)
  /-- Goes on with a copy of both buffers. -/
  | copy
  | write (f : ω)

/-! ## Buffers -/

/-- Carries out one action. -/
def act (A : Arithmetic) (p : Alternating) : Action Integer Writer → Alternating × Outcome Unit
  | .mul y => p.mul A y
  | .square => p.square A
  | .rem m => p.rem A m
  | .reserveBits bits => (p.reserveBits bits, .value ())
  | .reserveBitsAfter writes bits => (p.reserveBitsAfter writes bits, .value ())
  | .copy => (p, .value ())
  | .write f => p.write f

/-- The result of an action that returns: the current value or an error. -/
def returned : Alternating × Outcome Unit → Outcome (Alternating × Except Error Integer)
  | (p, .value ()) => .value (p, .ok p.current)
  | (p, .failure e) => .value (p, .error e)
  | (_, .aborted) => .aborted
  | (_, .exhausted) => .exhausted

/-- Carries out actions in turn, each under its own thresholds, and collects
their results. -/
def follow (depth : Nat) : List (Thresholds × Action Integer Writer) → Alternating →
    Outcome (Alternating × List (Except Error Integer))
  | [], p => .value (p, [])
  | (t, a) :: rest, p => do
    let (p, result) ← returned (p.act (.ofThresholds t depth) a)
    let (p, results) ← follow depth rest p
    return (p, result :: results)

/-- A step is an action, with the writer that it stands for. -/
def Step.action : Step Integer → Action Integer Writer
  | .mul y => .mul y
  | .square => .square
  | .rem m => .rem m
  | .reserveBits bits => .reserveBits bits
  | .reserveBitsAfter writes bits => .reserveBitsAfter writes bits
  | .writeSum y => .write fun x _ => (x.compact.add y, .value ())
  | .accumulate => .write fun x idle => (idle.add x, .value ())
  | .fail y => .write fun _ _ => (y.compact, .failure .notInvertible)
  | .copy => .copy

/-- The action of a step does what the step does. -/
theorem act_action (A : Arithmetic) (p : Alternating) (s : Step Integer) :
    p.act A s.action = p.step A s := by
  cases s <;> rfl

/-! ## Integers -/

namespace Action

/-- What an action makes of an integer. -/
def value (i : Int) : Action Int (Int → Except Error Int) → Except Error Int
  | .mul j => .ok (i * j)
  | .square => .ok (i * i)
  | .rem j => if j = 0 then .error .divideByZero else .ok (i % j)
  | .reserveBits _ | .reserveBitsAfter _ _ | .copy => .ok i
  | .write g => g i

/-- The integer after an action, which stays if the action fails. -/
def next (i : Int) (a : Action Int (Int → Except Error Int)) : Int :=
  match a.value i with
  | .ok j => j
  | .error _ => i

/-- What actions make of an integer one after the other. -/
def values : List (Action Int (Int → Except Error Int)) → Int → List (Except Error Int)
  | [], _ => []
  | a :: as, i => a.value i :: values as (next i a)

end Action

end Multiprecision.Alternating
