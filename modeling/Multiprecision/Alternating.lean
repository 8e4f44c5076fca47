import Multiprecision.Arithmetic

/-!
# Multiprecision.Alternating

Two buffers that take turns.  A product cannot be written over an operand
that is still read, so every step writes into the idle buffer and makes it
the current one.  The storage of both is used again and again.

A step that fails does not change turns, so the current value stays, and
whatever the step left in the idle buffer is overwritten later.
-/

namespace Multiprecision

/-- A current integer, an idle buffer, and a buffer for quotients. -/
structure Alternating where
  first : Integer := .zero
  second : Integer := .zero
  /-- The second buffer is the current one. -/
  swapped : Bool := false
  scratch : Integer := .zero
deriving DecidableEq, Repr, Inhabited

namespace Alternating

/-- Starts from a value. -/
def ofInteger (x : Integer) : Alternating := { first := x }

/-- The current value. -/
def current (p : Alternating) : Integer := if p.swapped then p.second else p.first

/-- What the idle buffer holds. -/
def idle (p : Alternating) : Integer := if p.swapped then p.first else p.second

def setIdle (p : Alternating) (x : Integer) : Alternating :=
  if p.swapped then { p with first := x } else { p with second := x }

/-- Makes the idle buffer the current one. -/
def swap (p : Alternating) : Alternating := { p with swapped := !p.swapped }

/-- The buffer whose turn it is, when a pair is taken apart. -/
def toInteger (p : Alternating) : Integer := if !p.swapped then p.first else p.second

/-! ## Steps -/

/-- Lets `f` fill the idle buffer, given the current value and what the
buffer holds; if that succeeds, the buffers change turns. -/
def write (p : Alternating) (f : (current idle : Integer) → Integer × Outcome Unit) :
    Alternating × Outcome Unit :=
  let (x, status) := f p.current p.idle
  let p := p.setIdle x
  match status with
  | .value () => (p.swap, .value ())
  | status => (p, status)

/-- The result of a step that leaves the idle buffer alone unless it succeeds. -/
def written (idle : Integer) : Outcome Integer → Integer × Outcome Unit
  | .value x => (x, .value ())
  | .failure e => (idle, .failure e)
  | .aborted => (idle, .aborted)
  | .exhausted => (idle, .exhausted)

/-- Multiplies the current value by `y`. -/
def mul (A : Arithmetic) (p : Alternating) (y : Integer) : Alternating × Outcome Unit :=
  p.write fun x idle => written idle (A.mul (.pair x y) idle)

/-- Squares the current value. -/
def square (A : Arithmetic) (p : Alternating) : Alternating × Outcome Unit :=
  p.write fun x idle => written idle (A.mul (.twice x) idle)

/-- Replaces the current value by its remainder modulo `m`. -/
def rem (A : Arithmetic) (p : Alternating) (m : Integer) : Alternating × Outcome Unit :=
  let p := { p with scratch := p.current.compact }
  match A.divide p.scratch m p.idle with
  | .value (q, r) => (({ p with scratch := q }.setIdle r).swap, .value ())
  | .failure e => (p, .failure e)
  | .aborted => (p, .aborted)
  | .exhausted => (p, .exhausted)

/-! ## Storage -/

/-- Opens places for `bits` bits everywhere. -/
def reserveBits (p : Alternating) (bits : Nat) : Alternating :=
  { p with
    first := p.first.reserveBits bits
    second := p.second.reserveBits bits
    scratch := p.scratch.reserveBits bits }

/-- Opens places for `bits` bits in the buffer that is current after `writes`
more steps. -/
def reserveBitsAfter (p : Alternating) (writes bits : Nat) : Alternating :=
  if p.swapped != (writes % 2 == 1) then { p with second := p.second.reserveBits bits }
  else { p with first := p.first.reserveBits bits }

/-! ## Runs -/

/-- A step that ends a computation if it fails. -/
def orFail : Alternating × Outcome Unit → Outcome Alternating
  | (p, .value ()) => .value p
  | (_, .failure e) => .failure e
  | (_, .aborted) => .aborted
  | (_, .exhausted) => .exhausted

/-- One step of a run, with operands that are integers or stand for them. -/
inductive Step (α : Type) where
  | mul (y : α)
  | square
  | rem (m : α)
  | reserveBits (bits : Nat)
  | reserveBitsAfter (writes bits : Nat)
  /-- Writes the sum of the current value and `y`. -/
  | writeSum (y : α)
  /-- Adds the current value to what the idle buffer holds. -/
  | accumulate
  /-- Puts `y` into the idle buffer and fails. -/
  | fail (y : α)
  /-- Goes on with a copy of both buffers. -/
  | copy
deriving Repr

/-- The step with its operand read. -/
def Step.map {α β : Type} (read : α → β) : Step α → Step β
  | .mul y => .mul (read y)
  | .square => .square
  | .rem m => .rem (read m)
  | .reserveBits bits => .reserveBits bits
  | .reserveBitsAfter writes bits => .reserveBitsAfter writes bits
  | .writeSum y => .writeSum (read y)
  | .accumulate => .accumulate
  | .fail y => .fail (read y)
  | .copy => .copy

/-- Carries out one step. -/
def step (A : Arithmetic) (p : Alternating) : Step Integer → Alternating × Outcome Unit
  | .mul y => p.mul A y
  | .square => p.square A
  | .rem m => p.rem A m
  | .reserveBits bits => (p.reserveBits bits, .value ())
  | .reserveBitsAfter writes bits => (p.reserveBitsAfter writes bits, .value ())
  | .writeSum y => p.write fun x _ => (x.compact.add y, .value ())
  | .accumulate => p.write fun x idle => (idle.add x, .value ())
  | .fail y => p.write fun _ _ => (y.compact, .failure .notInvertible)
  | .copy => (p, .value ())

/-- Carries out the steps in turn, going on after those that fail. -/
def run (A : Arithmetic) (p : Alternating) (steps : List (Step Integer)) : Alternating :=
  steps.foldl (fun p s => (p.step A s).1) p

end Alternating

end Multiprecision
