import Multiprecision.Alternating
import Multiprecision.Registers

/-!
# Multiprecision.Workspace

Registers and pairs of alternating buffers together: a machine for programs
that use every operation on integers.  A pair starts from a register, takes
its operands from registers, and its current value can be taken into one.

Commands that fail are not the end of a program.  One that fails leaves the
registers as they were; a pair of buffers keeps its current value, and its
other buffers may have changed.
-/

namespace Multiprecision

/-- Registers and pairs of buffers. -/
structure Workspace where
  registers : Registers := []
  pairs : List Alternating := []
deriving DecidableEq, Repr, Inhabited

namespace Workspace

/-- Registers that hold zero, and no pair. -/
def fresh (n : Nat) : Workspace := { registers := List.replicate n .zero }

/-- Pair `i`; one that was never started holds zero everywhere. -/
def pair (w : Workspace) (i : Nat) : Alternating := w.pairs.getD i {}

/-- What a program consists of. -/
inductive Command where
  | calculate (i : Registers.Instruction)
  /-- Starts a pair from a register. -/
  | start (source : Nat)
  /-- Starts a pair from a copy of another. -/
  | copy (pair : Nat)
  /-- A step of a pair, with operands in registers. -/
  | step (pair : Nat) (s : Alternating.Step Nat)
  /-- Lets operations on the idle buffer write the next value of a pair.
  Their operands are the current value, as register 0, and the registers. -/
  | write (pair : Nat) (operations : List Registers.Operation)
  /-- Takes the current value of a pair into a register. -/
  | take (pair target : Nat)
deriving Repr

/-- Carries out operations on one integer in turn, up to the first that
fails.  Remainders are dropped. -/
def fill (t : Thresholds) (depth : Nat) (rs : Registers) :
    List Registers.Operation → (x : Integer) → Integer × Outcome Unit
  | [], x => (x, .value ())
  | operation :: operations, x =>
    match rs.effect t depth x operation with
    | .value (.value y _) => fill t depth rs operations y
    | .value (.quotient q _ _) => fill t depth rs operations q
    | .failure e => (x, .failure e)
    | .aborted => (x, .aborted)
    | .exhausted => (x, .exhausted)

/-- Puts a pair back with the outcome of what was done to it. -/
def putPair (w : Workspace) (i : Nat) (result : Alternating × Outcome Unit) :
    Workspace × Outcome Registers.Reading :=
  ({ w with pairs := w.pairs.set i result.1 }, (fun _ => .nothing) <$> result.2)

/-- Carries out one command. -/
def step (t : Thresholds) (depth : Nat) (w : Workspace) :
    Command → Workspace × Outcome Registers.Reading
  | .calculate i =>
    let (registers, reading) := w.registers.step t depth i
    ({ w with registers }, reading)
  | .start source =>
    ({ w with pairs := w.pairs ++ [.ofInteger (w.registers.get source)] }, .value .nothing)
  | .copy i => ({ w with pairs := w.pairs ++ [w.pair i] }, .value .nothing)
  | .step i s =>
    w.putPair i ((w.pair i).step (.ofThresholds t depth) (s.map w.registers.get))
  | .write i operations =>
    w.putPair i ((w.pair i).write fun current idle =>
      fill t depth (current :: w.registers) operations idle)
  | .take i target =>
    ({ w with registers := w.registers.put target (w.pair i).current }, .value .nothing)

/-- Carries out the commands in turn, each under its own thresholds, going on
after those that fail. -/
def run (depth : Nat) (w : Workspace) (program : List (Thresholds × Command)) : Workspace :=
  program.foldl (fun w (t, c) => (w.step t depth c).1) w

end Workspace

end Multiprecision
