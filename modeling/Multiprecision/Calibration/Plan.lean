import Multiprecision.Calibration.Crossover
import Multiprecision.Calibration.Profile
import Multiprecision.Calibration.Trial

/-!
# Multiprecision.Calibration.Plan

Measuring one threshold after another.  Thresholds that were measured
earlier are in force for later trials, so that products inside a product are
computed as they will be.

A plan runs over a judge that says whether the faster algorithm of a
boundary wins at a size; the judge with a clock times both.
-/

namespace Multiprecision.Calibration

/-- A boundary between two algorithms. -/
inductive Boundary where
  | toom2
  | toom3
  | transform64
  | transform128
  | newton
deriving DecidableEq, Repr, Inhabited

namespace Boundary

/-- The name of a boundary in reports of progress. -/
def label : Boundary → String
  | toom2 => "toom-2 crossover"
  | toom3 => "toom-3 crossover"
  | transform64 => "ssa-64 crossover"
  | transform128 => "ssa-128 crossover"
  | newton => "newton division crossover"

/-- Moves a boundary. -/
def set (b : Boundary) (bits : Nat) (t : Thresholds) : Thresholds :=
  match b with
  | toom2 => { t with toom2 := bits }
  | toom3 => { t with toom3 := bits }
  | transform64 => { t with transform64 := bits }
  | transform128 => { t with transform128 := bits }
  | newton => { t with newton := bits }

/-- The largest threshold there is: the algorithm is never used. -/
def never : Nat := Nat.pow 2 64 - 1

variable {m : Type → Type} [Monad m]

/-- The figures of the slow and of the fast algorithm at a size. -/
def measure (now : m Nat) (depth : Nat) (t : Thresholds) (b : Boundary) (bits : Nat) :
    ExceptT Failure m (Summary × Summary) :=
  let products (slow fast : Algorithm) : ExceptT Failure m (Summary × Summary) := do
    let s ← Trial.measureProduct now t depth slow bits
    let f ← Trial.measureProduct now t depth fast bits
    return (s, f)
  match b with
  | toom2 => products .gradeSchool .toom2
  | toom3 => products .toom2 .toom3
  | transform64 => products .toom3 (.schonhageStrassen 6)
  | transform128 => products (.schonhageStrassen 6) (.schonhageStrassen 7)
  | newton => do
    let s ← Trial.measureQuotient now { t with newton := never } depth bits
    let f ← Trial.measureQuotient now { t with newton := 0 } depth bits
    return (s, f)

end Boundary

/-- Says whether the fast algorithm of a boundary wins at a size. -/
abbrev Judge (m : Type → Type) := Thresholds → Boundary → (bits : Nat) → ExceptT Failure m Bool

/-- The judge that compares median times. -/
def Judge.ofClock {m : Type → Type} [Monad m] (now : m Nat) (depth : Nat) : Judge m :=
  fun t b bits => do
    let (slow, fast) ← b.measure now depth t bits
    return fast.median < slow.median

namespace Plan

/-- One boundary to measure. -/
structure Step where
  boundary : Boundary
  /-- The sizes of the ladder are powers of two between these two. -/
  fromLog : Nat
  toLog : Nat
  /-- Trials between two sizes of the ladder. -/
  rounds : Nat
deriving DecidableEq, Repr, Inhabited

/-- The ladder of a step. -/
def Step.ladder (s : Step) : List Nat :=
  (List.range (s.toLog + 1 - s.fromLog)).map fun i => Nat.pow 2 (s.fromLog + i)

/-- Every boundary, on long ladders. -/
def full : List Step :=
  [⟨.toom2, 8, 15, 4⟩, ⟨.toom3, 13, 18, 3⟩, ⟨.transform64, 17, 23, 2⟩,
    ⟨.transform128, 21, 25, 1⟩, ⟨.newton, 12, 21, 3⟩]

/-- The boundaries that short ladders reach. -/
def quick : List Step := [⟨.toom2, 8, 13, 2⟩, ⟨.toom3, 13, 16, 1⟩, ⟨.newton, 12, 16, 1⟩]

/-- How far a plan has come. -/
structure Progress where
  step : String
  /-- Counted from one. -/
  current : Nat
  total : Nat
deriving DecidableEq, Repr, Inhabited

variable {m : Type → Type} [Monad m]

/-- The thresholds after one step. -/
def Step.run (judge : Judge m) (s : Step) (t : Thresholds) : ExceptT Failure m Thresholds := do
  match ← Crossover.locate (judge t s.boundary) s.rounds s.ladder with
  | some bits => return (s.boundary.set bits t).normalize
  | none => return t.normalize

/-- The thresholds after the steps that are left, the first of them being
number `current` of `total`. -/
def runSteps (judge : Judge m) (report : Progress → m Unit) (total : Nat) :
    (current : Nat) → List Step → Thresholds → ExceptT Failure m Thresholds
  | _, [], t => return t
  | current, s :: rest, t => do
    report { step := s.boundary.label, current, total }
    runSteps judge report total (current + 1) rest (← s.run judge t)

/-- The thresholds that a plan finds.  The profile made of them counts as a
last step. -/
def run (judge : Judge m) (report : Progress → m Unit) (plan : List Step) :
    ExceptT Failure m Thresholds := do
  let total := plan.length + 1
  let t ← runSteps judge report total 1 plan .default
  report { step := "building profile", current := total, total }
  return t

end Plan

end Multiprecision.Calibration
