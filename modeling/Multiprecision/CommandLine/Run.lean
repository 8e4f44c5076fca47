import Multiprecision.Calibration.Plan
import Multiprecision.Calibration.Store
import Multiprecision.CommandLine.Text

/-!
# Multiprecision.CommandLine.Run

Running a command.  Whatever a command needs of the world around it is an
action of its host, so a command runs on files in memory as it does on real
ones, and draws from bytes given in advance as it does from the system's.
-/

namespace Multiprecision.CommandLine

open Calibration Multiprecision.Random

/-- What a command needs of the world around it, with random bytes from a `σ`. -/
structure Host (m : Type → Type) (σ : Type) where
  files : Files m
  places : Places
  machine : Machine
  /-- Seconds into the epoch. -/
  seconds : m Nat
  judge : Judge m
  /-- Tells the user what is not part of the output. -/
  notice : String → m Unit
  source : m σ

/-- How a command ended: what it printed, and how it failed, if it did. -/
structure Ending where
  output : String := ""
  failure : Option (String × Nat) := none
deriving DecidableEq, Repr, Inhabited

namespace Ending

/-- The exit status. -/
def exitStatus (e : Ending) : Nat :=
  match e.failure with
  | some (_, status) => status
  | none => 0

/-- The end of a computation that printed `o`. -/
def ofOutput (c : Computation) : Outcome String → Ending
  | .value text => { output := text }
  | .failure e => { failure := some (c.message e, e.exitStatus) }
  | .aborted | .exhausted => { failure := some ("the computation did not finish", 1) }

/-- The end of a calibration that failed after it printed `output`. -/
def ofFailure (output : String) (f : Failure) : Ending :=
  { output, failure := some (f.message, f.exitStatus) }

/-- The end of a run that was given no command. -/
def noCommand : Ending :=
  { failure := some ("no command given; run `mparith --help` for the list", 1) }

end Ending

/-- How thresholds are printed after a calibration. -/
def thresholdsText (t : Thresholds) : String :=
  let line (label : String) (bits : Nat) : String :=
    "  " ++ label ++ toString bits ++ " bits\n"
  "Calibration complete:\n"
    ++ line "toom-2 threshold:          " t.toom2
    ++ line "toom-3 threshold:          " t.toom3
    ++ line "ssa-64 threshold:          " t.transform64
    ++ line "ssa-128 threshold:         " t.transform128
    ++ line "fermat recursion threshold: " t.fermat
    ++ line "newton division threshold: " t.newton

namespace Settings

variable {m : Type → Type} [Monad m] {σ : Type}

/-- The thresholds that the overrides apply to. -/
def baseThresholds (s : Settings) (host : Host m σ) : m Thresholds := do
  if s.profile then
    match ← Store.loadValid host.files host.places host.machine.fingerprint with
    | some p => return p.thresholds
    | none => return .default
  else return .default

/-- Runs a computation under the thresholds in force. -/
def compute [ByteSource σ] (s : Settings) (host : Host m σ) (depth : Nat) (c : Computation) :
    m Ending := do
  let t := s.overrides.apply (← s.baseThresholds host)
  return .ofOutput c (c.output (.ofThresholds t depth) s.hex (← host.source))

/-- Measures the thresholds, prints them, and saves them as the profile. -/
def calibrate (s : Settings) (host : Host m σ) (full dryRun : Bool) : m Ending := do
  let notice (text : String) : m Unit := if s.quiet then pure () else host.notice text
  let report (p : Plan.Progress) : m Unit :=
    notice ("[" ++ toString p.current ++ "/" ++ toString p.total ++ "] " ++ p.step)
  match ← (Plan.run host.judge report (if full then Plan.full else Plan.quick)).run with
  | .error f => return .ofFailure "" f
  | .ok t =>
    let p := Profile.measured host.machine (← host.seconds) t
    let output := thresholdsText p.thresholds
    if dryRun then return { output }
    else
      match ← (Store.save host.files host.places p).run with
      | .error f => return .ofFailure output f
      | .ok path =>
        notice ("Saved calibration profile to " ++ path)
        return { output }

/-- Runs what a command line asks for. -/
def run [ByteSource σ] (s : Settings) (host : Host m σ) (depth : Nat) : m Ending :=
  match s.completion, s.command with
  | some shell, _ => return { output := completionText shell }
  | none, none => return .noCommand
  | none, some (.compute c) => s.compute host depth c
  | none, some (.calibrate full dryRun) => s.calibrate host full dryRun

end Settings

end Multiprecision.CommandLine
