import Multiprecision.Calibration.Failure
import Multiprecision.Calibration.Machine
import Multiprecision.Thresholds

/-!
# Multiprecision.Calibration.Profile

A profile holds the thresholds that were measured on a machine, and enough
about the machine to tell when they do not apply.  A profile is of use if
its format is the present one, its thresholds are in order, and it does not
come from another machine.
-/

namespace Multiprecision.Calibration

/-- Thresholds, and where and when they were measured. -/
structure Profile where
  version : Nat
  thresholds : Thresholds
  model : String
  cores : Nat
  fingerprint : String
  timestamp : String
deriving DecidableEq, Repr, Inhabited

namespace Profile

/-- The version of the present format. -/
def currentVersion : Nat := 1

/-- The profile of a machine on which nothing was measured. -/
def unmeasured (m : Machine) : Profile where
  version := currentVersion
  thresholds := .default
  model := ""
  cores := m.cores
  fingerprint := ""
  timestamp := ""

/-- The profile of thresholds measured on a machine, so many seconds into
the epoch. -/
def measured (m : Machine) (seconds : Nat) (t : Thresholds) : Profile where
  version := currentVersion
  thresholds := t.normalize
  model := m.model
  cores := m.cores
  fingerprint := m.fingerprint
  timestamp := "unix:" ++ toString seconds

/-- The format is the present one. -/
def isCompatible (p : Profile) : Bool := p.version = currentVersion

/-- The profile may come from a machine with the given fingerprint.  An
empty fingerprint rules nothing out. -/
def fits (p : Profile) (fingerprint : String) : Bool :=
  p.fingerprint.isEmpty || fingerprint.isEmpty || p.fingerprint = fingerprint

/-- The thresholds are in order. -/
def isValid (p : Profile) : Bool := p.thresholds.isValid

/-- The profile, if it is of use on a machine with the given fingerprint. -/
def validate (p : Profile) (fingerprint : String) : Except Failure Profile :=
  if !p.isCompatible then
    .error (.rejected ("format version " ++ toString p.version ++ " is not "
      ++ toString currentVersion))
  else if !p.isValid then .error (.rejected "thresholds are out of order")
  else if !p.fits fingerprint then .error (.rejected ("measured on " ++ p.fingerprint))
  else .ok p

end Profile

end Multiprecision.Calibration
