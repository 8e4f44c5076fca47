import Multiprecision.Calibration.Profile
import Multiprecision.Thresholds.Json

/-!
# Multiprecision.Calibration.Profile.Json

Profiles as records of JSON.
-/

namespace Multiprecision.Calibration.Profile

/-- The names of the fields, in order. -/
def fieldNames : List String :=
  ["version", "thresholds", "cpu_model", "num_cores", "cpu_fingerprint", "timestamp"]

/-- The record of a profile. -/
def toJson (p : Profile) : Json :=
  .ofMembers (fieldNames.zip
    [.natural p.version, p.thresholds.toJson, .text p.model, .natural p.cores,
      .text p.fingerprint, .text p.timestamp])

/-- The profile that a record holds. -/
def ofJson? (v : Json) : Option Profile := do
  let fields ← v.fields? fieldNames
  return {
    version := ← fields "version" >>= Json.below? (Nat.pow 2 32)
    thresholds := ← fields "thresholds" >>= Thresholds.ofJson?
    model := ← fields "cpu_model" >>= Json.text?
    cores := ← fields "num_cores" >>= Json.below? (Nat.pow 2 64)
    fingerprint := ← fields "cpu_fingerprint" >>= Json.text?
    timestamp := ← fields "timestamp" >>= Json.text? }

/-- The text of a profile's file. -/
def toText (p : Profile) : String := p.toJson.pretty

/-- The profile that a text stands for. -/
def ofText (s : String) : Except Failure Profile :=
  match Json.read? s >>= ofJson? with
  | some p => .ok p
  | none => .error .format

end Multiprecision.Calibration.Profile
