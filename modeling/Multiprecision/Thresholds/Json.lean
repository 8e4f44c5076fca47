import Multiprecision.Json.Record
import Multiprecision.Thresholds

/-!
# Multiprecision.Thresholds.Json

Thresholds as a record of JSON.  Records written before there were
thresholds for Fermat rings and for checks lack those two, and get the
defaults.
-/

namespace Multiprecision.Thresholds

/-- The names of the fields, in order. -/
def fieldNames : List String :=
  ["toom2_min_bits", "toom3_min_bits", "ssa6_min_bits", "ssa7_min_bits",
    "ssa_mod_fermat_min_bits", "newton_division_min_bits", "negacyclic_check_max_bits"]

/-- The record of thresholds. -/
def toJson (t : Thresholds) : Json :=
  .ofMembers (fieldNames.zip
    ([t.toom2, t.toom3, t.transform64, t.transform128, t.fermat, t.newton, t.check].map
      Json.natural))

/-- Thresholds are words of 64 bits. -/
def bits? : Json → Option Nat := Json.below? (Nat.pow 2 64)

/-- The thresholds that a record holds. -/
def ofJson? (v : Json) : Option Thresholds := do
  let fields ← v.fields? fieldNames
  return {
    toom2 := ← fields "toom2_min_bits" >>= bits?
    toom3 := ← fields "toom3_min_bits" >>= bits?
    transform64 := ← fields "ssa6_min_bits" >>= bits?
    transform128 := ← fields "ssa7_min_bits" >>= bits?
    fermat := ← Json.givenOr (fields "ssa_mod_fermat_min_bits") bits? default.fermat
    newton := ← fields "newton_division_min_bits" >>= bits?
    check := ← Json.givenOr (fields "negacyclic_check_max_bits") bits? default.check }

end Multiprecision.Thresholds
