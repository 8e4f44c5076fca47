import Multiprecision.Json.Record
import Multiprecision.Product.Algorithm

/-!
# Multiprecision.Product.Algorithm.Json

Algorithms in JSON.  An algorithm without parameters is its tag, or an
object with the tag as its only member and a null; one with parameters is an
object with the tag as its only member and a record of them.
-/

namespace Multiprecision.Algorithm

/-- The tags of the algorithms without parameters. -/
def tags : List (String × Algorithm) :=
  [("GradeSchool", gradeSchool), ("Toom15", toom15), ("Toom2", toom2), ("Toom25", toom25),
    ("Toom3", toom3)]

/-- The tag of an algorithm. -/
def tag : Algorithm → String
  | gradeSchool => "GradeSchool"
  | toom15 => "Toom15"
  | toom2 => "Toom2"
  | toom25 => "Toom25"
  | toom3 => "Toom3"
  | schonhageStrassen _ => "SchonhageStrassen"

/-- The value of an algorithm. -/
def toJson (a : Algorithm) : Json :=
  match a with
  | schonhageStrassen logParts =>
    .ofMembers [(a.tag, .ofMembers [("log_num_parts", .natural logParts)])]
  | a => .text a.tag

/-- The algorithm with the given tag and the value beside it. -/
def ofTagged? (tag : String) (v : Json) : Option Algorithm :=
  match List.lookup tag tags, v with
  | some a, .null => some a
  | some _, _ => none
  | none, v => do
    if tag = "SchonhageStrassen" then
      let fields ← v.fields? ["log_num_parts"]
      return schonhageStrassen (← fields "log_num_parts" >>= Json.below? (Nat.pow 2 32))
    else none

/-- The algorithm that a value stands for. -/
def ofJson? : Json → Option Algorithm
  | .string us => do List.lookup (← Text.ofUnits? us) tags
  | .object [(us, v)] => do ofTagged? (← Text.ofUnits? us) v
  | _ => none

end Multiprecision.Algorithm
