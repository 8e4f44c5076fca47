import Multiprecision.Thresholds

/-!
# Multiprecision.Product.Algorithm

The algorithms for products, and which one operands of given sizes get.
The choice looks at bit lengths and thresholds only.
-/

namespace Multiprecision

/-- An algorithm for the product of two magnitudes. -/
inductive Algorithm where
  /-- Every digit by every digit. -/
  | gradeSchool
  /-- Toom–Cook with only the longer operand split, in two. -/
  | toom15
  /-- Toom–Cook with both operands in two. -/
  | toom2
  /-- Toom–Cook with one operand in three and one in two. -/
  | toom25
  /-- Toom–Cook with both operands in three. -/
  | toom3
  /-- Schönhage–Strassen with `2 ^ logParts` parts. -/
  | schonhageStrassen (logParts : Nat)
deriving DecidableEq, Repr, Inhabited

namespace Algorithm

/-- The label of an algorithm in reports. -/
def name : Algorithm → String
  | gradeSchool => "grade-school"
  | toom15 => "toom-1.5"
  | toom2 => "toom-2"
  | toom25 => "toom-2.5"
  | toom3 => "toom-3"
  | schonhageStrassen 6 => "ssa-64"
  | schonhageStrassen 7 => "ssa-128"
  | schonhageStrassen _ => "ssa"

/-- The algorithm for a product of operands of `m` and `n` bits.  Toom's
method splits operands alike only if the smaller one is not too short. -/
def forProduct (t : Thresholds) (m n : Nat) : Algorithm :=
  let large := max m n
  let small := min m n
  if large < t.toom2 then gradeSchool
  else if large < t.toom3 then if small < large / 2 then toom15 else toom2
  else if large < t.transform64 then if small < large * 2 / 3 then toom25 else toom3
  else if large < t.transform128 then schonhageStrassen 6
  else schonhageStrassen 7

/-- The algorithm for the square of an operand of `n` bits. -/
def forSquare (t : Thresholds) (n : Nat) : Algorithm :=
  if n < t.toom2 then gradeSchool
  else if n < t.toom3 then toom2
  else if n < t.transform64 then toom3
  else if n < t.transform128 then schonhageStrassen 6
  else schonhageStrassen 7

end Algorithm

end Multiprecision
