import Multiprecision.Error
import Multiprecision.Integer

/-!
# Multiprecision.Integer.Machine

Conversion from machine integers and to them.  The latter succeeds exactly for
the values in the range of the type.  The narrow types go through the wide ones.
-/

namespace Multiprecision.Integer

/-! ## From machine integers -/

/-- The digits of a double word, lowest first; none for zero. -/
def wordDigits (w : UInt64) : List Digit :=
  if w = 0 then [] else (w.toUInt32 &&& Digits.mask) :: wordDigits (w >>> 30)
termination_by w.toNat
decreasing_by
  have hpos : 0 < w.toNat := Nat.pos_of_ne_zero fun h => ‹¬ w = 0› (UInt64.toNat_inj.mp h)
  rw [UInt64.toNat_shiftRight]
  exact Nat.lt_of_le_of_lt (Nat.le_of_eq (Nat.shiftRight_eq_div_pow _ 30))
    (Nat.div_lt_self hpos (by decide))

def ofUInt64 (w : UInt64) : Integer := ⟨false, wordDigits w⟩

/-- The magnitude is that of the word in an unsigned one, which holds that of the
least value too. -/
def ofInt64 (w : Int64) : Integer :=
  { ofUInt64 (UInt64.ofNat w.toInt.natAbs) with negative := decide (w < 0) }.normalizeSign

def ofUInt32 (w : UInt32) : Integer := ofUInt64 w.toUInt64

def ofInt32 (w : Int32) : Integer := ofInt64 w.toInt64

/-! ## To machine integers -/

/-- The magnitude as a double word, if it has at most 64 bits. -/
def magnitudeWord (x : Integer) : Option UInt64 :=
  if 64 < x.bitLength then none
  else some (x.significant.foldr (fun d high => high <<< 30 ||| d.toUInt64) 0)

def toUInt64 (x : Integer) : Except Error UInt64 :=
  if x.negative then .error (.overflow "u64")
  else
    match x.magnitudeWord with
    | some m => .ok m
    | none => .error (.overflow "u64")

def toInt64 (x : Integer) : Except Error Int64 :=
  match x.magnitudeWord with
  | none => .error (.overflow "i64")
  | some m =>
    if x.negative then
      if m ≤ 0x8000000000000000 then .ok (Int64.ofInt (-m.toNat)) else .error (.overflow "i64")
    else if m < 0x8000000000000000 then .ok (Int64.ofInt m.toNat)
    else .error (.overflow "i64")

def toUInt32 (x : Integer) : Except Error UInt32 :=
  match x.toUInt64 with
  | .ok m => if m ≤ 0xFFFFFFFF then .ok m.toUInt32 else .error (.overflow "u32")
  | .error _ => .error (.overflow "u32")

def toInt32 (x : Integer) : Except Error Int32 :=
  match x.toInt64 with
  | .ok i => if -2147483648 ≤ i && i ≤ 2147483647 then .ok i.toInt32 else .error (.overflow "i32")
  | .error _ => .error (.overflow "i32")

/-- The value lies in the range of a signed 32-bit word. -/
def isInt32 (x : Integer) : Bool := x.toInt32.isOk

end Multiprecision.Integer
