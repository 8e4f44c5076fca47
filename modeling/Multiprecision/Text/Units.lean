/-!
# Multiprecision.Text.Units

Text as 16-bit units.  A character below 2^16 is one unit; any other is a
pair, a unit from D800 up and a unit from DC00 up with ten bits each.  Units
of these two ranges that do not pair stand for no character.
-/

namespace Multiprecision.Text

/-- The units of a character. -/
def unitsOfChar (c : Char) : List UInt16 :=
  let n := c.toNat
  if n < 0x10000 then [UInt16.ofNat n]
  else
    let m := n - 0x10000
    [UInt16.ofNat (0xD800 + m / 0x400), UInt16.ofNat (0xDC00 + m % 0x400)]

/-- The units of a text. -/
def units (text : List Char) : List UInt16 := text.flatMap unitsOfChar

/-- A unit that begins a pair. -/
def isHighHalf (u : UInt16) : Bool := 0xD800 ≤ u && u < 0xDC00

/-- A unit that ends a pair. -/
def isLowHalf (u : UInt16) : Bool := 0xDC00 ≤ u && u < 0xE000

/-- The character of a pair. -/
def pairChar (high low : UInt16) : Char :=
  Char.ofNat (0x10000 + (high.toNat - 0xD800) * 0x400 + (low.toNat - 0xDC00))

/-- The character of a unit that is not half of a pair. -/
def unitChar? (u : UInt16) : Option Char :=
  if isHighHalf u || isLowHalf u then none else some (Char.ofNat u.toNat)

/-- The characters that units stand for, with the units that stand for none. -/
def scalars : List UInt16 → List (Char ⊕ UInt16)
  | [] => []
  | [u] => [single u]
  | u :: v :: rest =>
    if isHighHalf u && isLowHalf v then .inl (pairChar u v) :: scalars rest
    else single u :: scalars (v :: rest)
where
  single (u : UInt16) : Char ⊕ UInt16 :=
    match unitChar? u with
    | some c => .inl c
    | none => .inr u

/-- The text that units stand for, if all of them do. -/
def ofUnits? (us : List UInt16) : Option String :=
  ((scalars us).mapM Sum.getLeft?).map String.ofList

end Multiprecision.Text
