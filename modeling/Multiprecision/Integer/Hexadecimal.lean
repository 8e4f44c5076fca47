import Multiprecision.Digits.Regroup
import Multiprecision.Integer.Decimal

/-!
# Multiprecision.Integer.Hexadecimal

Hexadecimal numerals: an optional minus sign, an optional mark `0x` or `0X`,
and one or more figures of either case.  A figure is four bits of the
magnitude, so both directions regroup bits, between digits of thirty and
figures of four.
-/

namespace Multiprecision.Integer

/-! ## Writing -/

/-- The hexadecimal figure of `n < 16`. -/
def hexFigure (upper : Bool) (n : Nat) : Char :=
  Char.ofNat (if n < 10 then 48 + n else if upper then 55 + n else 87 + n)

/-- The hexadecimal figures of the magnitude. -/
def hexFigures (upper : Bool) (x : Integer) : List Char :=
  if x.isZero then ['0']
  else
    let nibbles := Digits.regroup Digits.width 4 (x.significant.map (·.toNat)) 0 0
    -- The last digit is regrouped as a whole; its leading zeros are dropped.
    ((nibbles.take ((x.bitLength + 3) / 4)).map (hexFigure upper)).reverse

/-- The numeral of `x` in upper-case hexadecimal, without a mark. -/
def toHex (x : Integer) : String := String.ofList (x.sign ++ x.hexFigures true)

/-! ## Reading -/

/-- The value of a hexadecimal figure. -/
def hexValue? (c : Char) : Option Nat :=
  if '0' ≤ c && c ≤ '9' then some (c.toNat - 48)
  else if 'A' ≤ c && c ≤ 'F' then some (c.toNat - 55)
  else if 'a' ≤ c && c ≤ 'f' then some (c.toNat - 87)
  else none

/-- Takes a hexadecimal mark off the front. -/
def dropHexMark : List Char → List Char
  | '0' :: 'x' :: rest => rest
  | '0' :: 'X' :: rest => rest
  | cs => cs

/-- The bytes of a text, each as the character of that number. -/
def byteChars (cs : List Char) : List Char :=
  (String.ofList cs).toUTF8.data.toList.map fun b => Char.ofNat b.toNat

/-- Reads a hexadecimal numeral.  It is read from its low end, byte by byte,
and the message names the first byte there that is no figure. -/
def ofHex (s : String) : Except Error Integer :=
  let (negative, rest) := splitSign s.toList
  let bytes := byteChars (dropHexMark rest)
  if s.isEmpty then .error (.parse "empty string")
  else if bytes.isEmpty then .error (.parse ("no hex digits in " ++ Text.quoted s))
  else
    let figures := bytes.reverse
    match figures.find? (hexValue? · |>.isNone) with
    | some bad =>
      .error (.parse ("invalid hex digit " ++ Text.quotedChar bad ++ " in " ++ Text.quoted s))
    | none =>
      let nibbles := figures.map fun c => (hexValue? c).getD 0
      .ok { negative, digits := (Digits.regroup 4 Digits.width nibbles 0 0).map UInt32.ofNat
        : Integer }.normalizeSign

end Multiprecision.Integer
