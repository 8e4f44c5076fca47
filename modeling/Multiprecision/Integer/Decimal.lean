import Multiprecision.Integer.Word
import Multiprecision.Text.Quoted

/-!
# Multiprecision.Integer.Decimal

Decimal numerals: an optional minus sign and one or more ASCII figures.
Both directions work nine figures at a time, because `10^9` is the largest
power of ten below `2^30`: writing divides by it again and again, reading
multiplies by it and adds.

The numeral that is written has no leading zeros and has a sign only for a
negative value; any numeral can be read.
-/

namespace Multiprecision.Integer

/-- The figures that one pass over the digits handles. -/
def decimalGroup : Nat := 9

/-! ## Writing -/

/-- The groups of nine decimal figures, lowest first.  Every group takes more
than 29 bits off the value, so twice as many groups as digits are enough. -/
def decimalGroups : (fuel : Nat) → List Digit → List Nat
  | 0, _ => []
  | fuel + 1, ds =>
    if Digits.isZero ds then []
    else
      let (qs, r) := Digits.divWord 1000000000 ds
      r.toNat :: decimalGroups fuel (Digits.significant qs)

/-- The figures of `n` with zeros in front, `decimalGroup` in all. -/
def fullGroup (n : Nat) : List Char :=
  let figures := Nat.toDigits 10 n
  List.replicate (decimalGroup - figures.length) '0' ++ figures

/-- The decimal figures of the magnitude. -/
def decimalFigures (x : Integer) : List Char :=
  match (decimalGroups (2 * x.capacity) x.significant).reverse with
  | [] => ['0']
  | top :: rest => Nat.toDigits 10 top ++ rest.flatMap fullGroup

/-- The sign that a numeral of `x` begins with. -/
def sign (x : Integer) : List Char := if x.negative then ['-'] else []

/-- The decimal numeral of `x`. -/
def toDecimal (x : Integer) : String := String.ofList (x.sign ++ x.decimalFigures)

/-! ## Reading -/

/-- The minus sign in front of a numeral, and the rest of it. -/
def splitSign : List Char → Bool × List Char
  | '-' :: rest => (true, rest)
  | cs => (false, cs)

def isFigure (c : Char) : Bool := '0' ≤ c && c ≤ '9'

/-- `x · 10^figures + group`. -/
def appendGroup (x : Integer) (figures group : Nat) : Integer :=
  (x.mulWord (UInt32.ofNat (Nat.pow 10 figures))).add (ofNat group)

/-- Reads figures behind the value `x`.  The current group has `figures`
figures of value `group`, and ends after `left` more. -/
def readFigures : List Char → (left figures group : Nat) → Integer → Integer
  | [], _, _, _, x => x
  | c :: cs, left, figures, group, x =>
    let group := 10 * group + (c.toNat - '0'.toNat)
    if left ≤ 1 then readFigures cs decimalGroup 0 0 (x.appendGroup (figures + 1) group)
    else readFigures cs (left - 1) (figures + 1) group x

/-- Reads a decimal numeral. -/
def ofDecimal (s : String) : Except Error Integer :=
  let (negative, figures) := splitSign s.toList
  if s.isEmpty then .error (.parse "empty string")
  else if figures.isEmpty then .error (.parse ("no digits in " ++ Text.quoted s))
  else
    match figures.find? (!isFigure ·) with
    | some bad =>
      .error (.parse ("invalid digit " ++ Text.quotedChar bad ++ " in " ++ Text.quoted s))
    | none =>
      -- The first group takes the figures that do not fill a whole one.
      let first := figures.length % decimalGroup
      let x := readFigures figures (if first = 0 then decimalGroup else first) 0 0 zero
      .ok { x with negative }.normalizeSign

end Multiprecision.Integer
