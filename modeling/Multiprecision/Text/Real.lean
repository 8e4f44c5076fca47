/-!
# Multiprecision.Text.Real

Reading a double from decimal text: a sign, figures with a point among or
around them, and an exponent, of which all but one figure may be missing.
Infinity and the value that is no number go by their names, in either case.
-/

namespace Multiprecision.Text

/-- What a sign at the front says, and what follows it. -/
def splitRealSign : List Char → Bool × List Char
  | '-' :: rest => (true, rest)
  | '+' :: rest => (false, rest)
  | cs => (false, cs)

/-- The number that figures stand for. -/
def ofFigures (cs : List Char) : Nat :=
  cs.foldl (fun n c => 10 * n + (c.toNat - '0'.toNat)) 0

/-- What follows the figures of a number as a power of ten. -/
def exponent? : List Char → Option Int
  | [] => some 0
  | c :: cs =>
    let (negative, figures) := splitRealSign cs
    if (c = 'e' || c = 'E') && !figures.isEmpty && figures.all Char.isDigit then
      some (if negative then -(ofFigures figures : Int) else ofFigures figures)
    else none

/-- The double nearest to `m · 10^e`.  Powers far beyond the range of doubles
need not be worked out. -/
def nearest (m : Nat) (e : Int) : Float :=
  let size := (Nat.toDigits 10 m).length + e
  if m = 0 || size < -400 then 0
  else if 400 < size then 1 / 0
  else Float.ofScientific m (e < 0) e.natAbs

/-- The double that figures with a point and an exponent stand for. -/
def magnitude? (cs : List Char) : Option Float := do
  let whole := cs.takeWhile Char.isDigit
  let (fraction, rest) :=
    match cs.dropWhile Char.isDigit with
    | '.' :: after => (after.takeWhile Char.isDigit, after.dropWhile Char.isDigit)
    | rest => ([], rest)
  if whole.isEmpty && fraction.isEmpty then none
  else return nearest (ofFigures (whole ++ fraction)) ((← exponent? rest) - fraction.length)

/-- The double that a name stands for. -/
def named? (cs : List Char) : Option Float :=
  match String.ofList (cs.map Char.toLower) with
  | "inf" | "infinity" => some (1 / 0)
  | "nan" => some (0 / 0)
  | _ => none

/-- The double that a text stands for. -/
def real? (s : String) : Option Float := do
  let (negative, cs) := splitRealSign s.toList
  let x ← magnitude? cs <|> named? cs
  return if negative then -x else x

end Multiprecision.Text
