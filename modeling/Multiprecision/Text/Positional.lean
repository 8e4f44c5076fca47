import Multiprecision.Binary

/-!
# Multiprecision.Text.Positional

The shortest decimal text of a double that reads back as the same double,
never with an exponent.

A finite double is `m · 2^q`; the reals that round to it form an interval
around it, whose ends belong to it iff `m` is even.  For one digit, two
digits and so on, the two neighbours of the value on that decimal grid are
tried: the first grid with a neighbour in the interval gives the digits.  Of
two neighbours the nearer one is taken, and the upper one of two as near.
-/

namespace Multiprecision.Text

/-- A magnitude and the interval around it, as numerators over `denominator`. -/
structure Interval where
  low : Nat
  value : Nat
  high : Nat
  denominator : Nat
  closed : Bool
deriving DecidableEq, Repr

/-- The reals that round to a double.  Below a power of two the neighbours
are closer. -/
def Interval.ofBinary (b : Binary) : Interval :=
  let down := if b.significand = Nat.pow 2 52 && -1074 < b.exponent then 1 else 2
  let scale := Nat.pow 2 (b.exponent - 2).toNat
  { low := (4 * b.significand - down) * scale
    value := 4 * b.significand * scale
    high := (4 * b.significand + 2) * scale
    denominator := Nat.pow 2 (2 - b.exponent).toNat
    closed := b.significand % 2 = 0 }

/-- `n · 10^e` lies in the interval. -/
def Interval.contains (i : Interval) (n : Nat) (e : Int) : Bool :=
  let point := n * Nat.pow 10 e.toNat * i.denominator
  let ten := Nat.pow 10 (-e).toNat
  if i.closed then i.low * ten ≤ point && point ≤ i.high * ten
  else i.low * ten < point && point < i.high * ten

/-- The exponent of the leading decimal digit of the value. -/
def Interval.decimalExponent (i : Interval) : Int :=
  if i.denominator ≤ i.value then ((Nat.toDigits 10 (i.value / i.denominator)).length : Int) - 1
  else go 400 1 (i.value * 10)
where
  go : (fuel places scaled : Nat) → Int
    | 0, places, _ => -(places : Int)
    | fuel + 1, places, scaled =>
      if i.denominator ≤ scaled then -(places : Int) else go fuel (places + 1) (scaled * 10)

/-- A decimal number `digits · 10^exponent`. -/
structure Decimal where
  digits : Nat
  exponent : Int
deriving DecidableEq, Repr

/-- The neighbour on the grid of multiples of `10^e` that lies in the
interval and is nearest to the value. -/
def Interval.onGrid? (i : Interval) (e : Int) : Option Decimal :=
  let value := i.value * Nat.pow 10 (-e).toNat
  let unit := i.denominator * Nat.pow 10 e.toNat
  let below := value / unit
  let remainder := value % unit
  match i.contains below e, i.contains (below + 1) e with
  | true, true => some ⟨if 2 * remainder < unit then below else below + 1, e⟩
  | true, false => some ⟨below, e⟩
  | false, true => some ⟨below + 1, e⟩
  | false, false => none

/-- Tries grids from the one at `e` to finer ones. -/
def Interval.shortest (i : Interval) : (fuel : Nat) → (e : Int) → Decimal
  | 0, e => ⟨i.value * Nat.pow 10 (-e).toNat / (i.denominator * Nat.pow 10 e.toNat), e⟩
  | fuel + 1, e => match i.onGrid? e with
    | some d => d
    | none => i.shortest fuel (e - 1)

/-- The shortest decimal that reads back as the double; 17 digits are enough. -/
def Decimal.ofBinary (b : Binary) : Decimal :=
  let i := Interval.ofBinary b
  i.shortest 17 i.decimalExponent

/-- The figures of a decimal number, without exponent. -/
def Decimal.figures (d : Decimal) : List Char :=
  let cs := Nat.toDigits 10 d.digits
  if 0 ≤ d.exponent then cs ++ List.replicate d.exponent.toNat '0'
  else
    let places := (-d.exponent).toNat
    let cs := List.replicate (places + 1 - cs.length) '0' ++ cs
    let whole := cs.take (cs.length - places)
    let fraction := ((cs.drop (cs.length - places)).reverse.dropWhile (· == '0')).reverse
    if fraction.isEmpty then whole else whole ++ ['.'] ++ fraction

/-- The magnitude of a double as text. -/
def magnitudeFigures (x : Float) : List Char :=
  if x.isInf then ['i', 'n', 'f']
  else if x == 0 then ['0']
  else (Decimal.ofBinary (Binary.ofFloat x)).figures

/-- The text of a double. -/
def positional (x : Float) : String :=
  if x.isNaN then "NaN"
  else String.ofList ((if Binary.signBit x then ['-'] else []) ++ magnitudeFigures x)

end Multiprecision.Text
