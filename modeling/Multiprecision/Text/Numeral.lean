import Multiprecision.Text.Blank

/-!
# Multiprecision.Text.Numeral

The texts that are numerals and the numbers that they write, said apart from
any reader or writer:

```
figures      =  figure  |  figures figure
decimal      =  [ "-" ] figures                       to the base ten
marked       =  ( "0x" | "0X" ) figures               to the base sixteen
hexadecimal  =  [ "-" ] ( figures | marked )          to the base sixteen
operand      =  decimal  |  [ "-" ] marked
```

A number has many numerals, because zeros may stand in front, letters may
have either case and zero may have a sign.  One of them is canonical.
-/

namespace Multiprecision.Text

/-! ## Figures -/

/-- The figures in the order of their values, with letters in upper case. -/
def upperFigures : List Char :=
  ['0', '1', '2', '3', '4', '5', '6', '7', '8', '9', 'A', 'B', 'C', 'D', 'E', 'F']

/-- The figures in the order of their values, with letters in lower case. -/
def lowerFigures : List Char :=
  ['0', '1', '2', '3', '4', '5', '6', '7', '8', '9', 'a', 'b', 'c', 'd', 'e', 'f']

/-- `c` is the figure of value `d` to the base `b`; a letter may have either case. -/
def IsFigure (b : Nat) (c : Char) (d : Nat) : Prop :=
  d < b ∧ (upperFigures[d]? = some c ∨ lowerFigures[d]? = some c)

/-- One or more figures, and the number that they write to the base `b`. -/
inductive Figures (b : Nat) : List Char → Nat → Prop where
  | single {c : Char} {d : Nat} : IsFigure b c d → Figures b [c] d
  | append {cs : List Char} {n : Nat} {c : Char} {d : Nat} :
      Figures b cs n → IsFigure b c d → Figures b (cs ++ [c]) (n * b + d)

/-! ## Numerals -/

/-- An optional minus sign in front of a numeral without a sign. -/
inductive Signed (Unsigned : List Char → Nat → Prop) : List Char → Int → Prop where
  | plain {cs : List Char} {n : Nat} : Unsigned cs n → Signed Unsigned cs n
  | minus {cs : List Char} {n : Nat} : Unsigned cs n → Signed Unsigned ('-' :: cs) (-n)

/-- A hexadecimal mark and figures. -/
inductive Marked : List Char → Nat → Prop where
  | lower {cs : List Char} {n : Nat} : Figures 16 cs n → Marked ('0' :: 'x' :: cs) n
  | upper {cs : List Char} {n : Nat} : Figures 16 cs n → Marked ('0' :: 'X' :: cs) n

/-- The text is a decimal numeral of `i`. -/
def IsDecimal (cs : List Char) (i : Int) : Prop := Signed (Figures 10) cs i

/-- The text is a hexadecimal numeral of `i`. -/
def IsHexadecimal (cs : List Char) (i : Int) : Prop :=
  Signed (fun cs n => Figures 16 cs n ∨ Marked cs n) cs i

/-- The text is an operand of value `i`: a hexadecimal numeral needs its mark. -/
def IsOperand (cs : List Char) (i : Int) : Prop := IsDecimal cs i ∨ Signed Marked cs i

/-- `cs` is the text `inner` with any blanks before and after it. -/
def BlanksAround (cs inner : List Char) : Prop :=
  ∃ before after, (∀ c ∈ before, isBlank c = true) ∧ (∀ c ∈ after, isBlank c = true) ∧
    cs = before ++ inner ++ after

/-! ## Canonical numerals -/

/-- The canonical numeral of `i` to the base `b`: a minus sign for a negative
number only, no zero in front of other figures, and letters in upper case. -/
def IsCanonical (b : Nat) (cs : List Char) (i : Int) : Prop :=
  ∃ figures, Figures b figures i.natAbs ∧ (∀ c ∈ figures, c ∈ upperFigures) ∧
    (figures.head? = some '0' → figures = ['0']) ∧
    cs = (if i < 0 then ['-'] else []) ++ figures

end Multiprecision.Text
