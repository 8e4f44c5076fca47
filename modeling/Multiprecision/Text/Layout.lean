/-!
# Multiprecision.Text.Layout

Laying a numeral out in a field.  A layout gives the least width, where the
numeral stands in it, what fills the rest, whether a plus sign and a radix
mark are written, and whether zeros fill the field.  Zeros go between the
sign or mark and the figures; any other filling goes outside both.

The notation for a layout is

```
[[fill] align] [+] [#] [0] [width] [form]
```

with `<`, `^` and `>` to align, and the forms `x` and `X` for hexadecimal
and `?` for the display of a value in a message.
-/

namespace Multiprecision.Text

/-- Where a numeral stands in its field. -/
inductive Align where
  | left
  | center
  | right
deriving DecidableEq, Repr

/-- Which text of the number is laid out. -/
inductive Form where
  | decimal
  | lowerHex
  | upperHex
  | display
deriving DecidableEq, Repr

/-- How a number is laid out. -/
structure Layout where
  fill : Char := ' '
  align : Option Align := none
  plus : Bool := false
  mark : Bool := false
  zeros : Bool := false
  width : Nat := 0
  form : Form := .decimal
deriving DecidableEq, Repr

namespace Layout

/-! ## The notation -/

def alignOf? : Char → Option Align
  | '<' => some .left
  | '^' => some .center
  | '>' => some .right
  | _ => none

/-- The alignment at the front of a layout, with the character that fills. -/
def readAlign : List Char → Layout × List Char
  | [] => ({}, [])
  | [c] => match alignOf? c with
    | some a => ({ align := some a }, [])
    | none => ({}, [c])
  | c :: d :: rest => match alignOf? d with
    | some a => ({ fill := c, align := some a }, rest)
    | none => match alignOf? c with
      | some a => ({ align := some a }, d :: rest)
      | none => ({}, c :: d :: rest)

/-- Takes `c` off the front, if it is there. -/
def readFlag (c : Char) : List Char → Bool × List Char
  | [] => (false, [])
  | d :: rest => if d = c then (true, rest) else (false, d :: rest)

def formOf? : List Char → Option Form
  | [] => some .decimal
  | ['x'] => some .lowerHex
  | ['X'] => some .upperHex
  | ['?'] => some .display
  | _ => none

/-- Reads a layout; the letter `w` stands for the width `width`. -/
def read? (text : String) (width : Nat) : Option Layout :=
  let (layout, rest) := readAlign text.toList
  let (plus, rest) := readFlag '+' rest
  let (mark, rest) := readFlag '#' rest
  let (zeros, rest) := readFlag '0' rest
  let (wide, rest) := readFlag 'w' rest
  (formOf? rest).map fun form =>
    { layout with plus, mark, zeros, width := if wide then width else 0, form }

/-! ## Laying out -/

/-- `room` fillings around `text`. -/
def pad (layout : Layout) (room : Nat) (text : List Char) : List Char :=
  let before := match layout.align.getD .right with
    | .left => 0
    | .center => room / 2
    | .right => room
  List.replicate before layout.fill ++ text ++ List.replicate (room - before) layout.fill

/-- The numeral of a number with the given sign and radix mark. -/
def apply (layout : Layout) (negative : Bool) (radixMark figures : List Char) : List Char :=
  let sign := if negative then ['-'] else if layout.plus then ['+'] else []
  let front := sign ++ if layout.mark then radixMark else []
  let room := layout.width - (front.length + figures.length)
  if layout.zeros then front ++ List.replicate room '0' ++ figures
  else layout.pad room (front ++ figures)

end Layout

end Multiprecision.Text
