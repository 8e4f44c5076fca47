import Multiprecision.Integer.Hexadecimal
import Multiprecision.Text.Blank
import Multiprecision.Text.Layout

/-!
# Multiprecision.Integer.Operand

Operands as people type them, and numerals laid out in a field.  An operand
may have blanks around it; it is hexadecimal if a mark follows its sign and
decimal otherwise.
-/

namespace Multiprecision.Integer

/-- The text begins with a hexadecimal mark. -/
def hasHexMark : List Char → Bool
  | '0' :: 'x' :: _ => true
  | '0' :: 'X' :: _ => true
  | _ => false

/-- Reads an operand. -/
def ofOperand (s : String) : Except Error Integer :=
  let trimmed := Text.trimBlanks s.toList
  let text := String.ofList trimmed
  if hasHexMark (splitSign trimmed).2 then ofHex text else ofDecimal text

/-- `x` as it is shown in a message about a value. -/
def display (x : Integer) : String := "MpInt(" ++ x.toDecimal ++ ")"

/-- `x` laid out in a field. -/
def layOut (x : Integer) (layout : Text.Layout) : String :=
  match layout.form with
  | .decimal => String.ofList (layout.apply x.negative [] x.decimalFigures)
  | .lowerHex => String.ofList (layout.apply x.negative ['0', 'x'] (x.hexFigures false))
  | .upperHex => String.ofList (layout.apply x.negative ['0', 'x'] (x.hexFigures true))
  | .display => x.display

end Multiprecision.Integer
