import Multiprecision.CommandLine.Usage
import Multiprecision.Integer.Operand
import Multiprecision.Text.Real

/-!
# Multiprecision.CommandLine.Value

Reading the values of arguments.
-/

namespace Multiprecision.CommandLine

/-- Shells that arguments can be completed in. -/
inductive Shell where
  | bash
  | elvish
  | fish
  | powershell
  | zsh
deriving DecidableEq, Repr, Inhabited

namespace Value

/-- The value of a reading, if there is one. -/
def orInvalid {α : Type} : Option α → Except Usage α
  | some a => .ok a
  | none => .error .valueValidation

/-- An operand. -/
def operand (s : String) : Except Usage Integer := orInvalid (Integer.ofOperand s).toOption

/-- A natural number in figures. -/
def figures? (cs : List Char) : Option Nat :=
  if !cs.isEmpty && cs.all Char.isDigit then some (Text.ofFigures cs) else none

/-- A word of 64 bits, with or without a plus sign. -/
def word64? (s : String) : Option Nat := do
  let n ← match s.toList with
    | '+' :: cs => figures? cs
    | cs => figures? cs
  if n < Nat.pow 2 64 then return n else none

/-- A word of 64 bits. -/
def word64 (s : String) : Except Usage Nat := orInvalid (word64? s)

/-- A word of 32 bits, with or without a sign: a minus sign may stand before
zero. -/
def word32? (s : String) : Option UInt32 := do
  let (negative, cs) := Text.splitRealSign s.toList
  let n ← figures? cs
  if n < Nat.pow 2 32 && (!negative || n = 0) then return UInt32.ofNat n else none

/-- A word of 32 bits. -/
def word32 (s : String) : Except Usage UInt32 := orInvalid (word32? s)

/-- A double. -/
def real (s : String) : Except Usage Float := orInvalid (Text.real? s)

/-- The name of a shell. -/
def shell : String → Except Usage Shell
  | "bash" => .ok .bash
  | "elvish" => .ok .elvish
  | "fish" => .ok .fish
  | "powershell" => .ok .powershell
  | "zsh" => .ok .zsh
  | _ => .error .invalidValue

end Value

end Multiprecision.CommandLine
