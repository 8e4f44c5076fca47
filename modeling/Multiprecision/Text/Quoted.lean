import Multiprecision.Text.Unprintable

/-!
# Multiprecision.Text.Quoted

Quoted text and quoted characters, as messages show what they were given.
The usual control characters have short escapes, other characters that
would not be seen are written by their code point, and only the kind of
quote that encloses the text is escaped.
-/

namespace Multiprecision.Text

/-- The code point in lower-case hexadecimal between braces. -/
def codePointEscape (c : Char) : List Char :=
  ['\\', 'u', '\x7b'] ++ Nat.toDigits 16 c.toNat ++ ['\x7d']

/-- A character inside a text enclosed by `quote`. -/
def escapeChar (quote c : Char) : List Char :=
  if c = '\x00' then ['\\', '0']
  else if c = '\t' then ['\\', 't']
  else if c = '\r' then ['\\', 'r']
  else if c = '\n' then ['\\', 'n']
  else if c = '\\' then ['\\', '\\']
  else if c = quote then ['\\', c]
  else if isUnprintable c then codePointEscape c
  else [c]

/-- The text between quotation marks. -/
def quoted (s : String) : String :=
  String.ofList (['"'] ++ s.toList.flatMap (escapeChar '"') ++ ['"'])

/-- The character between apostrophes. -/
def quotedChar (c : Char) : String :=
  String.ofList (['\''] ++ escapeChar '\'' c ++ ['\''])

end Multiprecision.Text
