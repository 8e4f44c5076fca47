import Multiprecision.Json

/-!
# Multiprecision.Json.Token

The tokens of JSON text: brackets, commas and colons, and the values that
have no parts.  Blanks between tokens are space, tab, line feed and carriage
return.  A run of the characters that numbers are made of is one token, and
must be a number as a whole: nothing that may follow a number begins with
one of them.
-/

namespace Multiprecision.Json

inductive Token where
  | openArray
  | closeArray
  | openObject
  | closeObject
  | comma
  | colon
  | string (units : List UInt16)
  | scalar (value : Json)

namespace Token

/-! ## Strings -/

def hexValue? (c : Char) : Option Nat :=
  if '0' ≤ c && c ≤ '9' then some (c.toNat - '0'.toNat)
  else if 'a' ≤ c && c ≤ 'f' then some (c.toNat - 'a'.toNat + 10)
  else if 'A' ≤ c && c ≤ 'F' then some (c.toNat - 'A'.toNat + 10)
  else none

/-- The unit of four hexadecimal figures. -/
def unit? (a b c d : Char) : Option UInt16 := do
  return UInt16.ofNat
    (((← hexValue? a) * 16 + (← hexValue? b)) * 256 + (← hexValue? c) * 16 + (← hexValue? d))

/-- The unit of a short escape. -/
def escape? : Char → Option UInt16
  | '"' => some 0x22
  | '\\' => some 0x5C
  | '/' => some 0x2F
  | 'b' => some 0x08
  | 'f' => some 0x0C
  | 'n' => some 0x0A
  | 'r' => some 0x0D
  | 't' => some 0x09
  | _ => none

/-- The units up to the closing quote, and what follows it.  A character
below a blank must be escaped. -/
def units? : List Char → Option (List UInt16 × List Char)
  | [] => none
  | '"' :: rest => some ([], rest)
  | '\\' :: 'u' :: a :: b :: c :: d :: rest => do
    let u ← unit? a b c d
    let (us, after) ← units? rest
    return (u :: us, after)
  | '\\' :: c :: rest => do
    let u ← escape? c
    let (us, after) ← units? rest
    return (u :: us, after)
  | c :: rest =>
    if c.toNat < 0x20 || c = '\\' then none
    else do
      let (us, after) ← units? rest
      return (Text.unitsOfChar c ++ us, after)

/-- The units of a character take at least one character of the text. -/
theorem length_lt_of_units? {cs : List Char} {us : List UInt16} {after : List Char}
    (h : units? cs = some (us, after)) : after.length < cs.length := by
  fun_induction units? cs generalizing us after with
  | case1 => simp at h
  | case2 rest => simp_all
  | case3 a b c d rest ih =>
    simp only [Option.bind_eq_bind, Option.bind_eq_some_iff, Option.pure_def] at h
    obtain ⟨_, _, ⟨_, after'⟩, hr, h⟩ := h
    have := ih hr
    simp_all
    omega
  | case4 c rest _ ih =>
    simp only [Option.bind_eq_bind, Option.bind_eq_some_iff, Option.pure_def] at h
    obtain ⟨_, _, ⟨_, after'⟩, hr, h⟩ := h
    have := ih hr
    simp_all
    omega
  | case5 => simp at h
  | case6 c rest _ _ _ _ ih =>
    simp only [Option.bind_eq_bind, Option.bind_eq_some_iff, Option.pure_def] at h
    obtain ⟨⟨_, after'⟩, hr, h⟩ := h
    have := ih hr
    simp_all
    omega

/-! ## Numbers -/

def isNumberChar (c : Char) : Bool :=
  c.isDigit || c = '-' || c = '+' || c = '.' || c = 'e' || c = 'E'

/-- One figure at least. -/
def isFigures (cs : List Char) : Bool := !cs.isEmpty && cs.all Char.isDigit

/-- A whole number without a sign and without needless zeros. -/
def isWhole : List Char → Bool
  | ['0'] => true
  | '0' :: _ => false
  | cs => isFigures cs

/-- What may follow the whole part of a number after an exponent mark. -/
def isExponent : List Char → Bool
  | '+' :: cs => isFigures cs
  | '-' :: cs => isFigures cs
  | cs => isFigures cs

def isExponentMark (c : Char) : Bool := c = 'e' || c = 'E'

/-- Splits at the first character that satisfies `p`, which is dropped. -/
def splitAt (p : Char → Bool) (cs : List Char) : List Char × Option (List Char) :=
  match cs.dropWhile (!p ·) with
  | [] => (cs, none)
  | _ :: rest => (cs.takeWhile (!p ·), some rest)

/-- A number: a sign, a whole part, a fraction, an exponent, all but the
whole part optional. -/
def isNumber (cs : List Char) : Bool :=
  let (mantissa, exponent) := splitAt isExponentMark (match cs with | '-' :: rest => rest | _ => cs)
  let (whole, fraction) := splitAt (· = '.') mantissa
  isWhole whole && fraction.all isFigures && exponent.all isExponent

/-! ## Tokens -/

def isBlank (c : Char) : Bool := c = ' ' || c = '\t' || c = '\n' || c = '\r'

/-- The tokens of a text, if it is made of tokens. -/
def scan? : List Char → Option (List Token)
  | [] => some []
  | '[' :: rest => return .openArray :: (← scan? rest)
  | ']' :: rest => return .closeArray :: (← scan? rest)
  | '\x7b' :: rest => return .openObject :: (← scan? rest)
  | '\x7d' :: rest => return .closeObject :: (← scan? rest)
  | ',' :: rest => return .comma :: (← scan? rest)
  | ':' :: rest => return .colon :: (← scan? rest)
  | 'n' :: 'u' :: 'l' :: 'l' :: rest => return .scalar .null :: (← scan? rest)
  | 't' :: 'r' :: 'u' :: 'e' :: rest => return .scalar (.bool true) :: (← scan? rest)
  | 'f' :: 'a' :: 'l' :: 's' :: 'e' :: rest => return .scalar (.bool false) :: (← scan? rest)
  | '"' :: rest =>
    match h : units? rest with
    | none => none
    | some (us, after) =>
      have := length_lt_of_units? h
      return .string us :: (← scan? after)
  | c :: rest =>
    have := (List.dropWhile_suffix (l := rest) isNumberChar).length_le
    if isBlank c then scan? rest
    else if isNumberChar c && isNumber (c :: rest.takeWhile isNumberChar) then
      return .scalar (.number (String.ofList (c :: rest.takeWhile isNumberChar)))
        :: (← scan? (rest.dropWhile isNumberChar))
    else none
termination_by cs => cs.length

end Token

end Multiprecision.Json
