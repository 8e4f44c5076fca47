import Multiprecision.Text.Units

/-!
# Multiprecision.Json

Values of JSON, and how they are written: on one line without blanks, or
laid out with a member a line and two blanks for each level.

A number is kept as it is written, since which numbers are of use is for
the reader of a value to say.  A string is kept as its 16-bit units: the
grammar admits units that stand for no text.
-/

namespace Multiprecision

/-- A value of JSON. -/
inductive Json where
  | null
  | bool (b : Bool)
  | number (numeral : String)
  | string (units : List UInt16)
  | array (items : List Json)
  | object (members : List (List UInt16 × Json))

namespace Json

/-- A string of JSON. -/
def text (s : String) : Json := .string (Text.units s.toList)

/-- A whole number. -/
def natural (n : Nat) : Json := .number (toString n)

/-- An object with named members. -/
def ofMembers (members : List (String × Json)) : Json :=
  .object (members.map fun (name, value) => (Text.units name.toList, value))

/-! ## Strings -/

/-- The four hexadecimal figures of a unit. -/
def unitFigures (u : UInt16) : List Char :=
  [12, 8, 4, 0].map fun shift => Nat.digitChar (u.toNat >>> shift % 16)

/-- A unit by its number. -/
def escapeUnit (u : UInt16) : List Char := '\\' :: 'u' :: unitFigures u

/-- A character inside quotes.  What has a short escape gets it, other
characters below a blank are written by their number, the rest stand for
themselves. -/
def escapeChar (c : Char) : List Char :=
  match c with
  | '"' => ['\\', '"']
  | '\\' => ['\\', '\\']
  | '\x08' => ['\\', 'b']
  | '\x0c' => ['\\', 'f']
  | '\n' => ['\\', 'n']
  | '\r' => ['\\', 'r']
  | '\t' => ['\\', 't']
  | c => if c.toNat < 0x20 then escapeUnit (UInt16.ofNat c.toNat) else [c]

/-- A string in quotes. -/
def quote (us : List UInt16) : String :=
  let body := (Text.scalars us).flatMap (Sum.elim escapeChar escapeUnit)
  String.ofList ('"' :: body ++ ['"'])

/-! ## Values -/

mutual

/-- A value on one line. -/
def compact : Json → String
  | .null => "null"
  | .bool b => if b then "true" else "false"
  | .number n => n
  | .string us => quote us
  | .array items => "[" ++ ",".intercalate (compactItems items) ++ "]"
  | .object members => "\x7b" ++ ",".intercalate (compactMembers members) ++ "\x7d"

def compactItems : List Json → List String
  | [] => []
  | v :: rest => compact v :: compactItems rest

def compactMembers : List (List UInt16 × Json) → List String
  | [] => []
  | (k, v) :: rest => (quote k ++ ":" ++ compact v) :: compactMembers rest

end

/-- Lines between brackets, indented by one level more than the brackets. -/
def bracket (level : Nat) (opening closing : String) (lines : List String) : String :=
  let line (l : Nat) : String := "\n" ++ String.ofList (List.replicate (2 * l) ' ')
  if lines.isEmpty then opening ++ closing
  else
    opening ++ ",".intercalate (lines.map (line (level + 1) ++ ·)) ++ line level ++ closing

mutual

/-- A value with a member a line. -/
def laidOut (level : Nat) : Json → String
  | .array items => bracket level "[" "]" (laidOutItems (level + 1) items)
  | .object members => bracket level "\x7b" "\x7d" (laidOutMembers (level + 1) members)
  | .null => "null"
  | .bool b => if b then "true" else "false"
  | .number n => n
  | .string us => quote us

def laidOutItems (level : Nat) : List Json → List String
  | [] => []
  | v :: rest => laidOut level v :: laidOutItems level rest

def laidOutMembers (level : Nat) : List (List UInt16 × Json) → List String
  | [] => []
  | (k, v) :: rest => (quote k ++ ": " ++ laidOut level v) :: laidOutMembers level rest

end

/-- A value with a member a line. -/
def pretty (v : Json) : String := laidOut 0 v

end Json

end Multiprecision
