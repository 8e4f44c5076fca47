import Multiprecision.Json.Reader

/-!
# Multiprecision.Json.Record

A record with named fields is read from an object, or from an array that
holds the fields in order.  An object may have members of other names, which
are left out of account; it may not give a field twice.  An array may stop
short, and then lacks the last fields.
-/

namespace Multiprecision.Json

/-- The values of the fields of a record, by their names. -/
abbrev Fields := String → Option Json

/-- The fields that an object gives. -/
def membersFields? (names : List String) (members : List (List UInt16 × Json)) :
    Option Fields := do
  let named ← members.mapM fun (name, value) => return (← Text.ofUnits? name, value)
  if names.all fun name => named.countP (·.1 == name) ≤ 1 then
    return fun name => if names.contains name then List.lookup name named else none
  else none

/-- The fields that an array gives. -/
def itemsFields? (names : List String) (items : List Json) : Option Fields :=
  if items.length ≤ names.length then some fun name => List.lookup name (names.zip items)
  else none

/-- The fields of a record. -/
def fields? (names : List String) : Json → Option Fields
  | .object members => membersFields? names members
  | .array items => itemsFields? names items
  | _ => none

/-! ## The values of fields -/

/-- A natural number below `bound`, written with figures alone. -/
def below? (bound : Nat) : Json → Option Nat
  | .number numeral => do
    let n ← if numeral.toList.all Char.isDigit then numeral.toNat? else none
    if n < bound then return n else none
  | _ => none

/-- A text. -/
def text? : Json → Option String
  | .string us => Text.ofUnits? us
  | _ => none

/-- What a field reads as, or `other` where it is not given. -/
def givenOr {α : Type} (field : Option Json) (read : Json → Option α) (other : α) : Option α :=
  match field with
  | some v => read v
  | none => some other

end Multiprecision.Json
