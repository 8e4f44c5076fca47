import Multiprecision.Json.Token

/-!
# Multiprecision.Json.Reader

Reading a value from its tokens, one at a time.  What is open and not yet
closed is a stack of frames; the state says what the next token may be.  A
bracket may be closed right after it was opened or after a part, and not
after a comma.
-/

namespace Multiprecision.Json

namespace Reader

/-- The members of an object read so far, the last one first. -/
abbrev Members := List (List UInt16 × Json)

/-- A bracket that is still open, with its parts read so far. -/
inductive Frame where
  | array (items : List Json)
  | object (members : Members) (name : List UInt16)

/-- What has just been read. -/
inductive State where
  /-- Something after which a value stands. -/
  | value
  /-- The opening of an array. -/
  | openedArray
  /-- The opening of an object. -/
  | openedObject
  /-- A comma in an object with these members. -/
  | nextMember (members : Members)
  /-- The name of a member. -/
  | named (members : Members) (name : List UInt16)
  /-- A whole value. -/
  | ended (value : Json)

/-- The state after the first token of a value. -/
def begin : Token → Option State
  | .openArray => some .openedArray
  | .openObject => some .openedObject
  | .string us => some (.ended (.string us))
  | .scalar v => some (.ended v)
  | _ => none

/-- The state and the open brackets after one more token. -/
def step : State × List Frame → Token → Option (State × List Frame)
  | (.value, fs), t => return (← begin t, fs)
  | (.openedArray, fs), .closeArray => some (.ended (.array []), fs)
  | (.openedArray, fs), t => return (← begin t, .array [] :: fs)
  | (.openedObject, fs), .closeObject => some (.ended (.object []), fs)
  | (.openedObject, fs), .string name => some (.named [] name, fs)
  | (.nextMember ms, fs), .string name => some (.named ms name, fs)
  | (.named ms name, fs), .colon => some (.value, .object ms name :: fs)
  | (.ended v, .array vs :: fs), .comma => some (.value, .array (v :: vs) :: fs)
  | (.ended v, .array vs :: fs), .closeArray => some (.ended (.array (v :: vs).reverse), fs)
  | (.ended v, .object ms name :: fs), .comma => some (.nextMember ((name, v) :: ms), fs)
  | (.ended v, .object ms name :: fs), .closeObject =>
    some (.ended (.object ((name, v) :: ms).reverse), fs)
  | _, _ => none

end Reader

/-- The value that a text stands for, if it is JSON. -/
def read? (s : String) : Option Json := do
  match ← (← Token.scan? s.toList).foldlM Reader.step (.value, []) with
  | (.ended v, []) => return v
  | _ => none

end Multiprecision.Json
