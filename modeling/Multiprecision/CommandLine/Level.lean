import Multiprecision.CommandLine.Usage

/-!
# Multiprecision.CommandLine.Level

Reading the arguments of one level of a command line: those before a
subcommand, or those behind it.  A level has switches, with or without a
value, and slots that arguments without a name fill in order.

The last value is read late: it is pending until the next switch or slot
needs its place, or the level ends.  So a value that cannot be read is
overlooked where an argument behind it is unknown.

After `--` all arguments fill slots.
-/

namespace Multiprecision.CommandLine

/-- A text as a change of what is given so far. -/
abbrev Reading (γ : Type) := String → Except Usage (γ → γ)

/-- What a switch does.  One without a value may have a short name. -/
inductive Effect (γ : Type) where
  | flag (short : Option Char) (set : γ → γ)
  | value (read : Reading γ)
  | stop (short : Option Char) (usage : Usage)

/-- An argument with a name. -/
structure Switch (γ : Type) where
  name : String
  effect : Effect γ

/-- The short name of a switch. -/
def Switch.short? {γ : Type} (w : Switch γ) : Option Char :=
  match w.effect with
  | .flag short _ | .stop short _ => short
  | .value _ => none

/-- The arguments that a level takes. -/
structure Level (γ : Type) where
  switches : List (Switch γ)
  slots : List (Reading γ) := []
  /-- Negative numbers are values and not short switches. -/
  negatives : Bool := false
  /-- What is wrong with an argument for which there is no slot.  The first
  argument says whether it stands behind `--`. -/
  stray : (trailing : Bool) → String → Usage := fun _ _ => .unknownArgument

namespace Level

/-- A value that is not yet read. -/
inductive Pending (γ : Type) where
  /-- A switch, with its value if that was met. -/
  | switch (name : String) (read : Reading γ) (value : Option String)
  | slot (read : Reading γ) (value : String)

/-- How far a level is read. -/
structure State (γ : Type) where
  given : γ
  /-- The switches given so far. -/
  seen : List String := []
  pending : Option (Pending γ) := none
  slots : List (Reading γ)
  /-- `--` was met. -/
  trailing : Bool := false

variable {γ : Type}

namespace State

/-- Before the first argument. -/
def start (level : Level γ) (given : γ) : State γ := { given, slots := level.slots }

/-- A switch waits for its value. -/
def isAwaiting (s : State γ) : Bool :=
  match s.pending with
  | some (.switch _ _ none) => !s.trailing
  | _ => false

/-- Changes what is given by a switch, which may be given once. -/
def give (s : State γ) (name : String) (change : Except Usage (γ → γ)) :
    Except Usage (State γ) := do
  if s.seen.contains name then throw .argumentConflict
  return { s with given := (← change) s.given, seen := name :: s.seen }

/-- Reads the pending value. -/
def settle (s : State γ) : Except Usage (State γ) :=
  let settled := { s with pending := none }
  match s.pending with
  | none => .ok s
  | some (.switch _ _ none) => .error .invalidValue
  | some (.switch name read (some text)) => settled.give name (read text)
  | some (.slot read text) => do
    return { settled with given := (← read text) s.given }

/-- Takes a switch, with the value that is attached to it. -/
def take (s : State γ) (w : Switch γ) (attached : Option String) :
    Except Usage (State γ) :=
  match w.effect, attached with
  | .value read, none => do
    return { ← s.settle with pending := some (.switch w.name read none) }
  | .value read, some text => do (← s.settle).give w.name (read text)
  | .flag _ _, some _ | .stop _ _, some _ => .error .tooManyValues
  | .flag _ set, none => do (← s.settle).give w.name (.ok set)
  | .stop _ usage, none => do
    let _ ← s.settle
    throw usage

/-- Takes an argument without a name. -/
def fill (level : Level γ) (s : State γ) (arg : String) : Except Usage (State γ) :=
  match s.slots with
  | [] => .error (level.stray s.trailing arg)
  | read :: rest => do
    return { ← s.settle with pending := some (.slot read arg), slots := rest }

/-- Takes a value, for the switch that waits for one or for a slot. -/
def takeValue (level : Level γ) (s : State γ) (arg : String) : Except Usage (State γ) :=
  match s.pending with
  | some (.switch name read none) =>
    .ok { s with pending := some (.switch name read (some arg)) }
  | _ => s.fill level arg

/-- Takes a switch by its name, with the value behind an equals sign. -/
def takeLong (level : Level γ) (s : State γ) (body : List Char) : Except Usage (State γ) :=
  let name := String.ofList (body.takeWhile (· ≠ '='))
  let attached :=
    match body.dropWhile (· ≠ '=') with
    | [] => none
    | _ :: value => some (String.ofList value)
  match level.switches.find? (·.name = name) with
  | some w => s.take w attached
  | none => .error .unknownArgument

/-- Takes switches by their short names. -/
def takeShort (level : Level γ) : State γ → List Char → Except Usage (State γ)
  | s, [] => .ok s
  | s, c :: rest =>
    match level.switches.find? (·.short? = some c) with
    | some w => do takeShort level (← s.take w none) rest
    | none => .error .unknownArgument

end State

/-- A number, seen from its shape: figures with at most one point, which is
not the first, and behind them an exponent mark, which is not the last. -/
def isNumeral (cs : List Char) : Bool :=
  let mantissa := cs.takeWhile fun c => c ≠ 'e' && c ≠ 'E'
  let exponent := cs.dropWhile fun c => c ≠ 'e' && c ≠ 'E'
  let figures := mantissa.filter (· ≠ '.')
  figures.all Char.isDigit && mantissa.length ≤ figures.length + 1 &&
    mantissa.head? ≠ some '.' &&
    match exponent with
    | [] => true
    | _ :: rest => !mantissa.isEmpty && !rest.isEmpty && rest.all Char.isDigit

/-- Takes one argument. -/
def step (level : Level γ) (s : State γ) (arg : String) : Except Usage (State γ) :=
  if s.trailing then s.fill level arg
  else
    match arg.toList with
    | ['-', '-'] => .ok { s with trailing := true }
    | '-' :: '-' :: body => s.takeLong level body
    | '-' :: c :: cs =>
      let expected := s.isAwaiting || !s.slots.isEmpty
      if level.negatives && expected && isNumeral (c :: cs) then s.takeValue level arg
      else s.takeShort level (c :: cs)
    | _ => s.takeValue level arg

/-- What all arguments of a level give. -/
def read (level : Level γ) (given : γ) (args : List String) : Except Usage γ := do
  let s ← (← args.foldlM level.step (.start level given)).settle
  if s.slots.isEmpty then return s.given else throw .missingRequiredArgument

end Level

end Multiprecision.CommandLine
