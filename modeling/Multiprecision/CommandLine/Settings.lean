import Multiprecision.CommandLine.Computation
import Multiprecision.CommandLine.Level
import Multiprecision.CommandLine.Value
import Multiprecision.Thresholds.Overrides

/-!
# Multiprecision.CommandLine.Settings

The command line.  Switches of general use may stand before or behind the
subcommand; where both give a value, the one behind it counts.
-/

namespace Multiprecision.CommandLine

/-- What to do. -/
inductive Command where
  | compute (c : Computation)
  /-- Measure the thresholds: those of every boundary, or of a few. -/
  | calibrate (full dryRun : Bool)

/-- What a command line asks for. -/
structure Settings where
  /-- Print numbers in hexadecimal. -/
  hex : Bool := false
  /-- Report no progress. -/
  quiet : Bool := false
  /-- Start from the thresholds of the saved profile. -/
  profile : Bool := false
  overrides : Overrides := {}
  /-- Print what a shell needs to complete arguments. -/
  completion : Option Shell := none
  command : Option Command := none

/-- What the arguments of a level give. -/
structure Given extends Settings where
  operands : List Integer := []
  exponent : Option UInt32 := none
  probability : Option Float := none
  full : Bool := false
  dryRun : Bool := false

namespace Given

/-! ## Switches -/

/-- A switch that sets a threshold. -/
def override (name : String) (set : Nat → Overrides → Overrides) : Switch Given where
  name := name
  effect := .value fun s => do
    let n ← Value.word64 s
    return fun g => { g with overrides := set n g.overrides }

/-- Switches of general use. -/
def general : List (Switch Given) :=
  [⟨"hex", .flag none fun g => { g with hex := true }⟩,
    ⟨"quiet", .flag (some 'q') fun g => { g with quiet := true }⟩,
    ⟨"profile", .flag none fun g => { g with profile := true }⟩,
    override "toom2-threshold" fun n o => { o with toom2 := some n },
    override "toom3-threshold" fun n o => { o with toom3 := some n },
    override "ssa6-threshold" fun n o => { o with transform64 := some n },
    override "ssa7-threshold" fun n o => { o with transform128 := some n },
    override "ssa-mod-fermat-threshold" fun n o => { o with fermat := some n },
    override "newton-threshold" fun n o => { o with newton := some n },
    ⟨"help", .stop (some 'h') .displayHelp⟩]

/-- Switches that stand before a subcommand only. -/
def leading : List (Switch Given) :=
  [⟨"completion", .value fun s => do
      let shell ← Value.shell s
      return fun g => { g with completion := some shell }⟩,
    ⟨"version", .stop (some 'V') .displayVersion⟩]

/-- The switch for the chance of taking a composite for a prime. -/
def probabilitySwitch : Switch Given where
  name := "probability"
  effect := .value fun s => do
    let p ← Value.real s
    return fun g => { g with probability := some p }

/-- The switches of a calibration. -/
def calibrationSwitches : List (Switch Given) :=
  [⟨"full", .flag none fun g => { g with full := true }⟩,
    ⟨"dry-run", .flag none fun g => { g with dryRun := true }⟩]

/-! ## Slots -/

/-- A slot for an operand. -/
def operandSlot : Reading Given := fun s => do
  let x ← Value.operand s
  return fun g => { g with operands := g.operands ++ [x] }

/-- A slot for an exponent that is a machine word. -/
def exponentSlot : Reading Given := fun s => do
  let e ← Value.word32 s
  return fun g => { g with exponent := some e }

end Given

/-! ## Subcommands -/

/-- A subcommand: its arguments, and the command that they make. -/
structure Subcommand where
  name : String
  slots : List (Reading Given) := []
  switches : List (Switch Given) := []
  negatives : Bool := true
  command : Given → Option Command

namespace Subcommand

open Given

/-- A subcommand with `arity` operands. -/
def ofOperands (name : String) (arity : Nat) (make : List Integer → Option Computation) :
    Subcommand where
  name := name
  slots := List.replicate arity operandSlot
  command g := (make g.operands).map .compute

/-- A computation with two operands. -/
def pair (make : Integer → Integer → Computation) : List Integer → Option Computation
  | [a, b] => some (make a b)
  | _ => none

/-- All subcommands. -/
def all : List Subcommand :=
  [ofOperands "mul" 2 (pair .mul),
    ofOperands "square" 1 fun
      | [x] => some (.square x)
      | _ => none,
    ofOperands "div" 2 (pair .div),
    { name := "pow"
      slots := [operandSlot, exponentSlot]
      command := fun g => match g.operands, g.exponent with
        | [base], some e => some (.compute (.pow base e))
        | _, _ => none },
    ofOperands "powmod" 3 fun
      | [base, exponent, modulus] => some (.powMod base exponent modulus)
      | _ => none,
    { name := "is-prime"
      slots := [operandSlot]
      switches := [probabilitySwitch]
      command := fun g => match g.operands with
        | [n] => some (.compute (.isPrime n
            (g.probability.getD NumberTheory.defaultProbability)))
        | _ => none },
    ofOperands "gcd" 2 (pair .gcd),
    ofOperands "inverse" 2 (pair .inverse),
    { name := "calibrate"
      switches := calibrationSwitches
      negatives := false
      command := fun g => some (.calibrate g.full g.dryRun) }]

/-- The subcommand of a name. -/
def find? (name : String) : Option Subcommand := all.find? (·.name = name)

/-- The subcommand that shows help. -/
def helpName : String := "help"

/-- The name is that of a subcommand. -/
def isName (name : String) : Bool := name = helpName || (find? name).isSome

/-- The arguments of a subcommand. -/
def level (c : Subcommand) : Level Given where
  switches := c.switches ++ general
  slots := c.slots
  negatives := c.negatives

/-- What the arguments behind a subcommand ask for. -/
def read (c : Subcommand) (args : List String) : Except Usage Settings := do
  let g ← c.level.read {} args
  match c.command g with
  | some command => return { g.toSettings with command := some command }
  | none => throw .missingRequiredArgument

end Subcommand

/-! ## The command line -/

namespace Settings

/-- The arguments before a subcommand.  What is no switch should have been a
subcommand; behind `--` the name of one is out of place. -/
def level : Level Given where
  switches := Given.leading ++ Given.general
  stray trailing arg :=
    if trailing && Subcommand.isName arg then .unknownArgument else .invalidSubcommand

/-- The settings of both levels. -/
def join (before behind : Settings) : Settings where
  hex := before.hex || behind.hex
  quiet := before.quiet || behind.quiet
  profile := before.profile || behind.profile
  overrides := behind.overrides.orElse before.overrides
  completion := before.completion
  command := behind.command

/-- What help is asked about: everything, or one subcommand. -/
def help : List String → Usage
  | [] => .displayHelp
  | [name] => if Subcommand.isName name then .displayHelp else .invalidSubcommand
  | _ => .invalidSubcommand

/-- Reads the arguments from the given state on.  The pending value in front
of a subcommand is read after the subcommand's arguments. -/
def readFrom (s : Level.State Given) : List String → Except Usage Settings
  | [] => return (← s.settle).given.toSettings
  | arg :: rest =>
    if s.trailing || s.isAwaiting then do readFrom (← level.step s arg) rest
    else if arg = Subcommand.helpName then .error (help rest)
    else
      match Subcommand.find? arg with
      | some c => do
        let behind ← c.read rest
        return join (← s.settle).given.toSettings behind
      | none => do readFrom (← level.step s arg) rest

/-- What a command line asks for. -/
def read (args : List String) : Except Usage Settings := readFrom (.start level {}) args

end Settings

end Multiprecision.CommandLine
