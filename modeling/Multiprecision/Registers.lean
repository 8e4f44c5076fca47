import Multiprecision.Arithmetic
import Multiprecision.Complex.Product
import Multiprecision.Integer.Hexadecimal
import Multiprecision.Integer.Machine
import Multiprecision.Random

/-!
# Multiprecision.Registers

A machine whose registers hold integers and whose instructions are the
operations on them.  An instruction changes one register and reads others
as they were before it; divisions change a second register, for the
remainder.  An instruction that fails changes nothing.
-/

namespace Multiprecision

/-- The registers of the machine; one that was never set holds zero. -/
abbrev Registers := List Integer

namespace Registers

def get (rs : Registers) (i : Nat) : Integer := rs.getD i .zero

def put (rs : Registers) (i : Nat) (x : Integer) : Registers := rs.set i x

/-- What an instruction does to its register, and what it reads from it. -/
inductive Operation where
  -- Sums
  | add (source : Nat)
  | sub (source : Nat)
  | subFrom (source : Nat)
  | neg
  | abs
  -- Machine words
  | mulWord (w : UInt32)
  | mulSignedWord (w : Int32)
  | divWord (w : UInt32)
  | divSignedWord (w : Int32)
  | remWord (w : UInt32)
  -- Shifts
  | shiftLeft (bits : Nat)
  | shiftRight (bits : Nat)
  | shiftLeftDigits (n : Nat)
  | shiftRightDigits (n : Nat)
  -- Bits and digits
  | setBit (i : Nat) (b : Bool)
  | bit (i : Nat)
  | digit (i : Nat)
  | bitWindow (source lo hi : Nat)
  | digitWindow (source lo hi : Nat)
  /-- Reads the place as a signed word, so that one from `2^63` on lies below
  the lowest digit. -/
  | scaled (unit : UInt64)
  | compareMagnitude (source : Nat)
  -- Values and storage
  | ofDigits (words : List Digit)
  | ofInt (i : Int)
  | ofDecimal (s : String)
  | ofHex (s : String)
  /-- A random number of at most `bits` bits, from the words that were drawn. -/
  | ofWords (bits : Nat) (words : List UInt32)
  | setSmall (n : Nat)
  | clear
  | zero
  | zeros (bits : Nat)
  | copy (source : Nat)
  | reserveBits (bits : Nat)
  | reserve (n : Nat)
  | trim
  | stored
  -- Products
  | mul (left right : Nat)
  | mulMagnitudes (left right : Nat)
  | mulBy (algorithm : Algorithm) (left right : Nat)
  | mulGradeSchool (left right : Nat)
  | mulComplex (left right : Nat)
  | square (source : Nat)
  | squareBy (algorithm : Algorithm) (source : Nat)
  | squareGradeSchool (source : Nat)
  -- Quotients: the register holds the dividend
  | divide (divisor remainder : Nat)
  | divideMagnitudes (divisor remainder : Nat)
  | divideLong (divisor remainder : Nat)
  | rem (divisor : Nat)
deriving Repr

/-- What an instruction reads. -/
inductive Reading where
  | nothing
  | bool (b : Bool)
  | word (w : UInt32)
  | float (x : Float)
  | order (o : Ordering)
  | digits (ds : List Digit)
deriving Repr

/-- What an operation makes of its register: the new value with a reading,
or a quotient with a remainder for a second register. -/
inductive Effect where
  | value (x : Integer) (reading : Reading := .nothing)
  | quotient (q r : Integer) (remainder : Nat)
deriving Repr

/-- Puts the results of an operation into the registers. -/
def apply (rs : Registers) (target : Nat) : Effect → Registers × Reading
  | .value x reading => (rs.put target x, reading)
  | .quotient q r remainder => ((rs.put target q).put remainder r, .nothing)

/-- The effect of an operation on a register that holds `x`. -/
def effect (t : Thresholds) (depth : Nat) (rs : Registers) (x : Integer) :
    Operation → Outcome Effect
  | .add s => return .value (x.add (rs.get s))
  | .sub s => return .value (x.sub (rs.get s))
  | .subFrom s => return .value (x.subFrom (rs.get s))
  | .neg => return .value x.neg
  | .abs => return .value x.abs
  | .mulWord w => return .value (x.mulWord w)
  | .mulSignedWord w => return .value (x.mulSignedWord w)
  | .divWord w => do
    let (q, r) ← x.divWord w
    return .value q (.word r)
  | .divSignedWord w => do
    let (q, r) ← x.divSignedWord w
    return .value q (.word r)
  | .remWord w => do
    let r ← x.remWord w
    return .value x (.word r)
  | .shiftLeft bits => return .value (x.shiftLeft bits)
  | .shiftRight bits => return .value (x.shiftRight bits)
  | .shiftLeftDigits n => return .value (x.shiftLeftDigits n)
  | .shiftRightDigits n => return .value (x.shiftRightDigits n)
  | .setBit i b => return .value (x.setBit i b)
  | .bit i => return .value x (.bool (x.bit i))
  | .digit i => return .value x (.word (x.digit i))
  | .bitWindow s lo hi => return .value ((rs.get s).bitWindow lo hi)
  | .digitWindow s lo hi => return .value ((rs.get s).digitWindow lo hi)
  | .scaled unit => return .value x (.float (x.scaled unit.toInt64.toInt))
  | .compareMagnitude s => return .value x (.order (x.compareMagnitude (rs.get s)))
  | .ofDigits words => return .value (.ofDigits words)
  | .ofInt i => return .value (.ofInt i)
  | .ofDecimal s => do
    let y ← Integer.ofDecimal s
    return .value y
  | .ofHex s => do
    let y ← Integer.ofHex s
    return .value y
  | .ofWords bits words => return .value (Random.ofWords bits words)
  | .setSmall n => return .value (x.setSmall n)
  | .clear => return .value x.cleared
  | .zero => return .value .zero
  | .zeros bits => return .value (.zeros bits)
  | .copy s => return .value (rs.get s).compact
  | .reserveBits bits => return .value (x.reserveBits bits)
  | .reserve n => return .value (x.reserve n)
  | .trim => return .value x.trim
  | .stored => return .value x (.digits x.digits)
  | .mul l r => do
    let y ← Product.signed t depth (.pair (rs.get l) (rs.get r)) x
    return .value y
  | .mulMagnitudes l r => do
    let y ← Product.magnitudes t depth (.pair (rs.get l) (rs.get r)) x
    return .value y
  | .mulBy algorithm l r => do
    let y ← Product.withAlgorithm t depth algorithm (.pair (rs.get l) (rs.get r)) x
    return .value y
  | .mulGradeSchool l r => do
    let y ← Integer.mulGradeSchool (rs.get l) (rs.get r) x
    return .value y
  | .mulComplex l r => do
    let y ← Complex.product (.pair (rs.get l) (rs.get r))
    return .value y
  | .square s => do
    let y ← Product.magnitudes t depth (.twice (rs.get s)) x
    return .value y
  | .squareBy algorithm s => do
    let y ← Product.withAlgorithm t depth algorithm (.twice (rs.get s)) x
    return .value y
  | .squareGradeSchool s => do
    let y ← Integer.squareGradeSchool (rs.get s) x
    return .value y
  | .divide s into => do
    let (q, r) ← (Arithmetic.ofThresholds t depth).divide x (rs.get s) (rs.get into)
    return .quotient q r into
  | .divideMagnitudes s into => do
    let multiply := fun f => Product.magnitudes t depth f .zero
    let (q, r) ← Quotient.magnitudes t multiply depth x (rs.get s) (rs.get into)
    return .quotient q r into
  | .divideLong s into => do
    let (q, r) ← Quotient.long x (rs.get s)
    return .quotient q r into
  | .rem s => do
    let r ← (Arithmetic.ofThresholds t depth).rem x (rs.get s)
    return .value r

/-- An operation and the register that it works on. -/
structure Instruction where
  target : Nat
  operation : Operation
deriving Repr

/-- Carries out one instruction. -/
def step (t : Thresholds) (depth : Nat) (rs : Registers) (i : Instruction) :
    Registers × Outcome Reading :=
  match effect t depth rs (rs.get i.target) i.operation with
  | .value e =>
    let (rs, reading) := rs.apply i.target e
    (rs, .value reading)
  | .failure e => (rs, .failure e)
  | .aborted => (rs, .aborted)
  | .exhausted => (rs, .exhausted)

/-- Carries out the instructions in turn, going on after those that fail. -/
def run (t : Thresholds) (depth : Nat) (rs : Registers) (is : List Instruction) : Registers :=
  is.foldl (fun rs i => (rs.step t depth i).1) rs

end Registers

end Multiprecision
