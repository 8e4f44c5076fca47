/-!
# Multiprecision.Thresholds

The operand sizes from which one algorithm replaces another.  They affect
speed and not results, with one proviso: an algorithm that splits its
operands must hand smaller ones on.  `normalize` sees to the sizes below
which a split would not shrink, and to the order of the product thresholds.
It lets transforms with 128 parts begin at 128 bits, where they do not shrink.
-/

namespace Multiprecision

/-- Sizes in bits from which each algorithm is used. -/
structure Thresholds where
  /-- Toom-1.5 and Toom-2 replace the schoolbook product. -/
  toom2 : Nat := 2500
  /-- Toom-2.5 and Toom-3 replace those. -/
  toom3 : Nat := 80000
  /-- Schönhage–Strassen with 64 parts replaces Toom. -/
  transform64 : Nat := 10000000
  /-- Schönhage–Strassen with 128 parts replaces that with 64. -/
  transform128 : Nat := 50000000
  /-- A product in a Fermat ring is itself computed by a transform. -/
  fermat : Nat := 70000
  /-- Newton division replaces long division. -/
  newton : Nat := 350000
  /-- The largest exponent of a Fermat ring whose convolutions are checked
  against the direct ones. -/
  check : Nat := 0
deriving DecidableEq, Repr, Inhabited

namespace Thresholds

/-- The thresholds in force when no others are chosen. -/
def default : Thresholds := {}

/-- The least threshold for Toom-2: four digits. -/
def leastToom2 : Nat := 120

/-- The least threshold for transforms in a Fermat ring. -/
def leastFermat : Nat := 1024

/-- The least threshold for Newton division. -/
def leastNewton : Nat := 64

/-- `n`, or `other` in place of zero. -/
def orElse (n other : Nat) : Nat := if n = 0 then other else n

/-- Puts defaults for zeros, raises each threshold to its least value, and
then each product threshold to the one before it. -/
def normalize (t : Thresholds) : Thresholds :=
  let toom2 := max (orElse t.toom2 default.toom2) leastToom2
  let toom3 := max (orElse t.toom3 default.toom3) toom2
  let transform64 := max (orElse t.transform64 default.transform64) toom3
  let transform128 := max (orElse t.transform128 default.transform128) transform64
  { toom2, toom3, transform64, transform128
    fermat := max (orElse t.fermat default.fermat) leastFermat
    newton := max (orElse t.newton default.newton) leastNewton
    check := t.check }

/-- The product thresholds ascend, and none is below its least value. -/
def isValid (t : Thresholds) : Bool :=
  leastToom2 ≤ t.toom2 && t.toom2 ≤ t.toom3 && t.toom3 ≤ t.transform64 &&
    t.transform64 ≤ t.transform128 && leastFermat ≤ t.fermat && leastNewton ≤ t.newton

/-! ## Thresholds in force -/

/-- A change of the thresholds that are in force while a program runs. -/
inductive Change where
  /-- Puts others in force, once they are normalized. -/
  | install (t : Thresholds)
  /-- Puts the default ones in force. -/
  | reset
deriving DecidableEq, Repr

/-- The thresholds in force after a change. -/
def after (_ : Thresholds) : Change → Thresholds
  | .install t => t.normalize
  | .reset => default

/-- The thresholds in force after changes in turn; at the start they are the
default ones. -/
def inForce (changes : List Change) : Thresholds := changes.foldl after default

end Thresholds

end Multiprecision
