import Multiprecision.Thresholds

/-!
# Multiprecision.Thresholds.Overrides

Thresholds chosen for one run.  A zero leaves the threshold as it is, as
does one that is not given.
-/

namespace Multiprecision

/-- Thresholds to put in the place of others. -/
structure Overrides where
  toom2 : Option Nat := none
  toom3 : Option Nat := none
  transform64 : Option Nat := none
  transform128 : Option Nat := none
  fermat : Option Nat := none
  newton : Option Nat := none
deriving DecidableEq, Repr, Inhabited

namespace Overrides

/-- The value given, or `other` in place of zero or of none. -/
def pick (given : Option Nat) (other : Nat) : Nat := Thresholds.orElse (given.getD 0) other

/-- The thresholds with those given in place of their own, normalized. -/
def apply (o : Overrides) (t : Thresholds) : Thresholds :=
  Thresholds.normalize {
    toom2 := pick o.toom2 t.toom2
    toom3 := pick o.toom3 t.toom3
    transform64 := pick o.transform64 t.transform64
    transform128 := pick o.transform128 t.transform128
    fermat := pick o.fermat t.fermat
    newton := pick o.newton t.newton
    check := t.check }

/-- The values of `o`, and those of `other` where `o` gives none. -/
def orElse (o other : Overrides) : Overrides where
  toom2 := o.toom2 <|> other.toom2
  toom3 := o.toom3 <|> other.toom3
  transform64 := o.transform64 <|> other.transform64
  transform128 := o.transform128 <|> other.transform128
  fermat := o.fermat <|> other.fermat
  newton := o.newton <|> other.newton

end Overrides

end Multiprecision
