import Mathlib
import Multiprecision.Arithmetic
import Multiprecision.Proofs.Quotient

/-!
# Multiprecision.Proofs.Arithmetic

What algorithms on numbers rely on: products that are exact, and Euclidean
quotients and remainders of which only those by zero fail
(`Arithmetic.Exact`).  The arithmetic of any thresholds is exact
(`Arithmetic.ofThresholds_exact`), and nothing else is known of the thresholds
beyond this point.  `Arithmetic.ideal` is one that also returns every time.
-/

namespace Multiprecision.Arithmetic

open Integer

/-- Products and divisions give the exact results, if they give any.  A
division by zero fails, and nothing else does. -/
structure Exact (may : Endings) (A : Arithmetic) : Prop where
  mul : ∀ {f : Factors}, f.Canonical → ∀ into, (A.mul f into).Yields may (·.Denotes f.toInt)
  divide : ∀ {a b : Integer} {i j : Int}, a.Denotes i → b.Denotes j → j ≠ 0 → ∀ into,
    (A.divide a b into).Yields may fun (q, r) => q.Denotes (i / j) ∧ r.Denotes (i % j)
  divide_zero : ∀ {b : Integer}, b.isZero = true → ∀ a into,
    A.divide a b into = .failure .divideByZero

/-- The arithmetic under any thresholds is exact wherever it returns, and never
ends in an error. -/
theorem ofThresholds_exact (t : Thresholds) (depth : Nat) :
    (ofThresholds t depth).Exact .unfailing where
  mul hf into := Product.signed_yields t depth hf into
  divide ha hb hj into :=
    ((Quotient.ofThresholds_divide_yields t depth ha hb into).mono fun _ h => h.2).weaken hj
      id id
  divide_zero hb a into := Quotient.divide_zero hb t _ depth a into

/-- The arithmetic that goes over to the integers and back. -/
def ideal : Arithmetic where
  mul f _ := .value (.ofInt f.toInt)
  divide a b _ :=
    if b.isZero then .failure .divideByZero
    else .value (.ofInt (a.toInt / b.toInt), .ofInt (a.toInt % b.toInt))

/-- The integers themselves are an exact arithmetic that always returns. -/
theorem ideal_exact : ideal.Exact .returning where
  mul _ _ := denotes_ofInt _
  divide ha hb hj _ := by
    simp only [ideal, hb.isZero_eq_false_iff.mpr hj, Bool.false_eq_true, if_false, ha.toInt,
      hb.toInt]
    exact ⟨denotes_ofInt _, denotes_ofInt _⟩
  divide_zero hb _ _ := if_pos hb

variable {may : Endings} {A : Arithmetic} {x y : Integer} {i j : Int}

/-- A product into an integer, by value. -/
theorem Exact.mul_pair (hA : A.Exact may) (hx : x.Denotes i) (hy : y.Denotes j)
    (into : Integer) : (A.mul (.pair x y) into).Yields may (·.Denotes (i * j)) := by
  have h := hA.mul (.pair hx hy) into
  rwa [Factors.toInt, hx.toInt, hy.toInt] at h

/-- A square into an integer, by value. -/
theorem Exact.mul_twice (hA : A.Exact may) (hx : x.Denotes i) (into : Integer) :
    (A.mul (.twice x) into).Yields may (·.Denotes (i * i)) := by
  have h := hA.mul (f := .twice x) hx.canonical into
  rwa [Factors.toInt, hx.toInt] at h

theorem Exact.product (hA : A.Exact may) (hx : x.Denotes i) (hy : y.Denotes j) :
    (A.product x y).Yields may (·.Denotes (i * j)) := hA.mul_pair hx hy .zero

theorem Exact.square (hA : A.Exact may) (hx : x.Denotes i) :
    (A.square x).Yields may (·.Denotes (i * i)) := hA.mul_twice hx .zero

/-- The quotient and the remainder are those of the Euclidean division. -/
theorem Exact.divMod (hA : A.Exact may) (hx : x.Denotes i) (hy : y.Denotes j) (hj : j ≠ 0) :
    (A.divMod x y).Yields may fun (q, r) => q.Denotes (i / j) ∧ r.Denotes (i % j) :=
  hA.divide hx hy hj .zero

/-- The remainder alone is that of the Euclidean division. -/
theorem Exact.rem (hA : A.Exact may) (hx : x.Denotes i) (hy : y.Denotes j) (hj : j ≠ 0) :
    (A.rem x y).Yields may (·.Denotes (i % j)) :=
  (hA.divMod hx hy hj).bind fun _ h => h.2

end Multiprecision.Arithmetic
