import Mathlib
import Multiprecision.NumberTheory.Bezout
import Multiprecision.Proofs.Arithmetic

/-!
# Multiprecision.Proofs.NumberTheory.Bezout

Euclid's algorithm over any exact arithmetic:

* `divisions_le` — two divisions halve a remainder, so the number of divisions is
  about twice the bits of the divisor, and the budget is enough;
* `gcdSteps_yields`, `gcd_yields` — a division keeps the greatest common
  divisor of two numbers that follow each other;
* `RowHolds` — a row writes its remainder as a combination of the arguments,
  which the next row inherits (`RowHolds.next`);
* `bezout_yields` — so the identity that is checked at the end always holds;
* `euclid_exact` — both loops end, with the greatest common divisor;
* `isInverse_coefficient` — the coefficient of a number that is prime to the
  modulus is its inverse, of which there is one only (`IsInverse.unique`);
* `inverse_exact` — so inverses are found exactly where there are any.
-/

namespace Multiprecision.NumberTheory

open Integer

variable {may : Endings} {A : Arithmetic} {x y : Integer} {i j : Int}

/-! ## Divisions -/

/-- The number of divisions that Euclid's algorithm makes of `i` and `j`. -/
def divisions (i j : Int) : Nat :=
  if j = 0 then 0 else divisions j (i % j) + 1
termination_by j.natAbs
decreasing_by
  next hj =>
    have hnonneg := Int.emod_nonneg i hj
    have hlt := Int.emod_lt_abs i hj
    rw [Int.abs_eq_natAbs] at hlt
    omega

theorem divisions_zero (i : Int) : divisions i 0 = 0 := by
  rw [divisions, if_pos rfl]

/-- A division by `j` is followed by those of `j` and the remainder. -/
theorem divisions_of_ne_zero (i : Int) (hj : j ≠ 0) :
    divisions i j = divisions j (i % j) + 1 := by
  rw [divisions, if_neg hj]

/-- Without a division the divisor is zero. -/
theorem eq_zero_of_divisions (h : divisions i j ≤ 0) : j = 0 := by
  by_contra hj
  rw [divisions_of_ne_zero i hj] at h
  omega

/-- Of any two remainders in a row, the second is less than half of what was
divided. -/
theorem two_mul_emod_lt (hi : 0 < i) (hlt : i < j) : 2 * (j % i) < j := by
  have hrem := Int.emod_lt_of_pos j hi
  have hquot : 1 ≤ j / i := Int.le_ediv_of_mul_le hi (by omega)
  have hsum := Int.mul_ediv_add_emod j i
  have hle : i ≤ i * (j / i) := le_mul_of_one_le_right hi.le hquot
  omega

/-- A divisor of `n` bits takes at most `2 * n` divisions. -/
theorem divisions_le_of_lt {n : Nat} (hj : 0 ≤ j) (hlt : j < 2 ^ n) :
    divisions i j ≤ 2 * n := by
  induction n generalizing i j with
  | zero =>
    have hzero : j = 0 := by omega
    rw [hzero, divisions_zero]
  | succ n ih =>
    by_cases hzero : j = 0
    · rw [hzero, divisions_zero]
      omega
    · have hpos : 0 < j := by omega
      rw [divisions_of_ne_zero i hzero]
      by_cases hrem : i % j = 0
      · rw [hrem, divisions_zero]
        omega
      · have hi : 0 < i % j := lt_of_le_of_ne (Int.emod_nonneg i hzero) (Ne.symm hrem)
        have hhalf := two_mul_emod_lt hi (Int.emod_lt_of_pos i hpos)
        have hrest := ih (i := i % j) (Int.emod_nonneg j hrem) (by rw [pow_succ] at hlt; omega)
        rw [divisions_of_ne_zero j hrem]
        omega

/-- The first remainder is not negative, whatever the signs, and smaller than
the divisor. -/
theorem divisions_le (i j : Int) : divisions i j ≤ 2 * j.natAbs.size + 1 := by
  by_cases hzero : j = 0
  · rw [hzero, divisions_zero]
    omega
  · have hsize : (j.natAbs : Int) < 2 ^ j.natAbs.size := by
      exact_mod_cast Nat.lt_size_self j.natAbs
    have hlt := Int.emod_lt_abs i hzero
    rw [Int.abs_eq_natAbs] at hlt
    have hrest := divisions_le_of_lt (i := j) (Int.emod_nonneg i hzero) (hlt.trans hsize)
    rw [divisions_of_ne_zero i hzero]
    omega

/-- The budget of the algorithm is enough. -/
theorem divisions_le_euclidSteps (hy : y.Denotes j) (i : Int) :
    divisions i j ≤ euclidSteps y := by
  have hle := divisions_le i j
  rw [euclidSteps, hy.bitLength]
  omega

/-! ## Greatest common divisors -/

/-- A step keeps the greatest common divisor. -/
theorem gcd_emod (i j : Int) : Int.gcd j (i % j) = Int.gcd i j := by
  have h := Int.gcd_add_mul_left_right j (i % j) (i / j)
  rwa [Int.emod_add_mul_ediv, Int.gcd_comm j i, eq_comm] at h

/-- Where the divisor is zero, the steps are over. -/
theorem gcdSteps_of_zero (hx : x.Denotes i) (hy : y.Denotes 0) (hi : 0 ≤ i) (A : Arithmetic)
    (fuel : Nat) : (gcdSteps A fuel x y).Yields may (·.Denotes (Int.gcd i 0)) := by
  have hstop : gcdSteps A fuel x y = .value x := by
    cases fuel <;> rw [gcdSteps, if_pos (hy.isZero_iff.mpr rfl)]
  rw [hstop, Int.gcd_zero_right, Int.natAbs_of_nonneg hi]
  exact hx

/-- Enough steps for all divisions reach the greatest common divisor. -/
theorem gcdSteps_yields (hA : A.Exact may) {fuel : Nat} (hfuel : divisions i j ≤ fuel)
    (hx : x.Denotes i) (hy : y.Denotes j) (hi : 0 ≤ i) (hj : 0 ≤ j) :
    (gcdSteps A fuel x y).Yields may (·.Denotes (Int.gcd i j)) := by
  induction fuel generalizing x y i j with
  | zero =>
    obtain rfl := eq_zero_of_divisions hfuel
    exact gcdSteps_of_zero hx hy hi A 0
  | succ fuel ih =>
    by_cases hzero : j = 0
    · subst hzero
      exact gcdSteps_of_zero hx hy hi A _
    · rw [divisions_of_ne_zero i hzero] at hfuel
      rw [gcdSteps, if_neg (mt hy.isZero_iff.mp hzero)]
      refine (hA.rem hx hy hzero).bind fun r hr => ?_
      exact gcd_emod i j ▸ ih (by omega) hy hr hj (Int.emod_nonneg i hzero)

/-- The greatest common divisor of any integers, over an exact arithmetic. -/
theorem gcd_yields (hA : A.Exact may) (hx : x.Denotes i) (hy : y.Denotes j) :
    (gcd A x y).Yields may (·.Denotes (Int.gcd i j)) := by
  have hfuel := divisions_le_euclidSteps hy.abs_natAbs i.natAbs
  have h := gcdSteps_yields hA hfuel hx.abs_natAbs hy.abs_natAbs (Int.natCast_nonneg _)
    (Int.natCast_nonneg _)
  rwa [Int.gcd_natCast_natCast] at h

/-! ## Bézout coefficients -/

variable {a b r s t r' s' t' : Int} {old new row : Row}

/-- A row that writes its remainder `r` as a combination of `a` and `b`. -/
structure RowHolds (a b : Int) (row : Row) (r s t : Int) : Prop where
  remainder : row.r.Denotes r
  left : row.s.Denotes s
  right : row.t.Denotes t
  sum : s * a + t * b = r

/-- The next row holds the remainder, with coefficients for it. -/
theorem RowHolds.next (hA : A.Exact may) (hold : RowHolds a b old r s t)
    (hnew : RowHolds a b new r' s' t') (hne : r' ≠ 0) :
    (Row.next A old new).Yields may fun row =>
      RowHolds a b row (r % r') (s - r / r' * s') (t - r / r' * t') := by
  refine (hA.divMod hold.remainder hnew.remainder hne).bind fun (q, r) ⟨hq, hr⟩ => ?_
  refine (hA.product hq hnew.left).bind fun qs hqs => ?_
  refine (hA.product hq hnew.right).bind fun qt hqt => ?_
  refine ⟨hr, hold.left.sub hqs, hold.right.sub hqt, ?_⟩
  rw [Int.emod_def, ← hold.sum, ← hnew.sum]
  ring

theorem RowHolds.neg (h : RowHolds a b row r s t) : RowHolds a b row.neg (-r) (-s) (-t) :=
  ⟨h.remainder.neg, h.left.neg, h.right.neg, by rw [← h.sum]; ring⟩

/-- Where the remainder is zero, the row before it holds the greatest common
divisor up to its sign. -/
theorem bezoutSteps_of_zero (hold : RowHolds a b old r s t) (hnew : RowHolds a b new 0 s' t')
    (A : Arithmetic) (fuel : Nat) :
    (bezoutSteps A fuel old new).Yields may fun row =>
      ∃ d u v, RowHolds a b row d u v ∧ d.natAbs = Int.gcd r 0 := by
  have hstop : bezoutSteps A fuel old new = .value old := by
    cases fuel <;> rw [bezoutSteps, if_pos (hnew.remainder.isZero_iff.mpr rfl)]
  rw [hstop, Int.gcd_zero_right]
  exact ⟨r, s, t, hold, rfl⟩

/-- Enough steps for all divisions reach such a row. -/
theorem bezoutSteps_yields (hA : A.Exact may) {fuel : Nat} (hfuel : divisions r r' ≤ fuel)
    (hold : RowHolds a b old r s t) (hnew : RowHolds a b new r' s' t') :
    (bezoutSteps A fuel old new).Yields may fun row =>
      ∃ d u v, RowHolds a b row d u v ∧ d.natAbs = Int.gcd r r' := by
  induction fuel generalizing old new r s t r' s' t' with
  | zero =>
    obtain rfl := eq_zero_of_divisions hfuel
    exact bezoutSteps_of_zero hold hnew A 0
  | succ fuel ih =>
    by_cases hzero : r' = 0
    · subst hzero
      exact bezoutSteps_of_zero hold hnew A _
    · rw [divisions_of_ne_zero r hzero] at hfuel
      rw [bezoutSteps, if_neg (mt hnew.remainder.isZero_iff.mp hzero)]
      refine (RowHolds.next hA hold hnew hzero).bind fun next hnext => ?_
      exact gcd_emod r r' ▸ ih (by omega) hnew hnext

/-- The coefficients write the greatest common divisor of `i` and `j`. -/
def Bezout.Holds (i j : Int) (z : Bezout) : Prop :=
  ∃ u v : Int, z.x.Denotes u ∧ z.y.Denotes v ∧ z.gcd.Denotes (Int.gcd i j) ∧
    u * i + v * j = Int.gcd i j

/-- The coefficients that are returned satisfy the identity, which is never
found to fail. -/
theorem bezout_yields (hA : A.Exact may) (hx : x.Denotes i) (hy : y.Denotes j) :
    (bezout A x y).Yields may (Bezout.Holds i j) := by
  have hold : RowHolds i j ⟨x, 1, .zero⟩ i 1 0 := ⟨hx, denotes_one, denotes_zero, by ring⟩
  have hnew : RowHolds i j ⟨y, .zero, 1⟩ j 0 1 := ⟨hy, denotes_zero, denotes_one, by ring⟩
  rw [bezout]
  refine (bezoutSteps_yields hA (divisions_le_euclidSteps hy i) hold hnew).bind ?_
  rintro last ⟨d, u, v, hlast, hd⟩
  have hsigned : ∃ u v, RowHolds i j (if last.r.isNegative then last.neg else last)
      (Int.gcd i j) u v := by
    rw [← hd]
    split
    · next hneg =>
      rw [hlast.remainder.isNegative_iff] at hneg
      refine ⟨-u, -v, ?_⟩
      rw [Int.ofNat_natAbs_of_nonpos hneg.le]
      exact hlast.neg
    · next hpos =>
      rw [hlast.remainder.isNegative_iff, not_lt] at hpos
      refine ⟨u, v, ?_⟩
      rw [Int.natAbs_of_nonneg hpos]
      exact hlast
  obtain ⟨u, v, hsigned⟩ := hsigned
  dsimp only
  set last := if last.r.isNegative then last.neg else last
  refine (hA.product hsigned.left hx).bind fun xa hxa => ?_
  refine (hA.product hsigned.right hy).bind fun yb hyb => ?_
  have hcheck : (xa.add yb).equals last.r = true :=
    ((hxa.add hyb).equals_iff hsigned.remainder).mpr hsigned.sum
  rw [hcheck]
  exact ⟨u, v, hsigned.left, hsigned.right, hsigned.remainder, hsigned.sum⟩

/-- The greatest common divisor is zero only for two zeros. -/
theorem Bezout.Holds.isZero_iff {z : Bezout} (h : z.Holds i j) :
    z.gcd.isZero = true ↔ i = 0 ∧ j = 0 := by
  obtain ⟨-, -, -, -, hgcd, -⟩ := h
  rw [hgcd.isZero_iff, Nat.cast_eq_zero, Int.gcd_eq_zero_iff]

/-- The check for coprime numbers is right. -/
theorem Bezout.Holds.isOne_iff {z : Bezout} (h : z.Holds i j) :
    z.gcd.isOne = true ↔ Int.gcd i j = 1 := by
  obtain ⟨-, -, -, -, hgcd, -⟩ := h
  rw [hgcd.isOne_iff, Nat.cast_eq_one]

/-- Where products and divisions are exact and return, Euclid's algorithm ends
for operands of any signs.  Its coefficients write the greatest common divisor,
which is zero for two zeros only, and without coefficients it finds the same.
Whatever the thresholds, it never fails. -/
theorem euclid_exact (hA : A.Exact .returning) (hx : x.Denotes i) (hy : y.Denotes j) :
    (∃ z g, bezout A x y = .value z ∧ z.Holds i j ∧ (z.gcd.isZero = true ↔ i = 0 ∧ j = 0) ∧
      gcd A x y = .value g ∧ g.Denotes (Int.gcd i j)) ∧
    ∀ t depth,
      (bezout (.ofThresholds t depth) x y).Yields .unfailing (Bezout.Holds i j) ∧
      (gcd (.ofThresholds t depth) x y).Yields .unfailing (·.Denotes (Int.gcd i j)) := by
  constructor
  · obtain ⟨z, hz, hholds⟩ := Outcome.yields_returning.mp (bezout_yields hA hx hy)
    obtain ⟨g, hg, hgcd⟩ := Outcome.yields_returning.mp (gcd_yields hA hx hy)
    exact ⟨z, g, hz, hholds, hholds.isZero_iff, hg, hgcd⟩
  · intro t depth
    have hexact := Arithmetic.ofThresholds_exact t depth
    exact ⟨bezout_yields hexact hx hy, gcd_yields hexact hx hy⟩

/-- A negative dividend with a place in reserve, and a negative divisor. -/
theorem euclid_exact_both_negative :
    Denotes ⟨true, [240, 0]⟩ (-240) ∧ Denotes ⟨true, [46]⟩ (-46) ∧
    bezout .ideal ⟨true, [240, 0]⟩ ⟨true, [46]⟩ = .value ⟨⟨false, [9, 0]⟩, ⟨true, [47, 0]⟩, 2⟩ ∧
    Bezout.Holds (-240) (-46) ⟨⟨false, [9, 0]⟩, ⟨true, [47, 0]⟩, 2⟩ ∧
    gcd .ideal ⟨true, [240, 0]⟩ ⟨true, [46]⟩ = .value 2 := by
  have hx : Denotes ⟨true, [240, 0]⟩ (-240) :=
    ⟨by simp [Canonical, Digits.base, Digits.isZero], by decide⟩
  have hy : Denotes ⟨true, [46]⟩ (-46) :=
    ⟨by simp [Canonical, Digits.base, Digits.isZero], by decide⟩
  have hrun : bezout .ideal ⟨true, [240, 0]⟩ ⟨true, [46]⟩ =
      .value ⟨⟨false, [9, 0]⟩, ⟨true, [47, 0]⟩, 2⟩ := by decide +kernel
  have hgcd : gcd .ideal ⟨true, [240, 0]⟩ ⟨true, [46]⟩ = .value 2 := by decide +kernel
  obtain ⟨⟨z, g, hz, hholds, -⟩, -⟩ := euclid_exact Arithmetic.ideal_exact hx hy
  obtain rfl := Outcome.value.inj (hrun.symm.trans hz)
  exact ⟨hx, hy, hrun, hholds, hgcd⟩

/-! ## Inverses -/

/-- An inverse modulo a positive number. -/
def IsInverse (i m u : Int) : Prop := 0 ≤ u ∧ u < m ∧ u * i ≡ 1 [ZMOD m]

/-- The coefficient of a number that is prime to the modulus. -/
theorem isInverse_coefficient {m u v : Int} (hm : 0 < m) (h : u * i + v * m = 1) :
    IsInverse i m (u % m) := by
  refine ⟨Int.emod_nonneg u hm.ne', Int.emod_lt_of_pos u hm, ?_⟩
  calc u % m * i ≡ u * i [ZMOD m] := (Int.mod_modEq u m).mul_right i
    _ ≡ u * i + v * m [ZMOD m] := (Int.add_mul_emod_self_right _ _ _).symm
    _ = 1 := h

/-- There is at most one inverse. -/
theorem IsInverse.unique {m u v : Int} (hu : IsInverse i m u) (hv : IsInverse i m v) : u = v := by
  have hmod : u ≡ v [ZMOD m] := by
    calc u = u * 1 := (mul_one u).symm
      _ ≡ u * (v * i) [ZMOD m] := hv.2.2.symm.mul_left u
      _ = v * (u * i) := by ring
      _ ≡ v * 1 [ZMOD m] := hu.2.2.mul_left v
      _ = v := mul_one v
  rwa [Int.ModEq, Int.emod_eq_of_lt hu.1 hu.2.1, Int.emod_eq_of_lt hv.1 hv.2.1] at hmod

/-- A modulus that is not positive is an invalid argument, for any arithmetic. -/
theorem inverse_invalid {m : Integer} {k : Int} (hm : m.Denotes k) (h : ¬ 0 < k) (a : Integer) :
    ∃ reason, ∀ A, inverse A a m = .failure (.invalidArgument reason) := by
  have hmodulus : m.isPositive = false := by
    rw [← Bool.not_eq_true, hm.isPositive_iff]
    exact h
  exact ⟨_, fun A => by rw [inverse, hmodulus]; rfl⟩

variable {m : Integer} {k : Int}

/-- Coprime numbers have an inverse, which is found. -/
theorem inverse_of_coprime (hA : A.Exact may) (hx : x.Denotes i) (hm : m.Denotes k)
    (hk : 0 < k) (hone : Int.gcd i k = 1) :
    (inverse A x m).Yields may fun v => ∃ u, v.Denotes u ∧ IsInverse i k u := by
  have hmodulus : m.isPositive = true := hm.isPositive_iff.mpr hk
  rw [inverse, hmodulus]
  refine (bezout_yields hA hx hm).bind fun z hz => ?_
  rw [hz.isOne_iff.mpr hone]
  obtain ⟨u, v, hu, -, -, hsum⟩ := hz
  rw [hone, Nat.cast_one] at hsum
  exact (hA.rem hu hm hk.ne').mono fun _ hr => ⟨_, hr, isInverse_coefficient hk hsum⟩

/-- Other numbers have none, and that is the error. -/
theorem inverse_of_not_coprime (hA : A.Exact .returning) (hx : x.Denotes i) (hm : m.Denotes k)
    (hk : 0 < k) (hone : Int.gcd i k ≠ 1) : inverse A x m = .failure .notInvertible := by
  have hmodulus : m.isPositive = true := hm.isPositive_iff.mpr hk
  obtain ⟨z, hz, hholds⟩ := Outcome.yields_returning.mp (bezout_yields hA hx hm)
  have hgcd : z.gcd.isOne = false := Bool.eq_false_iff.mpr (mt hholds.isOne_iff.mp hone)
  rw [inverse, hmodulus, hz, Outcome.value_bind, hgcd]
  rfl

/-- Where products and divisions are exact and return, there is an inverse of an
integer of any sign exactly modulo the positive numbers that it is prime to.  It
lies below the modulus, and no other number there is one.  Modulo other positive
numbers the integer is not invertible, and other moduli are refused as invalid. -/
theorem inverse_exact (hA : A.Exact .returning) (hx : x.Denotes i) (hm : m.Denotes k) :
    ((∃ reason, inverse A x m = .failure (.invalidArgument reason)) ↔ k ≤ 0) ∧
    (inverse A x m = .failure .notInvertible ↔ 0 < k ∧ Int.gcd i k ≠ 1) ∧
    ((∃ v, inverse A x m = .value v) ↔ 0 < k ∧ Int.gcd i k = 1) ∧
    ∀ v, inverse A x m = .value v →
      ∃ u, v.Denotes u ∧ IsInverse i k u ∧ (∀ w, IsInverse i k w → w = u) ∧ (k = 1 → u = 0) := by
  by_cases hk : 0 < k
  · by_cases hone : Int.gcd i k = 1
    · obtain ⟨v, hv, u, hu, hinverse⟩ :=
        Outcome.yields_returning.mp (inverse_of_coprime hA hx hm hk hone)
      rw [hv]
      refine ⟨by simp [hk], by simp [hone], by simp [hk, hone], ?_⟩
      rintro _ ⟨⟩
      refine ⟨u, hu, hinverse, fun w hw => hw.unique hinverse, fun hmodulus => ?_⟩
      obtain ⟨hnonneg, hlt, -⟩ := hinverse
      omega
    · rw [inverse_of_not_coprime hA hx hm hk hone]
      exact ⟨by simp [hk], by simp [hk, hone], by simp [hone], by simp⟩
  · obtain ⟨reason, hreason⟩ := inverse_invalid hm hk x
    rw [hreason A]
    exact ⟨by simp [not_lt.mp hk], by simp [hk], by simp [hk], by simp⟩

/-- A negative integer that is prime to seven, but not to six. -/
theorem inverse_exact_seven :
    Denotes ⟨true, [3, 0]⟩ (-3) ∧ Denotes 7 7 ∧
    inverse .ideal ⟨true, [3, 0]⟩ 7 = .value 2 ∧ IsInverse (-3) 7 2 ∧
    inverse .ideal ⟨true, [3, 0]⟩ 6 = .failure .notInvertible := by
  have hx : Denotes ⟨true, [3, 0]⟩ (-3) :=
    ⟨by simp [Canonical, Digits.base, Digits.isZero], by decide⟩
  have hseven : Denotes 7 7 := denotes_ofNat 7
  have hsix : Denotes 6 6 := denotes_ofNat 6
  have hrun : inverse .ideal ⟨true, [3, 0]⟩ 7 = .value 2 := by decide +kernel
  obtain ⟨-, -, -, hinverse⟩ := inverse_exact Arithmetic.ideal_exact hx hseven
  obtain ⟨-, hrefused, -, -⟩ := inverse_exact Arithmetic.ideal_exact hx hsix
  obtain ⟨u, hu, hisInverse, -⟩ := hinverse 2 hrun
  rw [hu.toInt.symm.trans (denotes_ofNat 2).toInt] at hisInverse
  exact ⟨hx, hseven, hrun, hisInverse, hrefused.mpr (by decide)⟩

end Multiprecision.NumberTheory
