import Mathlib
import Multiprecision.Registers
import Multiprecision.Proofs.Product
import Multiprecision.Proofs.Quotient.Precision

/-!
# Multiprecision.Proofs.Quotient

Division is Euclidean by either algorithm:

* `magnitudes_yields` — the quotient and the remainder of the magnitudes;
* `euclidean_denotes` — the signs, which may cost one more multiple of the
  divisor;
* `divide_exact` — so a quotient and a remainder that are returned are the
  Euclidean ones, for all thresholds.
-/

namespace Multiprecision.Quotient

open Integer

variable {may : Endings} {multiply : Multiplier} {a b q r : Integer} {i j : Int}

/-- Either algorithm divides magnitudes exactly, and only by something. -/
theorem magnitudes_yields (hfail : j = 0 → may.fail) {budget : Nat}
    (hbudget : may.exhaust ∨ 1 ≤ budget) (hm : multiply.ExactOn may fun _ => True) (t : Thresholds)
    (ha : a.Denotes i) (hb : b.Denotes j) (into : Integer) :
    (magnitudes t multiply budget a b into).Yields may fun (q, r) => j ≠ 0 ∧
      Denotes q (i.natAbs / j.natAbs : Nat) ∧ Denotes r (i.natAbs % j.natAbs : Nat) := by
  rw [magnitudes]
  split
  · next hzero => exact hfail (hb.isZero_iff.mp hzero)
  · next hzero =>
    rw [hb.isZero_iff] at hzero
    split
    · exact (long_yields ha hb hzero).mono fun _ h => ⟨hzero, h⟩
    · have hnewton := hbudget.elim (newton_yields · hm budget ha hb hzero into)
        (newton_ends hm ha hb hzero · into)
      exact hnewton.mono fun _ h => ⟨hzero, h⟩

/-! ## Signs -/

/-- A magnitude with the sign of a quotient of `i` by `j`. -/
def signed (i j : Int) (n : Nat) : Int := if i < 0 ↔ j < 0 then n else -n

/-- The quotient is negative if just one of the operands is, unless it is zero. -/
theorem denotes_signed (ha : a.Denotes i) (hb : b.Denotes j) {n : Nat} (hq : q.Denotes n) :
    ({ q with negative := a.negative != b.negative } : Integer).normalizeSign.Denotes
      (signed i j n) := by
  have h := denotes_withSign (s := a.negative != b.negative) hq.inRange hq.value_digits
  convert h using 1
  rw [signed, ha.negative, hb.negative, Int.natAbs_natCast]
  by_cases hi : i < 0 <;> by_cases hj : j < 0 <;> simp [hi, hj]

/-- A multiple of the divisor has the sign of the dividend. -/
theorem signed_mul (i j : Int) (n : Nat) :
    j * signed i j n = if i < 0 then -((j.natAbs * n : Nat) : Int) else (j.natAbs * n : Nat) := by
  rw [signed, Nat.cast_mul]
  rcases lt_or_ge j 0 with hj | hj
  · rw [Int.ofNat_natAbs_of_nonpos hj.le]
    by_cases hi : i < 0 <;> simp [hi, hj]
  · rw [Int.natAbs_of_nonneg hj]
    by_cases hi : i < 0 <;> simp [hi, hj.not_gt]

/-- A quotient whose multiple leaves a small remainder is the Euclidean one. -/
theorem ediv_emod_eq_signed (hj : j ≠ 0) {n m : Nat} (hlt : m < j.natAbs)
    (hsum : (if i < 0 then -((j.natAbs * n : Nat) : Int) else (j.natAbs * n : Nat)) + m = i) :
    i / j = signed i j n ∧ i % j = m := by
  refine (Int.ediv_emod_unique'' hj).mpr ⟨?_, Int.natCast_nonneg m, ?_⟩
  · rw [signed_mul, add_comm, hsum]
  · rw [Int.abs_eq_natAbs]
    exact_mod_cast hlt

/-- The quotient and the remainder of the magnitudes become the Euclidean
ones. -/
theorem euclidean_denotes (ha : a.Denotes i) (hb : b.Denotes j) (hj : j ≠ 0)
    (hq : q.Denotes (i.natAbs / j.natAbs : Nat)) (hr : r.Denotes (i.natAbs % j.natAbs : Nat)) :
    (euclidean a b q r).1.Denotes (i / j) ∧ (euclidean a b q r).2.Denotes (i % j) := by
  have hsum := Nat.div_add_mod i.natAbs j.natAbs
  have hlt := Nat.mod_lt i.natAbs (Int.natAbs_pos.mpr hj)
  set Q := i.natAbs / j.natAbs
  set R := i.natAbs % j.natAbs
  have hcondition : (a.negative && !r.isZero) = true ↔ i < 0 ∧ R ≠ 0 := by
    rw [Bool.and_eq_true, ha.negative, decide_eq_true_eq, Bool.not_eq_true',
      hr.isZero_eq_false_iff, Nat.cast_ne_zero]
  by_cases hfix : i < 0 ∧ R ≠ 0
  · have hq' := hq.addMagnitude denotes_one (Int.natCast_nonneg Q)
    have hr' := hr.subFrom hb.abs_natAbs
    rw [← Nat.cast_sub hlt.le] at hr'
    obtain ⟨hquotient, hremainder⟩ := ediv_emod_eq_signed (i := i) (n := Q + 1) (m := j.natAbs - R)
      hj (by omega) (by rw [if_pos hfix.1, Nat.mul_succ]; omega)
    rw [hquotient, hremainder]
    simp only [euclidean, if_pos (hcondition.mpr hfix)]
    exact ⟨denotes_signed ha hb hq', hr'⟩
  · obtain ⟨hquotient, hremainder⟩ := ediv_emod_eq_signed (i := i) (n := Q) (m := R) hj hlt
      (by split <;> omega)
    rw [hquotient, hremainder]
    simp only [euclidean, if_neg (hcondition.not.mpr hfix)]
    exact ⟨denotes_signed ha hb hq, hr⟩

/-! ## Division -/

/-- A division by something other than zero has no failures, and values are the
Euclidean quotient and remainder. -/
theorem divide_yields (hfail : j = 0 → may.fail) {budget : Nat}
    (hbudget : may.exhaust ∨ 1 ≤ budget) (hm : multiply.ExactOn may fun _ => True) (t : Thresholds)
    (ha : a.Denotes i) (hb : b.Denotes j) (into : Integer) :
    (divide t multiply budget a b into).Yields may fun (q, r) => j ≠ 0 ∧
      Denotes q (i / j) ∧ Denotes r (i % j) := by
  rw [divide]
  refine (magnitudes_yields hfail hbudget hm t ha hb into).bind ?_
  rintro ⟨q, r⟩ ⟨hj, hq, hr⟩
  exact ⟨hj, euclidean_denotes ha hb hj hq hr⟩

/-- A division by zero is an error, whatever else is given. -/
theorem divide_zero (hb : b.isZero = true) (t : Thresholds) (multiply : Multiplier)
    (budget : Nat) (a into : Integer) :
    divide t multiply budget a b into = .failure .divideByZero := by
  rw [divide, magnitudes, if_pos hb]
  rfl

/-- A division under any thresholds is exact if it returns, and fails only for a
divisor of zero. -/
theorem ofThresholds_divide_yields (t : Thresholds) (depth : Nat) (ha : a.Denotes i)
    (hb : b.Denotes j) (into : Integer) :
    ((Arithmetic.ofThresholds t depth).divide a b into).Yields ⟨j = 0, True, True⟩ fun (q, r) =>
      j ≠ 0 ∧ Denotes q (i / j) ∧ Denotes r (i % j) := by
  have hm : Multiplier.ExactOn ⟨j = 0, True, True⟩ (fun _ => True) fun f =>
      Product.magnitudes t depth f .zero :=
    fun _ hf _ => (Product.magnitudes_yields t depth hf .zero).weaken nofun id id
  exact divide_yields id (.inl trivial) hm t ha hb into

/-- A quotient and a remainder that a division returns are the Euclidean ones,
canonical, whatever the thresholds, the depth and the integer that the
remainder is written into; so any two divisions agree, and with them the two
algorithms.  A division by zero is an error that leaves the registers as they
were. -/
theorem divide_exact (t : Thresholds) (depth : Nat) {a b : Integer} (ha : a.Canonical)
    (hb : b.Canonical) (into : Integer) :
    (∀ q r, (Arithmetic.ofThresholds t depth).divide a b into = .value (q, r) →
      b.toInt ≠ 0 ∧ a.toInt = q.toInt * b.toInt + r.toInt ∧ 0 ≤ r.toInt ∧ r.toInt < |b.toInt| ∧
        q.Canonical ∧ r.Canonical ∧
        ∀ t' depth' into' q' r',
          (Arithmetic.ofThresholds t' depth').divide a b into' = .value (q', r') →
            q'.toInt = q.toInt ∧ r'.toInt = r.toInt) ∧
    (b.toInt = 0 → (Arithmetic.ofThresholds t depth).divide a b into = .failure .divideByZero ∧
      ∀ (rs : Registers) (target divisor remainder : Nat), rs.get divisor = b →
        rs.step t depth ⟨target, .divide divisor remainder⟩ = (rs, .failure .divideByZero)) := by
  refine ⟨fun q r hvalue => ?_, fun hzero => ?_⟩
  · obtain ⟨hne, hq, hr⟩ :=
      (ofThresholds_divide_yields t depth ha.denotes hb.denotes into).of_value hvalue
    refine ⟨hne, ?_, ?_, ?_, hq.canonical, hr.canonical, fun t' depth' into' q' r' hvalue' => ?_⟩
    · rw [hq.toInt, hr.toInt, Int.ediv_mul_add_emod]
    · rw [hr.toInt]
      exact Int.emod_nonneg _ hne
    · rw [hr.toInt]
      exact Int.emod_lt_abs _ hne
    · obtain ⟨-, hq', hr'⟩ :=
        (ofThresholds_divide_yields t' depth' ha.denotes hb.denotes into').of_value hvalue'
      exact ⟨hq'.toInt.trans hq.toInt.symm, hr'.toInt.trans hr.toInt.symm⟩
  · have hb0 := hb.denotes.isZero_iff.mpr hzero
    refine ⟨divide_zero hb0 t _ depth a into, fun rs target divisor remainder hdivisor => ?_⟩
    have heffect : rs.effect t depth (rs.get target) (.divide divisor remainder) =
        .failure .divideByZero := by
      subst hdivisor
      simp only [Registers.effect, Arithmetic.ofThresholds, divide_zero hb0]
      rfl
    rw [Registers.step, heffect]

/-- The quotient of -5 by 7, with a place in reserve, rounded down so that the
remainder is not negative. -/
theorem divide_exact_minus_five :
    Canonical ⟨true, [5, 0]⟩ ∧ Canonical ⟨false, [7]⟩ ∧
      (Arithmetic.ofThresholds {} 3).divide ⟨true, [5, 0]⟩ ⟨false, [7]⟩ ⟨true, [9, 9]⟩ =
        .value (⟨true, [1, 0]⟩, ⟨false, [2]⟩) ∧
      (⟨true, [5, 0]⟩ : Integer).toInt =
        (⟨true, [1, 0]⟩ : Integer).toInt * (⟨false, [7]⟩ : Integer).toInt +
          (⟨false, [2]⟩ : Integer).toInt := by
  have ha : Canonical ⟨true, [5, 0]⟩ := ⟨by simp [Digits.base], fun _ => rfl⟩
  have hb : Canonical ⟨false, [7]⟩ := ⟨by simp [Digits.base], fun _ => rfl⟩
  have hrun : (Arithmetic.ofThresholds {} 3).divide ⟨true, [5, 0]⟩ ⟨false, [7]⟩ ⟨true, [9, 9]⟩ =
      .value (⟨true, [1, 0]⟩, ⟨false, [2]⟩) := by decide +kernel
  exact ⟨ha, hb, hrun, ((divide_exact {} 3 ha hb _).1 _ _ hrun).2.1⟩

end Multiprecision.Quotient
