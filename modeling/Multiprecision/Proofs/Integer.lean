import Mathlib
import Multiprecision.Integer.Order
import Multiprecision.Proofs.Digits

/-!
# Multiprecision.Proofs.Integer

What an integer stands for, and what the operations that only look at it or
at its storage do:

* `Integer.Denotes` — a canonical integer with a given value;
* `Denotes.neg`, `Denotes.abs`, `Denotes.trim`, … — storage is not seen;
* `Denotes.compare_eq`, `Denotes.below_iff` — the order is that of the values.

Every later operation has one lemma of this form, and its callers do not
look at digits again.
-/

namespace Multiprecision.Integer

open Digits

/-! ## Values -/

/-- A canonical integer with the value `i`. -/
structure Denotes (x : Integer) (i : Int) : Prop where
  canonical : x.Canonical
  toInt : x.toInt = i

variable {x y : Integer} {i j : Int}

/-- A canonical integer denotes its own value. -/
theorem Canonical.denotes (h : x.Canonical) : x.Denotes x.toInt := ⟨h, rfl⟩

theorem Denotes.inRange (h : x.Denotes i) : InRange x.digits := h.canonical.1

theorem Denotes.of_eq (h : x.Denotes i) (hij : i = j) : x.Denotes j := hij ▸ h

/-- A value that is not negative, as a natural number. -/
theorem Denotes.toNat (h : x.Denotes i) (hi : 0 ≤ i) : x.Denotes i.toNat :=
  h.of_eq (Int.toNat_of_nonneg hi).symm

/-- The magnitude is the absolute value. -/
theorem natAbs_toInt (x : Integer) : x.toInt.natAbs = x.magnitude := by
  rw [Integer.toInt, magnitude]
  split <;> simp

/-- The magnitude is the absolute value of what is denoted. -/
theorem Denotes.magnitude (h : x.Denotes i) : x.magnitude = i.natAbs := by
  rw [← natAbs_toInt, h.toInt]

theorem Denotes.value_digits (h : x.Denotes i) : value x.digits = i.natAbs := h.magnitude

/-- The sign flag says whether the value is negative. -/
theorem Denotes.negative (h : x.Denotes i) : x.negative = decide (i < 0) := by
  obtain ⟨⟨_, hzero⟩, rfl⟩ := h
  rw [Integer.toInt]
  cases hneg : x.negative with
  | false => simp
  | true =>
    have hpos := isZero_eq_false_iff.mp (hzero hneg)
    simpa using hpos

/-- An integer made of a sign and digits, where the sign says that the value is
negative. -/
theorem denotes_mk {neg : Bool} {ds : List Digit} (hds : InRange ds)
    (hneg : neg = decide (i < 0)) (hvalue : Digits.value ds = i.natAbs) :
    Denotes ⟨neg, ds⟩ i := by
  subst hneg
  refine ⟨⟨hds, fun h => isZero_eq_false_iff.mpr ?_⟩, ?_⟩
  · have hi : i < 0 := of_decide_eq_true h
    change 0 < Digits.value ds
    omega
  · rw [Integer.toInt]
    simp only [hvalue, decide_eq_true_eq]
    split <;> omega

/-- Digits in range are a number that is not negative. -/
theorem denotes_nonneg {ds : List Digit} (hds : InRange ds) {n : Nat}
    (hvalue : Digits.value ds = n) : Denotes ⟨false, ds⟩ n :=
  denotes_mk hds (by simp) (by simpa using hvalue)

/-- Taking the sign off a zero makes an integer canonical. -/
theorem denotes_normalizeSign (hds : InRange x.digits) : x.normalizeSign.Denotes x.toInt := by
  rw [normalizeSign]
  split
  · next hzero =>
    rw [Bool.and_eq_true, Integer.isZero, isZero_iff] at hzero
    refine denotes_mk hds ?_ ?_
    · simp [Integer.toInt, hzero.2]
    · simp [Integer.toInt, hzero.2]
  · next hzero =>
    rw [Bool.and_eq_true, not_and, Bool.not_eq_true] at hzero
    exact ⟨⟨hds, hzero⟩, rfl⟩

/-- A magnitude with a sign, once zero has none. -/
theorem denotes_withSign {s : Bool} {ds : List Digit} (hds : InRange ds) {n : Nat}
    (hvalue : Digits.value ds = n) :
    (normalizeSign ⟨s, ds⟩).Denotes (if s then -(n : Int) else n) := by
  have h := denotes_normalizeSign (x := ⟨s, ds⟩) hds
  rwa [Integer.toInt, hvalue] at h

/-- Digits in range are canonical under any sign that is put right for zero. -/
theorem canonical_withSign (s : Bool) {ds : List Digit} (hds : InRange ds) :
    (normalizeSign ⟨s, ds⟩).Canonical :=
  (denotes_withSign hds rfl).canonical

/-- A quotient of the magnitude, with the sign of the dividend, is rounded
towards zero. -/
theorem Denotes.withQuotient (h : x.Denotes i) {ds : List Digit} (hds : InRange ds) {n : Nat}
    (hvalue : Digits.value ds = i.natAbs / n) :
    (normalizeSign ⟨x.negative, ds⟩).Denotes (i.tdiv n) := by
  have hsigned := denotes_withSign (s := x.negative) hds hvalue
  convert hsigned using 1
  rw [h.negative, Int.ofNat_tdiv]
  split
  · next hneg =>
    rw [← Int.neg_tdiv, Int.ofNat_natAbs_of_nonpos (of_decide_eq_true hneg).le, neg_neg]
  · next hneg =>
    rw [decide_eq_true_eq, not_lt] at hneg
    rw [Int.natAbs_of_nonneg hneg]

/-! ## Making integers -/

theorem denotes_zero : zero.Denotes 0 := denotes_nonneg inRange_nil rfl

/-- The digits of a natural number denote it. -/
theorem denotes_ofNat (n : Nat) : (ofNat n).Denotes n :=
  denotes_nonneg (inRange_ofNat n) (value_ofNat n)

theorem denotes_one : (1 : Integer).Denotes 1 := denotes_ofNat 1

/-- Every integer is denoted by some digits and a sign. -/
theorem denotes_ofInt (i : Int) : (ofInt i).Denotes i :=
  denotes_mk (inRange_ofNat _) rfl (value_ofNat _)

theorem denotes_zeros (bits : Nat) : (zeros bits).Denotes 0 :=
  denotes_nonneg (inRange_replicate_zero _) (value_replicate_zero _)

/-- The digits cut out of any words make a canonical integer. -/
theorem canonical_ofDigits (words : List Digit) : (ofDigits words).Canonical := by
  refine (denotes_nonneg ?_ rfl).canonical
  intro d hd
  obtain ⟨w, -, rfl⟩ := List.mem_map.mp hd
  exact and_mask_lt w

/-! ## Reading an integer -/

/-- The check for zero is right. -/
theorem Denotes.isZero_iff (h : x.Denotes i) : x.isZero = true ↔ i = 0 := by
  rw [Integer.isZero, Digits.isZero_iff, h.value_digits, Int.natAbs_eq_zero]

theorem Denotes.isZero_eq_false_iff (h : x.Denotes i) : x.isZero = false ↔ i ≠ 0 := by
  rw [← Bool.not_eq_true, h.isZero_iff]

/-- The check for numbers below zero is right. -/
theorem Denotes.isNegative_iff (h : x.Denotes i) : x.isNegative = true ↔ i < 0 := by
  rw [isNegative, Bool.and_eq_true, Bool.not_eq_true', h.negative, decide_eq_true_eq,
    h.isZero_eq_false_iff]
  omega

theorem Denotes.isPositive_iff (h : x.Denotes i) : x.isPositive = true ↔ 0 < i := by
  rw [isPositive, Bool.and_eq_true, Bool.not_eq_true', Bool.not_eq_true', h.negative,
    decide_eq_false_iff_not, h.isZero_eq_false_iff]
  omega

/-- The length in bits is that of the absolute value; it is zero for zero. -/
theorem Denotes.bitLength (h : x.Denotes i) : x.bitLength = i.natAbs.size := by
  rw [Integer.bitLength, bitLength_eq_size h.inRange, h.value_digits]

/-- An integer has at most `n` digits exactly if it is below the power `n` of the
base. -/
theorem Denotes.digitCount_le_iff (h : x.Denotes i) {n : Nat} :
    x.digitCount ≤ n ↔ i.natAbs < base ^ n := by
  rw [digitCount, count_le_iff h.inRange, h.value_digits]

/-- An integer is below the power of the base with its number of digits. -/
theorem Denotes.natAbs_lt (h : x.Denotes i) : i.natAbs < base ^ x.digitCount :=
  h.digitCount_le_iff.mp le_rfl

/-- The significant digits write the absolute value. -/
theorem Denotes.significant (h : x.Denotes i) :
    InRange x.significant ∧ Digits.value x.significant = i.natAbs :=
  ⟨h.inRange.significant, by rw [Integer.significant, value_significant, h.value_digits]⟩

/-- The digits without reserved places are those of the value. -/
theorem Denotes.significant_eq (h : x.Denotes i) : x.significant = Digits.ofNat i.natAbs := by
  rw [Integer.significant, significant_eq_ofNat h.inRange, h.value_digits]

theorem length_significant (x : Integer) : x.significant.length = x.digitCount := rfl

/-! ## Storage -/

/-- The sign of a canonical integer needs no repair. -/
theorem Denotes.normalizeSign (h : x.Denotes i) : x.normalizeSign.Denotes i :=
  h.toInt ▸ denotes_normalizeSign h.inRange

/-- Other digits for the same magnitude denote the same integer. -/
theorem Denotes.withDigits (h : x.Denotes i) {ds : List Digit} (hds : InRange ds)
    (hvalue : Digits.value ds = Digits.value x.digits) :
    Denotes { x with digits := ds } i :=
  denotes_mk hds h.negative (hvalue.trans h.value_digits)

/-- Opening places does not change the value. -/
theorem Denotes.reserve (h : x.Denotes i) (n : Nat) : (x.reserve n).Denotes i :=
  h.withDigits (inRange_padTo.mpr h.inRange) (value_padTo _ _)

/-- Dropping leading zeros does not change the value. -/
theorem Denotes.trim (h : x.Denotes i) : x.trim.Denotes i :=
  h.withDigits h.inRange.significant (value_significant _)

/-- Without reserved places an integer is the one made from its value. -/
theorem Denotes.trim_eq (h : x.Denotes i) : x.trim = .ofInt i := by
  rw [Integer.trim, h.significant_eq, h.negative, ofInt]

/-- Nor does storing it anew, without reserved places. -/
theorem Denotes.compact (h : x.Denotes i) : x.compact.Denotes i := h.trim.normalizeSign

/-- Places for enough bits are enough places. -/
theorem Denotes.digitCount_le_reserveBits (h : x.Denotes i) {bits : Nat}
    (hlt : i.natAbs < 2 ^ bits) (y : Integer) : x.digitCount ≤ (y.reserveBits bits).capacity := by
  have hopened : countFor bits ≤ (y.reserveBits bits).capacity := by
    rw [reserveBits, Integer.reserve, capacity, length_padTo]
    exact le_max_left _ _
  refine le_trans (h.digitCount_le_iff.mpr ?_) hopened
  rw [base_pow]
  exact hlt.trans_le (Nat.pow_le_pow_right (by decide) (le_width_mul_countFor bits))

theorem denotes_cleared (x : Integer) : x.cleared.Denotes 0 :=
  denotes_nonneg (inRange_replicate_zero _) (value_replicate_zero _)

/-- Overwriting leaves the magnitude of the new digits, without a sign. -/
theorem denotes_overwrite (x : Integer) {ds : List Digit} (hds : InRange ds) :
    (x.overwrite ds).Denotes (Digits.value ds) :=
  denotes_nonneg (inRange_padTo.mpr hds) (value_padTo _ _)

/-- A small number replaces whatever there was. -/
theorem denotes_setSmall (x : Integer) (n : Nat) : (x.setSmall n).Denotes n := by
  have h := denotes_overwrite x (inRange_ofNat n)
  rwa [value_ofNat] at h

/-! ## Sign -/

/-- Negation changes the sign, but for zero. -/
theorem Denotes.neg (h : x.Denotes i) : x.neg.Denotes (-i) := by
  have hneg := denotes_withSign (s := !x.negative) h.inRange h.value_digits
  rw [h.negative] at hneg
  rw [Integer.neg, h.negative]
  convert hneg using 1
  by_cases hi : i < 0
  · simp only [hi, decide_true, Bool.not_true, Bool.false_eq_true, if_false]
    omega
  · simp only [hi, decide_false, Bool.not_false, if_true]
    omega

/-- The absolute value has no sign. -/
theorem Denotes.abs (h : x.Denotes i) : x.abs.Denotes |i| := by
  rw [Int.abs_eq_natAbs]
  exact denotes_nonneg h.inRange h.value_digits

/-- The absolute value, as a natural number. -/
theorem Denotes.abs_natAbs (h : x.Denotes i) : x.abs.Denotes i.natAbs :=
  Int.abs_eq_natAbs i ▸ h.abs

/-- The absolute value of what is not negative is that itself. -/
theorem Denotes.abs_self (h : x.Denotes i) (hi : 0 ≤ i) : x.abs.Denotes i := by
  simpa only [abs_of_nonneg hi] using h.abs

/-! ## Order -/

/-- Magnitudes compare as the absolute values do. -/
theorem Denotes.compareMagnitude_eq (hx : x.Denotes i) (hy : y.Denotes j) :
    x.compareMagnitude y = Ord.compare i.natAbs j.natAbs := by
  rw [compareMagnitude, Digits.compare_eq hx.inRange hy.inRange, hx.value_digits, hy.value_digits]

/-- One magnitude is below another exactly if the absolute values are. -/
theorem Denotes.below_iff (hx : x.Denotes i) (hy : y.Denotes j) :
    x.below y = true ↔ i.natAbs < j.natAbs := by
  rw [below, hx.compareMagnitude_eq hy, beq_iff_eq, Nat.compare_eq_lt]

/-- Integers are equal exactly if their values are, however many zeros lead. -/
theorem Denotes.equals_iff (hx : x.Denotes i) (hy : y.Denotes j) :
    x.equals y = true ↔ i = j := by
  rw [equals, hx.compareMagnitude_eq hy, hx.negative, hy.negative, Bool.and_eq_true,
    beq_iff_eq, beq_iff_eq, Nat.compare_eq_eq]
  grind

/-- Integers compare as their values do. -/
theorem Denotes.compare_eq (hx : x.Denotes i) (hy : y.Denotes j) :
    x.compare y = Ord.compare i j := by
  rw [Integer.compare, hx.negative, hy.negative, hx.compareMagnitude_eq hy,
    hy.compareMagnitude_eq hx]
  by_cases hi : i < 0 <;> by_cases hj : j < 0 <;> simp only [hi, hj, decide_true, decide_false]
  · rcases lt_trichotomy i j with h | h | h
    · rw [compare_lt_iff_lt.mpr h, Nat.compare_eq_lt.mpr (by omega)]
    · rw [compare_eq_iff_eq.mpr h, Nat.compare_eq_eq.mpr (by omega)]
    · rw [compare_gt_iff_gt.mpr h, Nat.compare_eq_gt.mpr (by omega)]
  · exact (compare_lt_iff_lt.mpr (by omega)).symm
  · exact (compare_gt_iff_gt.mpr (by omega)).symm
  · rcases lt_trichotomy i j with h | h | h
    · rw [compare_lt_iff_lt.mpr h, Nat.compare_eq_lt.mpr (by omega)]
    · rw [compare_eq_iff_eq.mpr h, Nat.compare_eq_eq.mpr (by omega)]
    · rw [compare_gt_iff_gt.mpr h, Nat.compare_eq_gt.mpr (by omega)]

/-- The check for one is right. -/
theorem Denotes.isOne_iff (h : x.Denotes i) : x.isOne = true ↔ i = 1 := by
  have hone : Digits.ofNat 1 = [1] := by simp [Digits.ofNat, base]
  have hdigits : x.significant = [1] ↔ i.natAbs = 1 := by
    rw [h.significant_eq, ← hone]
    refine ⟨fun heq => ?_, fun heq => by rw [heq]⟩
    rw [← value_ofNat i.natAbs, heq, value_ofNat]
  rw [isOne, Bool.and_eq_true, beq_iff_eq, hdigits, h.negative, Bool.not_eq_true',
    decide_eq_false_iff_not]
  omega

end Multiprecision.Integer
