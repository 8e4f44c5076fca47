import Mathlib
import Multiprecision.Integer.Shift
import Multiprecision.Integer.Window
import Multiprecision.Proofs.Digits.Shift
import Multiprecision.Proofs.Integer

/-!
# Multiprecision.Proofs.Integer.Shift

Shifts and windows by their arithmetic meaning:

* `Denotes.shiftLeft` — a product by a power of two;
* `Denotes.shiftRight` — a quotient, rounded towards zero;
* `Denotes.bitWindow`, `Denotes.digitWindow` — quotients of remainders.
-/

namespace Multiprecision.Integer

open Digits

variable {x : Integer} {i : Int}

/-! ## Shift counts -/

/-- A shift by bits is one by whole digits and one within a digit. -/
theorem width_mul_div_add_mod (n : Nat) : width * (n / width) + n % width = n :=
  Nat.div_add_mod n width

/-- The shift within a digit fits its word. -/
theorem toNat_mod_width (n : Nat) : (UInt32.ofNat (n % width)).toNat = n % width :=
  toNat_ofNat_of_le_width (Nat.mod_lt n (by decide)).le

/-- The shift within a digit is less than the width of one. -/
theorem toNat_mod_width_lt (n : Nat) : (UInt32.ofNat (n % width)).toNat < width := by
  rw [toNat_mod_width]
  exact Nat.mod_lt _ (by decide)

/-- Whole digits and the bits left over make up a power of two. -/
theorem base_pow_mul_two_pow (n : Nat) : base ^ (n / width) * 2 ^ (n % width) = 2 ^ n := by
  rw [base_pow, ← pow_add, width_mul_div_add_mod]

/-! ## Shifts -/

/-- A shift to the left multiplies by the power of two, with the sign kept. -/
theorem Denotes.shiftLeft (h : x.Denotes i) (n : Nat) : (x.shiftLeft n).Denotes (i * 2 ^ n) := by
  rw [Integer.shiftLeft]
  split
  · next htrivial =>
    rw [Bool.or_eq_true, h.isZero_iff, beq_iff_eq] at htrivial
    rcases htrivial with rfl | rfl
    · simpa using h
    · simpa using h
  · obtain ⟨hr, hv⟩ := h.significant
    have hmoved := inRange_shiftUp (toNat_mod_width_lt n) (show (0 : Digit).toNat < base by decide) hr
    refine denotes_mk (inRange_padTo.mpr (inRange_append.mpr ⟨inRange_replicate_zero _, hmoved⟩))
      ?_ ?_
    · rw [h.negative]
      exact decide_eq_decide.mpr (by simp [mul_neg_iff])
    · rw [value_padTo, value_append, value_replicate_zero,
        value_shiftUp (toNat_mod_width_lt n) (by decide) hr, hv, toNat_mod_width,
        List.length_replicate, UInt32.toNat_zero, Nat.zero_div, Nat.zero_add, Nat.add_zero,
        ← Nat.mul_assoc, base_pow_mul_two_pow, Int.natAbs_mul, Nat.mul_comm, Int.natAbs_pow]
      rfl

/-- A shift to the right divides by the power of two and rounds towards zero. -/
theorem Denotes.shiftRight (h : x.Denotes i) (n : Nat) :
    (x.shiftRight n).Denotes (i.tdiv (2 ^ n)) := by
  rw [Integer.shiftRight]
  split
  · next htrivial =>
    rw [Bool.or_eq_true, h.isZero_iff, beq_iff_eq] at htrivial
    rcases htrivial with rfl | rfl
    · simpa using h
    · simpa using h
  · obtain ⟨hr, hv⟩ := h.significant
    have hkept := hr.drop (n / width)
    have hmoved := inRange_shiftDown (toNat_mod_width_lt n) hkept
    have hvalue : value (padTo x.capacity (shiftDown (UInt32.ofNat (n % width))
        (x.significant.drop (n / width)))) = i.natAbs / 2 ^ n := by
      rw [value_padTo, value_shiftDown (toNat_mod_width_lt n) hkept, value_drop hr, hv,
        toNat_mod_width, Nat.div_div_eq_div_mul, base_pow_mul_two_pow]
    exact_mod_cast h.withQuotient (inRange_padTo.mpr hmoved) hvalue

/-- For numbers that are not negative that is the quotient. -/
theorem Denotes.shiftRight_of_nonneg {n : Nat} (h : x.Denotes n) (b : Nat) :
    (x.shiftRight b).Denotes ((n / 2 ^ b : Nat) : Int) := by
  have hshift := h.shiftRight b
  rw [Int.tdiv_eq_ediv_of_nonneg (Int.natCast_nonneg n)] at hshift
  exact_mod_cast hshift

/-- A shift by whole digits multiplies by the power of the base. -/
theorem Denotes.shiftLeftDigits (h : x.Denotes i) (n : Nat) :
    (x.shiftLeftDigits n).Denotes (i * (base : Int) ^ n) := by
  have hpow : (base : Int) ^ n = 2 ^ (n * width) := by
    rw [Nat.mul_comm]
    exact_mod_cast base_pow n
  rw [hpow]
  exact h.shiftLeft (n * width)

/-! ## Windows -/

/-- A window of digits is the part of the magnitude between two places. -/
theorem Denotes.digitWindow (h : x.Denotes i) (lo hi : Nat) :
    (x.digitWindow lo hi).Denotes (i.natAbs / base ^ lo % base ^ (hi + 1 - lo) : Nat) := by
  obtain ⟨hr, hv⟩ := h.significant
  rw [Integer.digitWindow]
  split
  · next hempty =>
    rw [Bool.or_eq_true, decide_eq_true_eq, decide_eq_true_eq] at hempty
    have hzero : i.natAbs / base ^ lo % base ^ (hi + 1 - lo) = 0 := by
      rcases hempty with hlt | hle
      · rw [show hi + 1 - lo = 0 by omega, pow_zero, Nat.mod_one]
      · rw [Nat.div_eq_of_lt (h.digitCount_le_iff.mp hle), Nat.zero_mod]
    rw [hzero]
    exact denotes_zero
  · refine denotes_nonneg ((hr.drop _).take _) ?_
    rw [value_take (hr.drop _), value_drop hr, hv]

/-- A window of bits is the part of the magnitude between two bits. -/
theorem Denotes.bitWindow (h : x.Denotes i) (lo hi : Nat) :
    (x.bitWindow lo hi).Denotes (i.natAbs / 2 ^ lo % 2 ^ (hi + 1 - lo) : Nat) := by
  obtain ⟨hr, hv⟩ := h.significant
  have hlt : i.natAbs < 2 ^ (x.significant.length * width) := by
    rw [Nat.mul_comm, ← base_pow]
    exact h.natAbs_lt
  rw [Integer.bitWindow]
  split
  · next hempty =>
    rw [Bool.or_eq_true, decide_eq_true_eq, decide_eq_true_eq] at hempty
    have hzero : i.natAbs / 2 ^ lo % 2 ^ (hi + 1 - lo) = 0 := by
      rcases hempty with hlt | hle
      · rw [show hi + 1 - lo = 0 by omega, pow_zero, Nat.mod_one]
      · rw [Nat.div_eq_of_lt (hlt.trans_le (Nat.pow_le_pow_right (by decide) hle)),
          Nat.zero_mod]
    rw [hzero]
    exact denotes_zero
  · next hsome =>
    rw [Bool.or_eq_true, decide_eq_true_eq, decide_eq_true_eq, not_or, not_lt, not_le] at hsome
    have hmoved := inRange_shiftDown (toNat_mod_width_lt lo) (hr.drop (lo / width))
    refine denotes_nonneg (inRange_lowBits _ hmoved) ?_
    rw [value_lowBits _ hmoved, value_shiftDown (toNat_mod_width_lt lo) (hr.drop _),
      value_drop hr, hv, toNat_mod_width, Nat.div_div_eq_div_mul, base_pow_mul_two_pow]
    -- The window may end past the digits, where both remainders are the number itself.
    rcases Nat.le_total hi (x.significant.length * width - 1) with hle | hge
    · rw [min_eq_left hle]
    · have hdiv : i.natAbs / 2 ^ lo < 2 ^ (x.significant.length * width - lo) := by
        rw [Nat.div_lt_iff_lt_mul (by positivity), ← pow_add, Nat.sub_add_cancel hsome.2.le]
        exact hlt
      rw [min_eq_right hge, Nat.mod_eq_of_lt, Nat.mod_eq_of_lt]
      · exact hdiv.trans_le (Nat.pow_le_pow_right (by decide) (by omega))
      · exact hdiv.trans_le (Nat.pow_le_pow_right (by decide) (by omega))

end Multiprecision.Integer
