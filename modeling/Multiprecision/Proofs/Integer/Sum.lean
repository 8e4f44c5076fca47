import Mathlib
import Multiprecision.Integer.Sum
import Multiprecision.Proofs.Digits.Sum
import Multiprecision.Proofs.Integer

/-!
# Multiprecision.Proofs.Integer.Sum

Sums and differences are those of the values: `Denotes.add`, `Denotes.sub`
and `Denotes.subFrom`.  The signs decide between a sum and a difference of
magnitudes; each is described by a lemma about the sign flag and the digits,
and the zero that a difference may leave loses its sign at the end.
-/

namespace Multiprecision.Integer

open Digits

variable {x y : Integer} {i j : Int}

/-! ## Magnitudes -/

/-- One place past the digits of the longer operand is room for the sum. -/
theorem Denotes.addMagnitude_room (hx : x.Denotes i) (hy : y.Denotes j) :
    i.natAbs + j.natAbs < base ^ (max x.digitCount y.digitCount + 1) := by
  have hi := hx.natAbs_lt.trans_le
    (Nat.pow_le_pow_right base_pos (le_max_left x.digitCount y.digitCount))
  have hj := hy.natAbs_lt.trans_le
    (Nat.pow_le_pow_right base_pos (le_max_right x.digitCount y.digitCount))
  have htwo := Nat.mul_le_mul_left (base ^ max x.digitCount y.digitCount)
    (show 2 ≤ base by decide)
  rw [pow_succ]
  omega

/-- The digits of the sum of two magnitudes. -/
theorem Denotes.addMagnitude_digits (hx : x.Denotes i) (hy : y.Denotes j) :
    InRange (x.addMagnitude y).digits ∧
      value (x.addMagnitude y).digits = i.natAbs + j.natAbs := by
  obtain ⟨hyr, hyv⟩ := hy.significant
  have hxr : InRange (padTo (max x.digitCount y.digitCount + 1) x.digits) :=
    inRange_padTo.mpr hx.inRange
  refine ⟨inRange_addInto hxr _ _, ?_⟩
  have hlen : max x.digitCount y.digitCount + 1 ≤
      (padTo (max x.digitCount y.digitCount + 1) x.digits).length := by
    rw [length_padTo]
    exact le_max_left _ _
  rw [Integer.addMagnitude, value_addInto hxr hyr, value_padTo, hx.value_digits, hyv]
  · rw [length_significant]
    omega
  · rw [value_padTo, hx.value_digits, hyv]
    exact (hx.addMagnitude_room hy).trans_le (Nat.pow_le_pow_right base_pos hlen)

/-- Adding a magnitude to what is not negative. -/
theorem Denotes.addMagnitude (hx : x.Denotes i) (hy : y.Denotes j) (hi : 0 ≤ i) :
    (x.addMagnitude y).Denotes (i + j.natAbs) := by
  obtain ⟨hr, hv⟩ := hx.addMagnitude_digits hy
  refine denotes_mk hr ?_ ?_
  · exact hx.negative.trans (decide_eq_decide.mpr (by omega))
  · exact hv.trans (by omega)

/-- The larger operand has a place for every digit of the smaller one. -/
theorem Denotes.length_significant_le (hx : x.Denotes i) (hy : y.Denotes j)
    (hle : j.natAbs ≤ i.natAbs) : y.significant.length ≤ x.digits.length := by
  rw [length_significant, hy.digitCount_le_iff]
  refine hle.trans_lt ?_
  rw [← hx.value_digits]
  exact value_lt hx.inRange

/-- The digits of a difference of magnitudes, the smaller one taken away. -/
theorem Denotes.subSmaller_digits (hx : x.Denotes i) (hy : y.Denotes j)
    (hle : j.natAbs ≤ i.natAbs) :
    InRange (x.subSmaller y).digits ∧
      value (x.subSmaller y).digits = i.natAbs - j.natAbs := by
  obtain ⟨hyr, hyv⟩ := hy.significant
  refine ⟨inRange_subtract hx.inRange hyr (by decide), ?_⟩
  rw [Integer.subSmaller, value_subtract hx.inRange hyr (hx.length_significant_le hy hle),
    hx.value_digits, hyv]
  rwa [hx.value_digits, hyv]

/-- Taking a number away from one that is not smaller. -/
theorem Denotes.subSmaller (hx : x.Denotes i) (hy : y.Denotes j) (hj : 0 ≤ j) (hle : j ≤ i) :
    (x.subSmaller y).Denotes (i - j) := by
  obtain ⟨hr, hv⟩ := hx.subSmaller_digits hy (by omega)
  refine denotes_mk hr ?_ ?_
  · exact hx.negative.trans (decide_eq_decide.mpr (by omega))
  · exact hv.trans (by omega)

/-- The digits of the same difference, written over the smaller one. -/
theorem Denotes.subFromLarger_digits (hx : x.Denotes i) (hy : y.Denotes j)
    (hle : i.natAbs ≤ j.natAbs) :
    InRange (x.subFromLarger y).digits ∧
      value (x.subFromLarger y).digits = j.natAbs - i.natAbs := by
  obtain ⟨hyr, hyv⟩ := hy.significant
  have hxr : InRange (padTo y.digitCount x.digits) := inRange_padTo.mpr hx.inRange
  refine ⟨inRange_subtractFrom hxr hyr (by decide), ?_⟩
  rw [Integer.subFromLarger, value_subtractFrom hxr hyr, value_padTo, hx.value_digits, hyv]
  · rw [length_significant, length_padTo]
    exact le_max_left _ _
  · rwa [value_padTo, hx.value_digits, hyv]

/-- The difference of the magnitudes, with the sign of `x` or, if it is below
zero, with the other one. -/
theorem Denotes.subMagnitudes_digits (hx : x.Denotes i) (hy : y.Denotes j) :
    InRange (x.subMagnitudes y).digits ∧
      (x.subMagnitudes y).toInt =
        if i < 0 then -((i.natAbs : Int) - j.natAbs) else (i.natAbs : Int) - j.natAbs := by
  rw [subMagnitudes]
  split
  · next hlt =>
    rw [hx.below_iff hy] at hlt
    obtain ⟨hr, hv⟩ := hx.subFromLarger_digits hy hlt.le
    refine ⟨hr, ?_⟩
    rw [Integer.toInt]
    simp only [hv, show (x.subFromLarger y).negative = x.negative from rfl, hx.negative,
      Bool.not_eq_true', decide_eq_false_iff_not]
    split <;> omega
  · next hge =>
    rw [hx.below_iff hy, not_lt] at hge
    obtain ⟨hr, hv⟩ := hx.subSmaller_digits hy hge
    refine ⟨hr, ?_⟩
    simp only [Integer.toInt, hv, show (x.subSmaller y).negative = x.negative from rfl,
      hx.negative, decide_eq_true_eq]
    split <;> omega

/-! ## Integers -/

/-- The sum of the magnitudes keeps the sign of the left operand. -/
theorem toInt_addMagnitude (hx : x.Denotes i) (hy : y.Denotes j) :
    (x.addMagnitude y).toInt =
      if i < 0 then -((i.natAbs : Int) + j.natAbs) else (i.natAbs : Int) + j.natAbs := by
  rw [Integer.toInt, (hx.addMagnitude_digits hy).2,
    show (x.addMagnitude y).negative = x.negative from rfl, hx.negative]
  simp

/-- The sum has the sum as its value, for any signs. -/
theorem Denotes.add (hx : x.Denotes i) (hy : y.Denotes j) : (x.add y).Denotes (i + j) := by
  rw [Integer.add]
  split
  · next hsign =>
    rw [beq_iff_eq, hx.negative, hy.negative, decide_eq_decide] at hsign
    have h := denotes_normalizeSign (hx.addMagnitude_digits hy).1
    rw [toInt_addMagnitude hx hy] at h
    convert h using 1
    split <;> omega
  · next hsign =>
    rw [beq_iff_eq, hx.negative, hy.negative, decide_eq_decide] at hsign
    have h := denotes_normalizeSign (hx.subMagnitudes_digits hy).1
    rw [(hx.subMagnitudes_digits hy).2] at h
    convert h using 1
    split <;> omega

/-- The difference has the difference as its value, for any signs. -/
theorem Denotes.sub (hx : x.Denotes i) (hy : y.Denotes j) : (x.sub y).Denotes (i - j) := by
  rw [Integer.sub]
  split
  · next hsign =>
    rw [bne_iff_ne, ne_eq, hx.negative, hy.negative, decide_eq_decide] at hsign
    have h := denotes_normalizeSign (hx.addMagnitude_digits hy).1
    rw [toInt_addMagnitude hx hy] at h
    convert h using 1
    split <;> omega
  · next hsign =>
    rw [bne_iff_ne, ne_eq, hx.negative, hy.negative, decide_eq_decide, not_not] at hsign
    have h := denotes_normalizeSign (hx.subMagnitudes_digits hy).1
    rw [(hx.subMagnitudes_digits hy).2] at h
    convert h using 1
    split <;> omega

/-- The difference the other way round, written over what is taken away. -/
theorem Denotes.subFrom (hx : x.Denotes i) (hy : y.Denotes j) :
    (x.subFrom y).Denotes (j - i) := by
  have h := (hx.sub hy).neg
  rwa [neg_sub] at h

end Multiprecision.Integer
