import Mathlib
import Multiprecision.Integer.Checked
import Multiprecision.Proofs.Digits.Checked
import Multiprecision.Proofs.Integer.Shift
import Multiprecision.Proofs.Integer.Sum

/-!
# Multiprecision.Proofs.Integer.Checked

On canonical integers no check fails:

* `Denotes.add?_eq`, `Denotes.sub?_eq`, `Denotes.subFrom?_eq` — the words of a
  sum fit, and the smaller magnitude is the one taken away;
* `Denotes.shiftLeft?_eq`, `Denotes.shiftRight?_eq` — a shift within the places
  of an integer leaves the same places as one that writes new ones.

So the checked operations are exact, by the lemmas about the others:
`shifts_exact` states it of shifts, with the laws that shifts obey.
-/

namespace Multiprecision.Integer

open Digits

variable {x y : Integer} {i j : Int}

/-! ## Sums and differences -/

/-- No word overflows in a sum of magnitudes, and no carry is left over. -/
theorem Denotes.addMagnitude?_eq (hx : x.Denotes i) (hy : y.Denotes j) :
    x.addMagnitude? y = some (x.addMagnitude y) := by
  obtain ⟨hyr, hyv⟩ := hy.significant
  have hlen : max x.digitCount y.digitCount + 1 ≤
      (padTo (max x.digitCount y.digitCount + 1) x.digits).length := by
    rw [length_padTo]
    exact le_max_left _ _
  have hroom := (hx.addMagnitude_room hy).trans_le (Nat.pow_le_pow_right base_pos hlen)
  have hpass := addInto?_eq (c := 0) (inRange_padTo.mpr hx.inRange) hyr
    (le_trans (by rw [length_significant]; omega) hlen) (by decide)
    (by simpa [hx.value_digits, hyv] using hroom)
  rw [addMagnitude?, withDigits?, hpass]
  rfl

/-- No borrow is left over when the smaller magnitude is taken away. -/
theorem Denotes.subSmaller?_eq (hx : x.Denotes i) (hy : y.Denotes j)
    (hle : j.natAbs ≤ i.natAbs) : x.subSmaller? y = some (x.subSmaller y) := by
  obtain ⟨hyr, hyv⟩ := hy.significant
  have hpass := subtract?_eq (c := 0) hx.inRange hyr (hx.length_significant_le hy hle) (by decide)
    (by simpa [hx.value_digits, hyv] using hle)
  rw [subSmaller?, withDigits?, hpass]
  rfl

/-- No borrow is left over when it is written over the smaller one. -/
theorem Denotes.subFromLarger?_eq (hx : x.Denotes i) (hy : y.Denotes j)
    (hle : i.natAbs ≤ j.natAbs) : x.subFromLarger? y = some (x.subFromLarger y) := by
  obtain ⟨hyr, hyv⟩ := hy.significant
  have hlen : y.significant.length ≤ (padTo y.digitCount x.digits).length := by
    rw [length_significant, length_padTo]
    exact le_max_left _ _
  have hpass := subtractFrom?_eq (c := 0) (inRange_padTo.mpr hx.inRange) hyr hlen (by decide)
    (by simpa [hx.value_digits, hyv] using hle)
  rw [subFromLarger?, withDigits?, hpass]
  rfl

/-- A difference of magnitudes is taken the way round that leaves no borrow. -/
theorem Denotes.subMagnitudes?_eq (hx : x.Denotes i) (hy : y.Denotes j) :
    x.subMagnitudes? y = some (x.subMagnitudes y) := by
  unfold subMagnitudes? subMagnitudes
  by_cases hlt : x.below y = true
  · rw [if_pos hlt, if_pos hlt, hx.subFromLarger?_eq hy ((hx.below_iff hy).mp hlt).le]
    rfl
  · rw [if_neg hlt, if_neg hlt]
    exact hx.subSmaller?_eq hy (not_lt.mp (mt (hx.below_iff hy).mpr hlt))

/-- The checked sum returns, and it is the sum. -/
theorem Denotes.add?_eq (hx : x.Denotes i) (hy : y.Denotes j) :
    x.add? y = some (x.add y) := by
  unfold add? Integer.add
  rw [hx.addMagnitude?_eq hy, hx.subMagnitudes?_eq hy]
  split <;> rfl

/-- The checked difference returns, and it is the difference. -/
theorem Denotes.sub?_eq (hx : x.Denotes i) (hy : y.Denotes j) :
    x.sub? y = some (x.sub y) := by
  unfold sub? Integer.sub
  rw [hx.addMagnitude?_eq hy, hx.subMagnitudes?_eq hy]
  split <;> rfl

/-- The checked difference the other way round returns too. -/
theorem Denotes.subFrom?_eq (hx : x.Denotes i) (hy : y.Denotes j) :
    x.subFrom? y = some (x.subFrom y) := by
  unfold subFrom? Integer.subFrom
  rw [hx.sub?_eq hy, Option.map_some]

/-! ## Shifts -/

theorem digitCount_le_capacity (x : Integer) : x.digitCount ≤ x.capacity := by
  obtain ⟨n, hn⟩ := exists_padding x.digits
  have hlen := congrArg List.length hn
  rw [List.length_append] at hlen
  exact (Nat.le_add_right _ _).trans hlen.le

/-- The places of an integer: its digits, then the reserved ones. -/
theorem digits_eq (x : Integer) :
    x.digits = x.significant ++ List.replicate (x.capacity - x.digitCount) 0 := by
  obtain ⟨n, hn⟩ := exists_padding x.digits
  have hlen := congrArg List.length hn
  rw [List.length_append, List.length_replicate] at hlen
  rw [capacity, ← hlen, digitCount, count, Nat.add_sub_cancel_left]
  exact hn.symm

/-- The places that a shift up opens: one for each place that the digits move,
and one for what the highest digit has above its place. -/
theorem padTo_digits (x : Integer) (places : Nat) :
    padTo (x.digitCount + places + 1) x.digits =
      x.significant ++ List.replicate places 0 ++
        ([0] ++ List.replicate (x.capacity - (x.digitCount + places + 1)) 0) := by
  have hle := x.digitCount_le_capacity
  have hlen : x.digits.length = x.capacity := rfl
  rw [padTo, hlen]
  conv_lhs => rw [x.digits_eq]
  rw [List.append_assoc, List.append_assoc, List.replicate_append_replicate,
    ← List.replicate_one, List.replicate_append_replicate, List.replicate_append_replicate]
  congr 2
  omega

/-- An integer without significant digits is zero. -/
theorem Denotes.digitCount_beq_zero (hx : x.Denotes i) : (x.digitCount == 0) = x.isZero := by
  rw [Bool.eq_iff_iff, beq_iff_eq, hx.isZero_iff, ← Nat.le_zero, hx.digitCount_le_iff, pow_zero]
  omega

/-- The checked moves to the left return, and make the exact shift. -/
theorem Denotes.shiftLeft?_eq (hx : x.Denotes i) (n : Nat) :
    x.shiftLeft? n = some (x.shiftLeft n) := by
  simp only [shiftLeft?, Integer.shiftLeft, hx.digitCount_beq_zero]
  by_cases htrivial : (x.isZero || n == 0) = true
  · rw [if_pos htrivial, if_pos htrivial]
  · have hlen : (List.replicate (n / width) 0 ++
        shiftUp (UInt32.ofNat (n % width)) x.significant 0).length =
        x.digitCount + n / width + 1 := by
      rw [List.length_append, List.length_replicate, length_shiftUp, length_significant]
      omega
    rw [if_neg htrivial, if_neg htrivial, padTo_digits, ← length_significant,
      moveUpBy?_clear hx.significant.1, padTo, hlen]
    rfl

/-- The checked moves to the right return, and make the exact shift. -/
theorem Denotes.shiftRight?_eq (hx : x.Denotes i) (n : Nat) :
    x.shiftRight? n = some (x.shiftRight n) := by
  have hle := x.digitCount_le_capacity
  simp only [shiftRight?, Integer.shiftRight, hx.digitCount_beq_zero]
  by_cases htrivial : (x.isZero || n == 0) = true
  · rw [if_pos htrivial, if_pos htrivial]
  · rw [if_neg htrivial, if_neg htrivial]
    generalize n / width = places
    by_cases hout : x.digitCount ≤ places
    · have hnone : x.significant.drop places = [] := List.drop_of_length_le hout
      rw [if_pos hout, hnone]
      cases x.negative <;>
        simp [shiftDown, padTo, Integer.normalizeSign, cleared, Integer.isZero]
    · have hlen : (shiftDown (UInt32.ofNat (n % width))
          (x.significant.drop places)).length = x.digitCount - places := by
        rw [length_shiftDown, List.length_drop, length_significant]
      have hmoved := shiftDown?_clear (UInt32.ofNat (n % width))
        (show places ≤ x.significant.length from (not_le.mp hout).le) (x.capacity - x.digitCount)
      rw [← x.digits_eq, length_significant] at hmoved
      rw [if_neg hout, padTo, hlen, hmoved]
      simp only [withDigits?, Option.map_some]
      congr 5
      omega

/-- The bits of some digits are counted without overflow if they fit a word. -/
theorem digitBits?_eq {n : Nat} (h : 30 * n < 2 ^ 64) : digitBits? n = some (30 * n) := by
  rw [digitBits?, show n * width = 30 * n from Nat.mul_comm n 30]
  exact if_pos h

/-- A quotient rounded towards zero is that of the magnitude, with the sign. -/
theorem tdiv_eq_sign_mul (i : Int) (n : Nat) : i.tdiv n = i.sign * (i.natAbs / n : Nat) := by
  conv_lhs => rw [← Int.sign_mul_natAbs i]
  obtain h | h | h := Int.sign_trichotomy i
  · rw [h, one_mul, one_mul, Int.ofNat_tdiv]
  · rw [h, zero_mul, zero_mul, Int.zero_tdiv]
  · rw [h, Int.neg_one_mul, Int.neg_one_mul, Int.neg_tdiv, Int.ofNat_tdiv]

/-- Rounding towards zero twice is rounding towards zero once. -/
theorem tdiv_tdiv (i : Int) (m n : Nat) : (i.tdiv m).tdiv n = i.tdiv (m * n : Nat) := by
  obtain ⟨k, rfl | rfl⟩ := i.eq_nat_or_neg
  · rw [← Int.ofNat_tdiv, ← Int.ofNat_tdiv, ← Int.ofNat_tdiv, Nat.div_div_eq_div_mul]
  · rw [Int.neg_tdiv, Int.neg_tdiv, Int.neg_tdiv, ← Int.ofNat_tdiv, ← Int.ofNat_tdiv,
      ← Int.ofNat_tdiv, Nat.div_div_eq_div_mul]

/-- A shift to the right takes one to the left back. -/
theorem Denotes.shiftRight_shiftLeft (hx : x.Denotes i) (n : Nat) :
    ((x.shiftLeft n).shiftRight n).Denotes i := by
  have h := (hx.shiftLeft n).shiftRight n
  rwa [Int.mul_tdiv_cancel i (by positivity)] at h

/-- Shifts to the left add up. -/
theorem Denotes.shiftLeft_shiftLeft (hx : x.Denotes i) (m n : Nat) :
    ((x.shiftLeft m).shiftLeft n).Denotes (i * 2 ^ (m + n)) := by
  have h := (hx.shiftLeft m).shiftLeft n
  rwa [mul_assoc, ← pow_add] at h

/-- Shifts to the right add up, also for negative numbers. -/
theorem Denotes.shiftRight_shiftRight (hx : x.Denotes i) (m n : Nat) :
    ((x.shiftRight m).shiftRight n).Denotes (i.tdiv (2 ^ (m + n))) := by
  have h := (hx.shiftRight m).shiftRight n
  have hpow := tdiv_tdiv i (2 ^ m) (2 ^ n)
  push_cast at hpow
  rwa [hpow, ← pow_add] at h

/-- A shift within the places of an integer reads and writes stored places only.
Up it multiplies by a power of two; down it divides the magnitude, and the sign
stays unless nothing is left.  A shift down undoes a shift up, shifts in one
direction add up, and a shift by whole digits is one by thirty bits for each. -/
theorem shifts_exact (hx : x.Denotes i) (n : Nat) :
    x.shiftLeft? n = some (x.shiftLeft n) ∧ (x.shiftLeft n).Denotes (i * 2 ^ n) ∧
    x.shiftRight? n = some (x.shiftRight n) ∧
    (x.shiftRight n).Denotes (i.sign * (i.natAbs / 2 ^ n : Nat)) ∧
    ((x.shiftLeft n).shiftRight n).equals x = true ∧
    (∀ m, ((x.shiftLeft n).shiftLeft m).equals (x.shiftLeft (n + m)) = true ∧
      ((x.shiftRight n).shiftRight m).equals (x.shiftRight (n + m)) = true) ∧
    (∀ c, 30 * c < 2 ^ 64 → x.shiftLeftDigits? c = x.shiftLeft? (30 * c) ∧
      x.shiftRightDigits? c = x.shiftRight? (30 * c)) := by
  refine ⟨hx.shiftLeft?_eq n, hx.shiftLeft n, hx.shiftRight?_eq n, ?_, ?_, ?_, ?_⟩
  · have hfloor := tdiv_eq_sign_mul i (2 ^ n)
    rw [Nat.cast_pow, Nat.cast_ofNat] at hfloor
    exact (hx.shiftRight n).of_eq hfloor
  · exact ((hx.shiftRight_shiftLeft n).equals_iff hx).mpr rfl
  · intro m
    constructor
    · exact ((hx.shiftLeft_shiftLeft n m).equals_iff (hx.shiftLeft (n + m))).mpr rfl
    · exact ((hx.shiftRight_shiftRight n m).equals_iff (hx.shiftRight (n + m))).mpr rfl
  · intro c hc
    unfold shiftLeftDigits? shiftRightDigits?
    rw [digitBits?_eq hc]
    exact ⟨rfl, rfl⟩

/-- A place and a bit, up and down, of a negative integer with a reserved place. -/
theorem shifts_exact_across_places :
    Denotes ⟨true, [1, 0x3FFFFFFF, 0]⟩ (-(2 ^ 60 - 2 ^ 30 + 1)) ∧
    shiftLeft? ⟨true, [1, 0x3FFFFFFF, 0]⟩ 31 = some ⟨true, [0, 2, 0x3FFFFFFE, 1]⟩ ∧
    Denotes ⟨true, [0, 2, 0x3FFFFFFE, 1]⟩ (-(2 ^ 60 - 2 ^ 30 + 1) * 2 ^ 31) ∧
    shiftRight? ⟨true, [1, 0x3FFFFFFF, 0]⟩ 31 = some ⟨true, [0x1FFFFFFF, 0, 0]⟩ ∧
    Denotes ⟨true, [0x1FFFFFFF, 0, 0]⟩ (-(2 ^ 29 - 1)) ∧
    30 * 1 < 2 ^ 64 ∧
    shiftLeftDigits? ⟨true, [1, 0x3FFFFFFF, 0]⟩ 1 = shiftLeft? ⟨true, [1, 0x3FFFFFFF, 0]⟩ 30 := by
  have hx : Denotes ⟨true, [1, 0x3FFFFFFF, 0]⟩ (-(2 ^ 60 - 2 ^ 30 + 1)) :=
    ⟨by simp [Canonical, base, Digits.isZero], by decide⟩
  obtain ⟨hup, hupTo, hdown, hdownTo, -, -, hdigits⟩ := shifts_exact hx 31
  have hplaces : 30 * 1 < 2 ^ 64 := by decide
  have hrunUp : Integer.shiftLeft ⟨true, [1, 0x3FFFFFFF, 0]⟩ 31 =
      ⟨true, [0, 2, 0x3FFFFFFE, 1]⟩ := by decide +kernel
  have hrunDown : Integer.shiftRight ⟨true, [1, 0x3FFFFFFF, 0]⟩ 31 =
      ⟨true, [0x1FFFFFFF, 0, 0]⟩ := by decide +kernel
  rw [hrunUp] at hup hupTo
  rw [hrunDown] at hdown hdownTo
  exact ⟨hx, hup, hupTo, hdown, hdownTo.of_eq (by decide), hplaces, (hdigits 1 hplaces).1⟩

end Multiprecision.Integer
