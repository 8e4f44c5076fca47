import Mathlib
import Multiprecision.Integer.Word
import Multiprecision.Proofs.Digits.Word
import Multiprecision.Proofs.Integer.Sum

/-!
# Multiprecision.Proofs.Integer.Word

Products and quotients by a machine word are those of the values:

* `Denotes.mulWord`, `Denotes.mulSignedWord`;
* `Denotes.divWord`, which rounds towards zero;
* `Denotes.divSignedWord`, which is Euclidean.

The lowest digit tells an even number from an odd one.
-/

namespace Multiprecision.Integer

open Digits

variable {x : Integer} {i : Int}

/-- A word fits the lower half of a double word. -/
theorem toNat_toUInt64_lt (w : UInt32) : w.toUInt64.toNat < 2 ^ 32 := by
  rw [UInt32.toNat_toUInt64]
  exact w.toNat_lt

theorem Denotes.mulWord (h : x.Denotes i) (w : UInt32) :
    (x.mulWord w).Denotes (i * w.toNat) := by
  rw [Integer.mulWord]
  split
  · next hzero =>
    rw [hzero, UInt32.toNat_zero, Nat.cast_zero, mul_zero]
    exact denotes_cleared x
  · next hne =>
    obtain ⟨hr, hv⟩ := h.significant
    have hpos : (0 : Int) < w.toNat := by
      exact_mod_cast Nat.pos_of_ne_zero (mt toNat_eq_zero_iff.mp hne)
    refine denotes_mk (inRange_padTo.mpr (inRange_mulWord _ _ _)) ?_ ?_
    · rw [h.negative]
      exact decide_eq_decide.mpr ⟨(mul_neg_of_neg_of_pos · hpos), (neg_of_mul_neg_left · hpos.le)⟩
    · rw [value_padTo, value_mulWord hr (toNat_toUInt64_lt w) (by decide), hv,
        UInt32.toNat_toUInt64, Int.natAbs_mul, Int.natAbs_natCast]
      rfl

/-- The quotient is rounded towards zero, and the remainder is that of the
magnitude. -/
theorem Denotes.divWord (h : x.Denotes i) {w : UInt32} (hw : w ≠ 0) :
    ∃ q r, x.divWord w = .ok (q, r) ∧ q.Denotes (i.tdiv w.toNat) ∧
      r.toNat = i.natAbs % w.toNat := by
  have hpos : 0 < w.toNat := Nat.pos_of_ne_zero (mt toNat_eq_zero_iff.mp hw)
  have hpos' : 0 < w.toUInt64.toNat := by rwa [UInt32.toNat_toUInt64]
  obtain ⟨heq, hr, hlt⟩ := divWord_spec h.inRange hpos' (toNat_toUInt64_lt w)
  rw [h.value_digits, UInt32.toNat_toUInt64] at heq
  rw [UInt32.toNat_toUInt64] at hlt
  have hsum := (Nat.add_comm _ _).trans heq
  rw [Nat.mul_comm] at hsum
  obtain ⟨hdiv, hmod⟩ := (Nat.div_mod_unique hpos).mpr ⟨hsum, hlt⟩
  refine ⟨_, _, by rw [Integer.divWord, if_neg hw], h.withQuotient hr hdiv.symm, ?_⟩
  have hw32 := w.toNat_lt
  rw [UInt64.toNat_toUInt32, hmod, Nat.mod_eq_of_lt (by omega)]

/-! ## Signed words -/

/-- The magnitude of a signed word, that of the least one included. -/
theorem toNat_wordMagnitude (w : Int32) : (wordMagnitude w).toNat = w.toInt.natAbs := by
  have hlo := w.le_toInt
  have hhi := w.toInt_lt
  rw [wordMagnitude, UInt32.toNat_ofNat', Nat.mod_eq_of_lt]
  omega

theorem Denotes.mulSignedWord (h : x.Denotes i) (w : Int32) :
    (x.mulSignedWord w).Denotes (i * w.toInt) := by
  have hproduct := h.mulWord (wordMagnitude w)
  rw [toNat_wordMagnitude] at hproduct
  rw [Integer.mulSignedWord]
  by_cases hw : w < 0
  · have hneg : w.toInt < 0 := Int32.lt_iff_toInt_lt.mp hw
    simp only [if_pos hw]
    refine hproduct.neg.of_eq ?_
    rw [Int.ofNat_natAbs_of_nonpos hneg.le, mul_neg, neg_neg]
  · have hnonneg : 0 ≤ w.toInt := not_lt.mp fun hlt => hw (Int32.lt_iff_toInt_lt.mpr hlt)
    simp only [if_neg hw]
    exact hproduct.of_eq (by rw [Int.natAbs_of_nonneg hnonneg])

/-- A negative dividend that leaves a remainder takes one more multiple of the
divisor. -/
theorem ediv_emod_of_neg {m : Nat} (hm : 0 < m) (hi : i < 0) (hr : i.natAbs % m ≠ 0) :
    i / m = -(i.natAbs / m + 1 : Nat) ∧ i % m = (m - i.natAbs % m : Nat) := by
  have hdm := Nat.div_add_mod i.natAbs m
  have hlt := Nat.mod_lt i.natAbs hm
  refine (Int.ediv_emod_unique (by exact_mod_cast hm)).mpr ⟨?_, by omega, by omega⟩
  have habs : i = -((m * (i.natAbs / m) + i.natAbs % m : Nat) : Int) := by omega
  conv_rhs => rw [habs]
  rw [Nat.cast_sub hlt.le]
  push_cast
  ring

/-- A quotient that was rounded towards zero, and its remainder, become the
Euclidean ones. -/
theorem euclidean_word (h : x.Denotes i) {m r : UInt32} (hm : m ≠ 0) {q : Integer}
    (hq : q.Denotes (i.tdiv m.toNat)) (hr : r.toNat = i.natAbs % m.toNat) :
    ∃ q' r', (if x.isNegative && r != 0 then
        (({ q.addMagnitude 1 with negative := true } : Integer), m - r) else (q, r)) = (q', r') ∧
      q'.Denotes (i / m.toNat) ∧ (r'.toNat : Int) = i % m.toNat := by
  have hpos : 0 < m.toNat := Nat.pos_of_ne_zero (mt toNat_eq_zero_iff.mp hm)
  have hrzero : r = 0 ↔ i.natAbs % m.toNat = 0 := by rw [← hr, toNat_eq_zero_iff]
  by_cases hcase : i < 0 ∧ i.natAbs % m.toNat ≠ 0
  · obtain ⟨hquotient, hremainder⟩ := ediv_emod_of_neg hpos hcase.1 hcase.2
    obtain ⟨hrange, hvalue⟩ := hq.addMagnitude_digits denotes_one
    refine ⟨_, _, if_pos (by simp [h.isNegative_iff.mpr hcase.1, hrzero, hcase.2]), ?_, ?_⟩
    · rw [hquotient]
      have hneg : -((i.natAbs / m.toNat + 1 : Nat) : Int) < 0 :=
        neg_lt_zero.mpr (by exact_mod_cast Nat.succ_pos _)
      refine denotes_mk hrange (decide_eq_true hneg).symm (hvalue.trans ?_)
      rw [Int.natAbs_neg, Int.natAbs_natCast, Int.natAbs_tdiv, Int.natAbs_natCast]
      rfl
    · have hle : r ≤ m := by
        rw [UInt32.le_iff_toNat_le, hr]
        exact (Nat.mod_lt _ hpos).le
      rw [hremainder, UInt32.toNat_sub_of_le _ _ hle, hr]
  · refine ⟨_, _, if_neg ?_, ?_, ?_⟩
    · rw [Bool.and_eq_true, h.isNegative_iff, bne_iff_ne, ne_eq, hrzero]
      exact hcase
    · rcases lt_or_ge i 0 with hi | hi
      · have hdvd : (m.toNat : Int) ∣ i := by
          rw [← Int.natAbs_dvd_natAbs, Int.natAbs_natCast]
          exact Nat.dvd_of_mod_eq_zero (by omega)
        rwa [Int.tdiv_eq_ediv_of_dvd hdvd] at hq
      · rwa [Int.tdiv_eq_ediv_of_nonneg hi] at hq
    · rw [hr]
      rcases lt_or_ge i 0 with hi | hi
      · have hdvd : (m.toNat : Int) ∣ i := by
          rw [← Int.natAbs_dvd_natAbs, Int.natAbs_natCast]
          exact Nat.dvd_of_mod_eq_zero (by omega)
        rw [Int.emod_eq_zero_of_dvd hdvd]
        omega
      · rw [Int.natCast_mod, Int.natAbs_of_nonneg hi]

/-- The quotient and the remainder by a signed word are the Euclidean ones. -/
theorem Denotes.divSignedWord (h : x.Denotes i) {w : Int32} (hw : w ≠ 0) :
    ∃ q r, x.divSignedWord w = .ok (q, r) ∧ q.Denotes (i / w.toInt) ∧
      (r.toNat : Int) = i % w.toInt := by
  have hmagnitude : wordMagnitude w ≠ 0 := by
    rw [Ne, ← toNat_eq_zero_iff, toNat_wordMagnitude, Int.natAbs_eq_zero]
    exact fun hzero => hw (Int32.toInt_inj.mp hzero)
  obtain ⟨q, r, hdiv, hq, hr⟩ := h.divWord hmagnitude
  obtain ⟨q', r', hfix, hq', hr'⟩ := euclidean_word h hmagnitude hq hr
  rw [toNat_wordMagnitude] at hq' hr'
  refine ⟨if w < 0 then q'.neg else q', r', ?_, ?_, ?_⟩
  · rw [Integer.divSignedWord, hdiv]
    exact congrArg (fun p => Except.ok (if w < 0 then p.1.neg else p.1, p.2)) hfix
  · by_cases hneg : w < 0
    · have hlt : w.toInt < 0 := Int32.lt_iff_toInt_lt.mp hneg
      rw [if_pos hneg]
      refine hq'.neg.of_eq ?_
      rw [Int.ofNat_natAbs_of_nonpos hlt.le, Int.ediv_neg, neg_neg]
    · have hge : 0 ≤ w.toInt := not_lt.mp fun hlt => hneg (Int32.lt_iff_toInt_lt.mpr hlt)
      rw [if_neg hneg]
      exact hq'.of_eq (by rw [Int.natAbs_of_nonneg hge])
  · rw [hr', ← Int.abs_eq_natAbs, Int.emod_abs]

/-- The lowest digit has the parity of the value. -/
theorem Denotes.isEven_iff (h : x.Denotes i) : x.isEven = true ↔ 2 ∣ i := by
  have hbase : base = 2 * 536870912 := rfl
  have hparity : (x.digit 0).toNat % 2 = i.natAbs % 2 := by
    rw [← h.value_digits, Integer.digit, List.drop_zero]
    cases x.digits with
    | nil => rfl
    | cons d ds =>
      rw [value_cons, List.headD_cons, hbase]
      omega
  rw [isEven, beq_iff_eq, ← UInt32.toNat_inj, UInt32.toNat_and, UInt32.toNat_one,
    UInt32.toNat_zero, Nat.and_one_is_mod, hparity]
  omega

end Multiprecision.Integer
