import Mathlib
import Multiprecision.Quotient.Long
import Multiprecision.Proofs.Integer.Shift
import Multiprecision.Proofs.Integer.Word
import Multiprecision.Proofs.Outcome

/-!
# Multiprecision.Proofs.Quotient.Long

Long division is exact for any estimates (`longWith_ensures`): a digit is
accepted only with a remainder below the divisor, so an estimate that is far
off ends in an error and never in a wrong digit.

The remainder before each digit is below `base` times the divisor, which
keeps the digit in range and its corrections from wrapping around.
-/

namespace Multiprecision.Quotient

open Digits Integer

/-! ## Settling one digit -/

variable {remainder divisor multiple : Integer} {R D m : Nat} {q d : Digit} {left allowed : Nat}

/-- A lowered estimate comes with its multiple, which is not too large. -/
theorem lowerEstimate_ensures (hr : remainder.Denotes R) (hd : divisor.Denotes D)
    (hm : multiple.Denotes ((q.toNat * D : Nat) : Int)) :
    Ensures (fun (_, q', multiple') =>
        Denotes multiple' ((q'.toNat * D : Nat) : Int) ∧ q'.toNat * D ≤ R)
      (lowerEstimate remainder divisor left q multiple) := by
  induction left generalizing q multiple with
  | zero =>
    rw [lowerEstimate]
    split
    · exact ensures_error
    · next hge =>
      rw [hr.below_iff hm] at hge
      exact ensures_ok ⟨hm, by omega⟩
  | succ left ih =>
    rw [lowerEstimate]
    split
    · next hlt =>
      rw [hr.below_iff hm, Int.natAbs_natCast, Int.natAbs_natCast] at hlt
      have hpos : 0 < q.toNat := Nat.pos_of_ne_zero fun h => by
        rw [h, Nat.zero_mul] at hlt
        exact Nat.not_lt_zero _ hlt
      have hone : (1 : Digit).toNat ≤ q.toNat := hpos
      have hpred : (q - 1).toNat = q.toNat - 1 := UInt32.toNat_sub_of_le _ _ hone
      have hle : D ≤ q.toNat * D := Nat.le_mul_of_pos_left D hpos
      have hdiff := hm.subSmaller hd (Int.natCast_nonneg D) (by exact_mod_cast hle)
      rw [← Nat.cast_sub hle, ← Nat.sub_one_mul, ← hpred] at hdiff
      exact ih hdiff
    · next hge =>
      rw [hr.below_iff hm] at hge
      exact ensures_ok ⟨hm, by omega⟩

/-- A raised estimate leaves a remainder below the divisor. -/
theorem raiseEstimate_ensures (hr : remainder.Denotes R) (hd : divisor.Denotes D)
    (hroom : q.toNat * D + R < base * D) :
    Ensures (fun (q', remainder') => ∃ R' : Nat, Denotes remainder' R' ∧
        q'.toNat * D + R' = q.toNat * D + R ∧ R' < D)
      (raiseEstimate divisor left q remainder) := by
  induction left generalizing q remainder R with
  | zero =>
    rw [raiseEstimate]
    split
    · next hlt =>
      rw [hr.below_iff hd] at hlt
      exact ensures_ok ⟨R, hr, rfl, by omega⟩
    · exact ensures_error
  | succ left ih =>
    rw [raiseEstimate]
    split
    · next hlt =>
      rw [hr.below_iff hd] at hlt
      exact ensures_ok ⟨R, hr, rfl, by omega⟩
    · next hge =>
      rw [hr.below_iff hd, Int.natAbs_natCast, Int.natAbs_natCast, not_lt] at hge
      have hlt : q.toNat < base := lt_of_mul_lt_mul_right ((Nat.le_add_right _ R).trans_lt hroom)
        (Nat.zero_le D)
      have hsucc : (q + 1).toNat = q.toNat + 1 := by
        have hbase : base = 1073741824 := rfl
        rw [UInt32.toNat_add, UInt32.toNat_one]
        omega
      have hdiff := hr.subSmaller hd (Int.natCast_nonneg D) (by exact_mod_cast hge)
      rw [← Nat.cast_sub hge] at hdiff
      have hsum : (q + 1).toNat * D + (R - D) = q.toNat * D + R := by
        rw [hsucc, Nat.succ_mul]
        omega
      have h := ih hdiff (hsum.trans_lt hroom)
      rwa [hsum] at h

/-- A digit that is accepted is the exact one, whatever the estimate. -/
theorem settle_ensures (hr : remainder.Denotes R) (hd : divisor.Denotes D)
    (hroom : R < base * D) (q : Digit) :
    Ensures (fun (q', remainder') => ∃ R' : Nat, Denotes remainder' R' ∧
        q'.toNat * D + R' = R ∧ R' < D ∧ q'.toNat < base)
      (settle allowed remainder divisor q) := by
  have hdigit {q' : Digit} {R' : Nat} (heq : q'.toNat * D + R' = R) : q'.toNat < base := by
    refine lt_of_mul_lt_mul_right ?_ (Nat.zero_le D)
    omega
  rw [settle]
  split
  · next hzero =>
    have hq : q.toNat * D + R = R := by rw [hzero, UInt32.toNat_zero, Nat.zero_mul, Nat.zero_add]
    refine (raiseEstimate_ensures hr hd (hq.trans_lt hroom)).mono ?_
    rintro ⟨q', r⟩ ⟨R', hR', heq, hlt⟩
    rw [hq] at heq
    exact ⟨R', hR', heq, hlt, hdigit heq⟩
  · have hmultiple := hd.mulWord q
    rw [Int.mul_comm, ← Nat.cast_mul] at hmultiple
    refine (lowerEstimate_ensures hr hd hmultiple).bind ?_
    rintro ⟨left, q', multiple⟩ ⟨hmul, hle⟩
    have hdiff := hr.subSmaller hmul (Int.natCast_nonneg _) (by exact_mod_cast hle)
    rw [← Nat.cast_sub hle] at hdiff
    have hsum : q'.toNat * D + (R - q'.toNat * D) = R := Nat.add_sub_cancel' hle
    refine (raiseEstimate_ensures hdiff hd (hsum.trans_lt hroom)).mono ?_
    rintro ⟨q'', r⟩ ⟨R', hR', heq, hlt⟩
    rw [hsum] at heq
    exact ⟨R', hR', heq, hlt, hdigit heq⟩

/-! ## All digits -/

/-- The next digit is put below the remainder. -/
theorem pull_denotes (hr : remainder.Denotes R) (hd : d.toNat < base) :
    (pull remainder d).Denotes ((R * base + d.toNat : Nat) : Int) := by
  have hshift := (hr.shiftLeftDigits 1).reserve 1
  rw [pow_one] at hshift
  have hlen : 1 ≤ ((remainder.shiftLeftDigits 1).reserve 1).digits.length := by
    rw [reserve, length_padTo]
    exact le_max_left _ _
  have hvalue := hshift.value_digits
  have hrange := hshift.inRange
  refine denotes_mk (inRange_cons.mpr ⟨hd, hrange.drop 1⟩) ?_ ?_
  · have hnonneg : 0 ≤ (R : Int) * base := by positivity
    exact hshift.negative.trans (decide_eq_decide.mpr (by omega))
  · have hdrop := value_drop hrange 1
    rw [hvalue, pow_one, Int.natAbs_mul, Int.natAbs_natCast, Int.natAbs_natCast,
      Nat.mul_div_cancel _ base_pos] at hdrop
    rw [value_cons, hdrop, Int.natAbs_natCast]
    ring

/-- The digits of the quotient, with a remainder below the divisor, make up the
dividend. -/
theorem divideDigits_ensures (estimate : Estimate) (hd : divisor.Denotes D)
    {lower qs : List Digit} (hlower : InRange lower) (hr : remainder.Denotes R) (hlt : R < D)
    (hqs : InRange qs) :
    Ensures (fun (qs', remainder') => ∃ R' : Nat, Denotes remainder' R' ∧ R' < D ∧
        InRange qs' ∧ value qs' * D + R' =
          (value qs * D + R) * base ^ lower.length + value lower.reverse)
      (divideDigits allowed estimate divisor lower remainder qs) := by
  induction lower generalizing remainder R qs with
  | nil => exact ensures_ok ⟨R, hr, hlt, hqs, by simp⟩
  | cons d lower ih =>
    obtain ⟨hdr, hlower⟩ := inRange_cons.mp hlower
    have hroom : R * base + d.toNat < base * D := by
      have hle := Nat.mul_le_mul_right base hlt
      rw [Nat.succ_mul] at hle
      rw [Nat.mul_comm base]
      omega
    rw [divideDigits]
    refine (settle_ensures (pull_denotes hr hdr) hd hroom _).bind ?_
    rintro ⟨q, r⟩ ⟨R', hR', heq, hR'lt, hq⟩
    refine (ih hlower hR' hR'lt (inRange_cons.mpr ⟨hq, hqs⟩)).mono ?_
    rintro ⟨qs', r'⟩ ⟨S, hS, hSlt, hqs', hsum⟩
    refine ⟨S, hS, hSlt, hqs', hsum.trans ?_⟩
    rw [value_cons, List.reverse_cons, value_append, List.length_cons, List.length_reverse,
      value_cons, value_nil, Nat.mul_zero, Nat.add_zero, pow_succ]
    have hstep : (q.toNat + base * value qs) * D + R' = (value qs * D + R) * base + d.toNat := by
      rw [add_mul, add_mul, Nat.add_right_comm, heq]
      ring
    rw [hstep]
    ring

/-- The top digits of the dividend, as many as the divisor has, are below `base`
times the divisor. -/
theorem top_lt {dividend divisor : Integer} {i j : Int} (ha : dividend.Denotes i)
    (hb : divisor.Denotes j) (hn : divisor.digitCount ≠ 0) :
    value (dividend.significant.drop (dividend.significant.length - divisor.digitCount)) <
      base * j.natAbs := by
  have hlow : base ^ (divisor.digitCount - 1) ≤ j.natAbs := by
    rw [← hb.value_digits]
    exact base_pow_le_value (Nat.pos_of_ne_zero hn)
  have hlen : (dividend.significant.drop
      (dividend.significant.length - divisor.digitCount)).length ≤ divisor.digitCount - 1 + 1 := by
    rw [List.length_drop]
    omega
  calc _ < base ^ _ := value_lt (ha.significant.1.drop _)
    _ ≤ base ^ (divisor.digitCount - 1 + 1) := Nat.pow_le_pow_right base_pos hlen
    _ = base * base ^ (divisor.digitCount - 1) := pow_succ' _ _
    _ ≤ base * j.natAbs := Nat.mul_le_mul_left base hlow

/-- A quotient that long division returns is the exact one, whatever the
estimates. -/
theorem longWith_ensures (estimate : Estimate) {dividend divisor : Integer} {i j : Int}
    (ha : dividend.Denotes i) (hb : divisor.Denotes j) :
    Ensures (fun (q, r) => Denotes q (i.natAbs / j.natAbs : Nat) ∧
        Denotes r (i.natAbs % j.natAbs : Nat))
      (longWith allowed estimate dividend divisor) := by
  rw [longWith]
  simp only
  split
  · exact ensures_error
  · next hn =>
    split
    · next hlt =>
      rw [ha.below_iff hb] at hlt
      rw [Nat.div_eq_of_lt hlt, Nat.mod_eq_of_lt hlt]
      exact ensures_ok ⟨denotes_cleared dividend, ha.abs_natAbs.compact⟩
    · next hge =>
      rw [ha.below_iff hb, not_lt] at hge
      have hd := hb.abs_natAbs.trim
      obtain ⟨hr, hv⟩ := ha.significant
      have hroom := top_lt ha hb hn
      set start := dividend.significant.length - divisor.digitCount
      have htop := denotes_nonneg (hr.drop start) rfl
      refine (settle_ensures htop hd hroom _).bind ?_
      rintro ⟨q, r⟩ ⟨R, hR, heq, hRlt, hq⟩
      have hlower : InRange (dividend.significant.take start).reverse :=
        fun d h => hr.take start d (List.mem_reverse.mp h)
      refine (divideDigits_ensures estimate hd hlower hR hRlt
        (inRange_cons.mpr ⟨hq, inRange_nil⟩)).bind ?_
      rintro ⟨qs, r'⟩ ⟨S, hS, hSlt, hqs, hsum⟩
      have hfirst : value [q] * j.natAbs + R = value (dividend.significant.drop start) := by
        rw [value_cons, value_nil, Nat.mul_zero, Nat.add_zero, heq]
      have hcount : (dividend.significant.take start).reverse.length = start := by
        rw [List.length_reverse, List.length_take, min_eq_left (Nat.sub_le _ _)]
      have hparts := value_take_add_drop start dividend.significant (Nat.sub_le _ _)
      rw [hfirst, hcount, List.reverse_reverse] at hsum
      have hwhole : S + j.natAbs * value qs = i.natAbs := by
        rw [← hv, hparts]
        linarith [hsum, Nat.mul_comm j.natAbs (value qs)]
      obtain ⟨hquotient, hremainder⟩ :=
        (Nat.div_mod_unique (Nat.zero_lt_of_lt hSlt)).mpr ⟨hwhole, hSlt⟩
      rw [hquotient, hremainder]
      exact ensures_ok ⟨denotes_overwrite dividend hqs, hS.normalizeSign⟩

/-- Long division of magnitudes is exact. -/
theorem long_ensures {dividend divisor : Integer} {i j : Int} (ha : dividend.Denotes i)
    (hb : divisor.Denotes j) :
    Ensures (fun (q, r) => Denotes q (i.natAbs / j.natAbs : Nat) ∧
        Denotes r (i.natAbs % j.natAbs : Nat))
      (long dividend divisor) := longWith_ensures _ ha hb

end Multiprecision.Quotient
