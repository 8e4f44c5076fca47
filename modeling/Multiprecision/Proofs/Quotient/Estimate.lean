import Mathlib
import Multiprecision.Proofs.Integer.Double
import Multiprecision.Proofs.Quotient.Long

/-!
# Multiprecision.Proofs.Quotient.Estimate

Long division of magnitudes always has a result (`long_yields`).  An estimate
that is off by no more than the corrections that are allowed is settled
(`settle_succeeds`), and the leading digits as doubles give such an estimate
(`leadingEstimate_reliable`): each of them is off by about `2^(-46)` of itself,
and the quotient is below `2^30`.
-/

namespace Multiprecision.Quotient

open Digits Integer

/-! ## Estimates that are near enough -/

variable {remainder divisor multiple : Integer} {R D left allowed : Nat} {q : Digit}

/-- The number of corrections that take `q` to `exact` is at most `left`. -/
def Within (left q exact : Nat) : Prop := q ≤ exact + left ∧ exact ≤ q + left

instance (left q exact : Nat) : Decidable (Within left q exact) :=
  inferInstanceAs (Decidable (_ ∧ _))

/-- A correction downwards brings an estimate nearer that is too large. -/
theorem Within.pred {q exact : Nat} (h : Within (left + 1) q exact) (hlt : exact < q) :
    Within left (q - 1) exact := by
  rw [Within] at h ⊢
  omega

/-- An estimate within reach is lowered until it is not too large. -/
theorem lowerEstimate_succeeds (hr : remainder.Denotes R) (hd : divisor.Denotes D) (hpos : 0 < D)
    (hm : multiple.Denotes ((q.toNat * D : Nat) : Int)) (h : Within left q.toNat (R / D)) :
    ∃ left' q' multiple', lowerEstimate remainder divisor left q multiple =
      .ok (left', q', multiple') ∧ R / D ≤ q'.toNat + left' := by
  induction left generalizing q multiple with
  | zero =>
    rw [lowerEstimate, if_neg]
    · exact ⟨0, q, multiple, rfl, h.2⟩
    · rw [hr.below_iff hm, Int.natAbs_natCast, Int.natAbs_natCast, not_lt]
      exact (Nat.le_div_iff_mul_le hpos).mp h.1
  | succ left ih =>
    rw [lowerEstimate]
    split
    · next hlt =>
      rw [hr.below_iff hm, Int.natAbs_natCast, Int.natAbs_natCast] at hlt
      have hq : R / D < q.toNat := (Nat.div_lt_iff_lt_mul hpos).mpr hlt
      have hone : (1 : Digit).toNat ≤ q.toNat := Nat.one_le_of_lt hq
      have hpred : (q - 1).toNat = q.toNat - 1 := UInt32.toNat_sub_of_le _ _ hone
      have hle : D ≤ q.toNat * D := Nat.le_mul_of_pos_left D (Nat.zero_lt_of_lt hq)
      have hdiff := hm.subSmaller hd (Int.natCast_nonneg D) (by exact_mod_cast hle)
      rw [← Nat.cast_sub hle, ← Nat.sub_one_mul, ← hpred] at hdiff
      exact ih hdiff (hpred ▸ h.pred hq)
    · exact ⟨left + 1, q, multiple, rfl, h.2⟩

/-- A remainder of fewer divisors than corrections are left is brought down. -/
theorem raiseEstimate_succeeds (hr : remainder.Denotes R) (hd : divisor.Denotes D)
    (hlt : R < (left + 1) * D) : ∃ p, raiseEstimate divisor left q remainder = .ok p := by
  induction left generalizing q remainder R with
  | zero =>
    rw [raiseEstimate, if_pos]
    · exact ⟨_, rfl⟩
    · rw [hr.below_iff hd]
      simpa using hlt
  | succ left ih =>
    rw [raiseEstimate]
    split
    · exact ⟨_, rfl⟩
    · next hge =>
      rw [hr.below_iff hd, Int.natAbs_natCast, Int.natAbs_natCast, not_lt] at hge
      have hdiff := hr.subSmaller hd (Int.natCast_nonneg D) (by exact_mod_cast hge)
      rw [← Nat.cast_sub hge] at hdiff
      refine ih hdiff ?_
      rw [Nat.succ_mul] at hlt
      omega

/-- A digit is found from any estimate that is near enough. -/
theorem settle_succeeds (hr : remainder.Denotes R) (hd : divisor.Denotes D) (hpos : 0 < D)
    (h : Within allowed q.toNat (R / D)) : ∃ p, settle allowed remainder divisor q = .ok p := by
  have hroom {q left : Nat} (hle : R / D ≤ q + left) : R - q * D < (left + 1) * D := by
    have hlt : R < (q + left + 1) * D := (Nat.div_lt_iff_lt_mul hpos).mp (Nat.lt_succ_of_le hle)
    have hsplit : (q + left + 1) * D = q * D + (left + 1) * D := by ring
    have hmore : 0 < (left + 1) * D := by positivity
    omega
  rw [settle]
  split
  · next hzero =>
    have hle := h.2
    rw [hzero] at hle
    have hlt := hroom hle
    rw [UInt32.toNat_zero, Nat.zero_mul, Nat.sub_zero] at hlt
    exact raiseEstimate_succeeds hr hd hlt
  · have hmultiple := hd.mulWord q
    rw [Int.mul_comm, ← Nat.cast_mul] at hmultiple
    obtain ⟨left, q', multiple, hlower, hle⟩ := lowerEstimate_succeeds hr hd hpos hmultiple h
    obtain ⟨hmul, hfit⟩ := lowerEstimate_ensures hr hd hmultiple _ hlower
    have hdiff := hr.subSmaller hmul (Int.natCast_nonneg _) (by exact_mod_cast hfit)
    rw [← Nat.cast_sub hfit] at hdiff
    rw [hlower]
    exact raiseEstimate_succeeds hdiff hd (hroom hle)

/-! ## All digits -/

/-- The estimates are near the digits of quotients by `D`, so that `allowed`
corrections are enough. -/
def Reliable (allowed : Nat) (estimate : Estimate) (D : Nat) : Prop :=
  ∀ (place : Nat) (remainder : Integer) (R : Nat), remainder.Denotes R → R < base * D →
    Within allowed (estimate place remainder).toNat (R / D)

variable {estimate : Estimate}

/-- A division succeeds if the estimates are reliable. -/
theorem divideDigits_succeeds (h : Reliable allowed estimate D) (hd : divisor.Denotes D)
    {lower : List Digit} (qs : List Digit) (hlower : InRange lower) (hr : remainder.Denotes R)
    (hlt : R < D) : ∃ p, divideDigits allowed estimate divisor lower remainder qs = .ok p := by
  induction lower generalizing remainder R qs with
  | nil => exact ⟨_, rfl⟩
  | cons d lower ih =>
    obtain ⟨hdr, hlower⟩ := inRange_cons.mp hlower
    have hpull := pull_denotes hr hdr
    have hroom : R * base + d.toNat < base * D := by
      have hle := Nat.mul_le_mul_right base hlt
      rw [Nat.succ_mul] at hle
      rw [Nat.mul_comm base]
      omega
    obtain ⟨⟨q, r⟩, hsettle⟩ := settle_succeeds hpull hd (Nat.zero_lt_of_lt hlt)
      (h lower.length _ _ hpull hroom)
    obtain ⟨R', hR', -, hR'lt, -⟩ := settle_ensures hpull hd hroom _ _ hsettle
    obtain ⟨p, hp⟩ := ih (q :: qs) hlower hR' hR'lt
    refine ⟨p, ?_⟩
    rw [divideDigits]
    dsimp only
    rw [hsettle]
    exact hp

/-- Long division has a result if its estimates are near the digits. -/
theorem longWith_succeeds {dividend divisor : Integer} {i j : Int} (ha : dividend.Denotes i)
    (hb : divisor.Denotes j) (hj : j ≠ 0) (h : Reliable allowed estimate j.natAbs) :
    ∃ p, longWith allowed estimate dividend divisor = .ok p := by
  have hn : divisor.digitCount ≠ 0 := fun hzero => hj (by simpa [hzero] using hb.natAbs_lt)
  rw [longWith]
  simp only [if_neg hn]
  split
  · exact ⟨_, rfl⟩
  · have hd := hb.abs_natAbs.trim
    have hpos := Int.natAbs_pos.mpr hj
    have hr := ha.significant.1
    have hroom := top_lt ha hb hn
    set start := dividend.significant.length - divisor.digitCount
    have htop := denotes_nonneg (hr.drop start) rfl
    obtain ⟨⟨q, r⟩, hsettle⟩ := settle_succeeds htop hd hpos (h start _ _ htop hroom)
    obtain ⟨R, hR, -, hRlt, -⟩ := settle_ensures htop hd hroom _ _ hsettle
    have hlower : InRange (dividend.significant.take start).reverse :=
      fun d h => hr.take start d (List.mem_reverse.mp h)
    obtain ⟨⟨qs, r'⟩, hdigits⟩ := divideDigits_succeeds h hd [q] hlower hR hRlt
    refine ⟨(dividend.overwrite qs, r'.normalizeSign), ?_⟩
    rw [hsettle]
    change (divideDigits _ _ _ _ _ _ >>= _) = _
    rw [hdigits]
    rfl

/-! ## Leading digits as estimates -/

/-- Quotients of numbers that are close are close. -/
theorem ratio_near {v w v' w' : ℚ} (hv : 0 ≤ v) (hw : 1 ≤ w) (hlt : v ≤ 2 ^ 30 * w)
    (hnear : |v' - v| ≤ (v + 1) / 2 ^ 46) (hnear' : |w' - w| ≤ (w + 1) / 2 ^ 46) :
    0 < w' ∧ |v' / w' - v / w| ≤ 1 / 2 ^ 10 := by
  have hhalf : w / 2 ≤ w' := by linarith [(abs_le.mp hnear').1]
  have hpos : 0 < w' := by linarith
  refine ⟨hpos, ?_⟩
  rw [div_sub_div _ _ hpos.ne' (by positivity), abs_div, abs_of_pos (by positivity : 0 < w' * w),
    div_le_iff₀ (by positivity)]
  have hsplit : v' * w - w' * v = (v' - v) * w - (w' - w) * v := by ring
  have hfirst : |(v' - v) * w| ≤ (v + 1) / 2 ^ 46 * w := by
    rw [abs_mul, abs_of_pos (by linarith : 0 < w)]
    exact mul_le_mul_of_nonneg_right hnear (by linarith)
  have hsecond : |(w' - w) * v| ≤ (w + 1) / 2 ^ 46 * v := by
    rw [abs_mul, abs_of_nonneg hv]
    exact mul_le_mul_of_nonneg_right hnear' hv
  have hsquare : w / 2 * w ≤ w' * w := mul_le_mul_of_nonneg_right hhalf (by linarith)
  have hvw : v * w ≤ 2 ^ 30 * w * w := mul_le_mul_of_nonneg_right hlt (by linarith)
  have hww : w ≤ w * w := le_mul_of_one_le_left (by linarith) hw
  calc |v' * w - w' * v| ≤ |(v' - v) * w| + |(w' - w) * v| := hsplit ▸ abs_sub _ _
    _ ≤ (v + 1) / 2 ^ 46 * w + (w + 1) / 2 ^ 46 * v := add_le_add hfirst hsecond
    _ ≤ 1 / 2 ^ 10 * (w' * w) := by linarith

/-- A digit near the exact quotient is off by few corrections. -/
theorem within_of_near {n : Nat} (hn : (n : ℚ) ≤ R / D + 2) (hn' : (R : ℚ) / D ≤ n + 2) :
    Within maxCorrections n (R / D) := by
  have hle : ((R / D : Nat) : ℚ) ≤ R / D := Nat.cast_div_le
  have hlt : (R : ℚ) / D < (R / D : Nat) + 1 := by
    rw [← Nat.floor_div_eq_div (K := ℚ)]
    exact Nat.lt_floor_add_one _
  have hupper : (n : ℚ) < (R / D + 3 : Nat) := by push_cast; linarith
  have hlower : ((R / D : Nat) : ℚ) < (n + 3 : Nat) := by push_cast; linarith
  exact ⟨by exact_mod_cast hupper.le, by exact_mod_cast hlower.le⟩

/-- The leading digits of a number that is not too large, as a double. -/
theorem scaled_near {x : Integer} {i : Int} (h : x.Denotes i) (unit : Int)
    (hsmall : i.natAbs * Integer.place unit 0 ≤ 2 ^ 60) :
    ∃ v', Double.Holds (x.scaled unit) v' ∧
      |v' - i.natAbs * Integer.place unit 0| ≤ (i.natAbs * Integer.place unit 0 + 1) / 2 ^ 46 := by
  obtain ⟨v', hholds, hnear⟩ := h.scaled unit (hsmall.trans (by norm_num))
  have htiny : (2 : ℚ) ^ (-993 : ℤ) ≤ 1 / 2 ^ 52 :=
    (Double.two_zpow_le (by norm_num : (-993 : ℤ) ≤ -52)).trans_eq (by norm_num)
  rw [slack] at hnear
  exact ⟨v', hholds, hnear.trans (by linarith)⟩

/-- The double that is cut to a digit is near the exact quotient. -/
theorem quotient_near {x y : Float} {v w v' w' : ℚ} (hx : Double.Holds x v')
    (hy : Double.Holds y w') (hv : 0 ≤ v) (hw : 1 ≤ w) (hlt : v ≤ 2 ^ 30 * w)
    (hnear : |v' - v| ≤ (v + 1) / 2 ^ 46) (hnear' : |w' - w| ≤ (w + 1) / 2 ^ 46) :
    ∃ s, Double.Holds (x / y) s ∧ |s - v / w| ≤ 1 := by
  obtain ⟨hpos, hratio⟩ := ratio_near hv hw hlt hnear hnear'
  have hquotient : v / w ≤ 2 ^ 30 := (div_le_iff₀ (by linarith)).mpr hlt
  have hbound : v' / w' ≤ 2 ^ 31 := by linarith [(abs_le.mp hratio).2]
  have hlarge : (2 : ℚ) ^ (31 : ℤ) < 2 ^ (1023 : ℤ) := Double.two_zpow_lt (by norm_num)
  obtain ⟨s, hs, hholds⟩ := hx.div hy hpos (hbound.trans_lt hlarge)
  have hround := hs.abs_sub_le (div_nonneg hx.nonneg hpos.le)
  have htiny : (2 : ℚ) ^ (-1075 : ℤ) ≤ 1 / 2 ^ 2 :=
    (Double.two_zpow_le (by norm_num : (-1075 : ℤ) ≤ -2)).trans_eq (by norm_num)
  refine ⟨s, hholds, ?_⟩
  rw [abs_le] at hround hratio ⊢
  constructor <;> linarith [hround.1, hround.2, hratio.1, hratio.2]

/-- The digit that a double near the quotient is cut to. -/
theorem cut_within {x : Float} {s : ℚ} (hx : Double.Holds x s) (hlt : R < base * D)
    (hnear : |s - R / D| ≤ 1) :
    Within maxCorrections
      (if mask.toFloat ≤ x then mask else x.toUInt32 : Digit).toNat (R / D) := by
  rw [abs_le] at hnear
  have hmask : ((mask.toNat : ℕ) : ℚ) = 2 ^ 30 - 1 := by
    rw [show mask.toNat = 2 ^ 30 - 1 from rfl]
    norm_num
  split
  · next hle =>
    rw [(Double.holds_toFloat mask).le_iff hx, hmask] at hle
    have hpos : 0 < D := Nat.pos_of_ne_zero fun hzero => by
      rw [hzero, Nat.mul_zero] at hlt
      exact Nat.not_lt_zero R hlt
    have hroom : (R : ℚ) ≤ (base * D : Nat) := by exact_mod_cast hlt.le
    have hquotient : (R : ℚ) / D ≤ 2 ^ 30 := by
      rw [div_le_iff₀ (by exact_mod_cast hpos)]
      exact hroom.trans_eq (by norm_num [base])
    refine within_of_near ?_ ?_ <;> rw [hmask] <;> linarith
  · next hgt =>
    rw [(Double.holds_toFloat mask).le_iff hx, hmask, not_le] at hgt
    obtain ⟨hle, hlt'⟩ := hx.toUInt32 (by linarith)
    exact within_of_near (by linarith) (by linarith)

/-- The estimate from the leading digits is within the corrections allowed, for
every divisor. -/
theorem leadingEstimate_reliable {divisor : Integer} {j : Int} (hb : divisor.Denotes j)
    (hj : j ≠ 0) : Reliable maxCorrections (leadingEstimate divisor) j.natAbs := by
  intro place remainder R hr hlt
  have hroom : (R : ℚ) ≤ 2 ^ 30 * j.natAbs := by
    have hle : R ≤ 2 ^ 30 * j.natAbs := hlt.le
    exact_mod_cast hle
  have hcount : divisor.digitCount ≠ 0 := fun hzero => hj (by simpa [hzero] using hb.natAbs_lt)
  have hlow : base ^ (divisor.digitCount - 1) ≤ j.natAbs := by
    rw [← hb.value_digits]
    exact base_pow_le_value (Nat.pos_of_ne_zero hcount)
  have hhigh : j.natAbs < base ^ (divisor.digitCount - 1 + 1) := by
    rw [Nat.sub_add_cancel (Nat.pos_of_ne_zero hcount)]
    exact hb.natAbs_lt
  set unit := divisor.digitCount - 1 with hunit
  -- The digit in place `unit` counts ones, so the divisor is a number from one to `base`.
  have hscale := place_eq (unit : Int) unit
  rw [Integer.place, sub_self, zero_mul, zpow_zero] at hscale
  have hpos := place_pos (unit : Int) 0
  have hw : 1 ≤ j.natAbs * Integer.place (unit : Int) 0 := by
    rw [hscale]
    exact mul_le_mul_of_nonneg_right (by exact_mod_cast hlow) hpos.le
  have hw' : j.natAbs * Integer.place (unit : Int) 0 ≤ 2 ^ 30 := by
    have hle : (j.natAbs : ℚ) ≤ base * base ^ unit := by
      rw [← pow_succ']
      exact_mod_cast hhigh.le
    calc j.natAbs * Integer.place (unit : Int) 0
        ≤ base * base ^ unit * Integer.place (unit : Int) 0 :=
          mul_le_mul_of_nonneg_right hle hpos.le
      _ = 2 ^ 30 := by rw [mul_assoc, ← hscale, mul_one, base_eq]; norm_num [width]
  have hvw : R * Integer.place (unit : Int) 0 ≤
      2 ^ 30 * (j.natAbs * Integer.place (unit : Int) 0) := by
    rw [← mul_assoc]
    exact mul_le_mul_of_nonneg_right hroom hpos.le
  have hv : 0 ≤ R * Integer.place (unit : Int) 0 := by positivity
  obtain ⟨v', hholds, hnear⟩ := scaled_near hr unit (by rw [Int.natAbs_natCast]; linarith)
  obtain ⟨w', hholds', hnear'⟩ := scaled_near hb unit (by linarith)
  rw [Int.natAbs_natCast] at hnear
  obtain ⟨s, hs, hratio⟩ := quotient_near hholds hholds' hv hw hvw hnear hnear'
  rw [mul_div_mul_right _ _ hpos.ne'] at hratio
  exact cut_within hs hlt hratio

/-- Long division of magnitudes by something other than zero has a result,
and it is the exact one. -/
theorem long_yields {may : Endings} {dividend divisor : Integer} {i j : Int}
    (ha : dividend.Denotes i) (hb : divisor.Denotes j) (hj : j ≠ 0) :
    Outcome.Yields may (fun (q, r) => Denotes q (i.natAbs / j.natAbs : Nat) ∧
        Denotes r (i.natAbs % j.natAbs : Nat))
      (liftM (long dividend divisor)) := by
  obtain ⟨p, hp⟩ := longWith_succeeds ha hb hj (leadingEstimate_reliable hb hj)
  exact Outcome.Yields.liftM_ok hp (long_ensures ha hb p hp)

end Multiprecision.Quotient
