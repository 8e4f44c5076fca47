import Mathlib

/-!
# Multiprecision.Proofs.Double.Rounding

Rounding to a double by its arithmetic meaning:

* `Describes` — what a mantissa with its round and sticky bits says about the
  number that it was cut from, which shifts keep (`Describes.shiftRight`);
* `Rounds` — the nearest multiple of a unit in the last place;
* `roundWithAccuracy_stands` — the result of every operation on doubles that
  are not negative is its exact result, rounded.

Only numbers that are not negative and stay far below the largest double are
considered, which is all that an estimate of a quotient digit needs.
-/

namespace Multiprecision.Double

open Float.Model Float.Model.UnpackedFloat

/-! ## Mantissas with residual bits -/

/-- What a mantissa and its residual bits say about the number `x` that they
were cut from. -/
def Describes (em : ExtendedMantissa) (x : ℚ) : Prop :=
  match em.roundBit, em.stickyBit with
  | false, false => x = em.mantissa
  | false, true => em.mantissa < x ∧ x < em.mantissa + 1 / 2
  | true, false => x = em.mantissa + 1 / 2
  | true, true => em.mantissa + 1 / 2 < x ∧ x < em.mantissa + 1

variable {em : ExtendedMantissa} {x : ℚ}

/-- The mantissa is the integer part of the number it was cut from. -/
theorem Describes.floor (h : Describes em x) : em.mantissa ≤ x ∧ x < em.mantissa + 1 := by
  obtain ⟨m, round, sticky⟩ := em
  cases round <;> cases sticky <;> simp only [Describes] at h
  · exact ⟨h.ge, by linarith⟩
  · exact ⟨h.1.le, by linarith⟩
  · exact ⟨by linarith, by linarith⟩
  · exact ⟨by linarith, h.2⟩

/-- The rounded mantissa is a nearest integer. -/
theorem Describes.nearest (h : Describes em x) : |(em.roundedMantissa : ℚ) - x| ≤ 1 / 2 := by
  obtain ⟨m, round, sticky⟩ := em
  rw [abs_le]
  cases round <;> cases sticky <;> simp only [Describes] at h <;>
    simp only [ExtendedMantissa.roundedMantissa, ExtendedMantissa.accuracy,
      Accuracy.roundToNearestEven]
  · constructor <;> linarith
  · constructor <;> linarith
  · have htie : ((m % 2 : ℕ) : ℚ) = 0 ∨ ((m % 2 : ℕ) : ℚ) = 1 := by
      rcases Nat.mod_two_eq_zero_or_one m with h | h <;> simp [h]
    push_cast at htie ⊢
    constructor <;> rcases htie with htie | htie <;> rw [htie] <;> linarith
  · push_cast
    constructor <;> linarith

/-- Cutting off one more bit halves the number; the bit becomes the round bit,
and the sticky bit remembers those before it. -/
theorem Describes.shiftRightOne (h : Describes em x) : Describes em.shiftRightOne (x / 2) := by
  obtain ⟨m, round, sticky⟩ := em
  have hdm : (m : ℚ) = 2 * (m / 2 : ℕ) + (m % 2 : ℕ) := by exact_mod_cast (Nat.div_add_mod m 2).symm
  cases Nat.mod_two_eq_zero_or_one m with
  | inl heven =>
    have hbit : (m % 2 != 0) = false := by rw [heven]; rfl
    rw [heven] at hdm
    cases round <;> cases sticky <;>
      simp only [Describes, ExtendedMantissa.shiftRightOne, hbit, Bool.or_self, Bool.or_true,
        Bool.or_false] at h ⊢ <;> norm_num at hdm h ⊢ <;>
      first | linarith | (constructor <;> linarith)
  | inr hodd =>
    have hbit : (m % 2 != 0) = true := by rw [hodd]; rfl
    rw [hodd] at hdm
    cases round <;> cases sticky <;>
      simp only [Describes, ExtendedMantissa.shiftRightOne, hbit, Bool.or_self, Bool.or_true,
        Bool.or_false] at h ⊢ <;> norm_num at hdm h ⊢ <;>
      first | linarith | (constructor <;> linarith)

/-- Cutting off `n` bits divides the number by `2^n`. -/
theorem Describes.shiftRight (h : Describes em x) (n : ℕ) : Describes (em >>> n) (x / 2 ^ n) := by
  change Describes (n.repeat ExtendedMantissa.shiftRightOne em) _
  induction n with
  | zero => simpa [Nat.repeat] using h
  | succ n ih =>
    rw [Nat.repeat, pow_succ, ← div_div]
    exact ih.shiftRightOne

/-- An integer describes itself before any bit is cut off. -/
theorem describes_exact (m : ℕ) : Describes (.ofMantissaAndAccuracy m .exact) m := by
  simp [Describes, ExtendedMantissa.ofMantissaAndAccuracy]

/-- A quotient cut to an integer, with what its remainder says. -/
theorem describes_fraction (m : ℕ) {d : ℕ} (hd : 0 < d) :
    Describes (.ofMantissaAndAccuracy (m / d) (accuracyOfFraction (m % d) d)) (m / d) := by
  have hdq : (0 : ℚ) < d := by exact_mod_cast hd
  have hdm : (m : ℚ) = d * (m / d : ℕ) + (m % d : ℕ) := by
    exact_mod_cast (Nat.div_add_mod m d).symm
  have hlt : ((m % d : ℕ) : ℚ) < d := by exact_mod_cast Nat.mod_lt m hd
  have hquotient : (m : ℚ) / d = (m / d : ℕ) + (m % d : ℕ) / d := by
    rw [hdm]
    field_simp
  rw [accuracyOfFraction, hquotient]
  split
  · next hzero => simp [Describes, ExtendedMantissa.ofMantissaAndAccuracy, hzero]
  · next hne =>
    have hpos : (0 : ℚ) < (m % d : ℕ) := by exact_mod_cast Nat.pos_of_ne_zero hne
    rcases lt_trichotomy (2 * (m % d)) d with h | h | h
    · have hq : 2 * ((m % d : ℕ) : ℚ) < d := by exact_mod_cast h
      rw [Nat.compare_eq_lt.mpr h]
      simp only [Describes, ExtendedMantissa.ofMantissaAndAccuracy]
      refine ⟨lt_add_of_pos_right _ (by positivity), add_lt_add_right ?_ _⟩
      rw [div_lt_iff₀ hdq]
      linarith
    · have hq : 2 * ((m % d : ℕ) : ℚ) = d := by exact_mod_cast h
      rw [Nat.compare_eq_eq.mpr h]
      simp only [Describes, ExtendedMantissa.ofMantissaAndAccuracy]
      rw [← hq]
      field_simp
    · have hq : d < 2 * ((m % d : ℕ) : ℚ) := by exact_mod_cast h
      rw [Nat.compare_eq_gt.mpr h]
      simp only [Describes, ExtendedMantissa.ofMantissaAndAccuracy]
      refine ⟨add_lt_add_right ?_ _, add_lt_add_right ?_ _⟩
      · rw [lt_div_iff₀ hdq]
        linarith
      · rwa [div_lt_one hdq]

/-! ## Rounded numbers -/

/-- A number with at most 53 significant bits, none of them below the least
that a double can have.  Those below `2^1024` are the doubles. -/
def IsDouble (s : ℚ) : Prop :=
  ∃ (m : ℕ) (e : ℤ), m < 2 ^ 53 ∧ -1074 ≤ e ∧ s = m * 2 ^ e

/-- The number `r` is a nearest multiple of the unit in the last place of
`q`, which is at least `2^(-1074)`. -/
def Rounds (q r : ℚ) : Prop :=
  ∃ t : ℤ, -1074 ≤ t ∧ (2 ^ (t + 52) ≤ q ∨ t = -1074) ∧ q < 2 ^ (t + 53) ∧
    (∃ k : ℕ, r = k * 2 ^ t) ∧ |r - q| ≤ 2 ^ t / 2

variable {q r s : ℚ}

theorem two_zpow_pos (t : ℤ) : (0 : ℚ) < 2 ^ t := by positivity

theorem two_zpow_le {t u : ℤ} (h : t ≤ u) : (2 : ℚ) ^ t ≤ 2 ^ u :=
  zpow_le_zpow_right₀ one_le_two h

theorem two_zpow_lt {t u : ℤ} (h : t < u) : (2 : ℚ) ^ t < 2 ^ u :=
  zpow_lt_zpow_right₀ one_lt_two h

theorem two_zpow_add_nat (t : ℤ) (n : ℕ) : (2 : ℚ) ^ (t + n) = 2 ^ n * 2 ^ t := by
  rw [zpow_add₀ two_ne_zero, zpow_natCast, mul_comm]

theorem two_zpow_add_ofNat (t : ℤ) (n : ℕ) [n.AtLeastTwo] :
    (2 : ℚ) ^ (t + (OfNat.ofNat n : ℤ)) = 2 ^ (OfNat.ofNat n : ℕ) * 2 ^ t :=
  two_zpow_add_nat t n

/-- A power of two with any exponent as a quotient of integers. -/
theorem two_zpow_eq_div (t : ℤ) : (2 : ℚ) ^ t = 2 ^ t.toNat / 2 ^ (-t).toNat := by
  nth_rewrite 1 [show t = t.toNat - (-t).toNat by omega]
  rw [zpow_sub₀ two_ne_zero, zpow_natCast, zpow_natCast]

/-- Every multiple of `2^e` is one of `2^t`, for `t ≤ e`. -/
theorem multiple_two_zpow (m : ℕ) {t e : ℤ} (h : t ≤ e) :
    ∃ k : ℕ, (m : ℚ) * 2 ^ e = k * 2 ^ t := by
  obtain ⟨n, rfl⟩ := Int.le.dest h
  exact ⟨m * 2 ^ n, by rw [two_zpow_add_nat]; push_cast; ring⟩

/-- Multiples of `2^t` that are less than `2^t` apart are equal. -/
theorem eq_of_multiples {t : ℤ} {a b : ℕ} (h : |(a : ℚ) * 2 ^ t - b * 2 ^ t| < 2 ^ t) : a = b := by
  have hpos := two_zpow_pos t
  rw [← sub_mul, abs_mul, abs_of_pos hpos, mul_lt_iff_lt_one_left hpos] at h
  have hint : |(a : ℤ) - b| < 1 := by exact_mod_cast h
  have hzero := Int.abs_lt_one_iff.mp hint
  omega

/-- A number below `2^(e+53)` on the grid of `2^e` has no bits below those
that are kept when a larger number is rounded at the unit `2^t > 2^e`. -/
theorem lt_of_lt_unit {m : ℕ} (hm : m < 2 ^ 53) {e t : ℤ} (h : e < t) :
    (m : ℚ) * 2 ^ e + 2 ^ e ≤ 2 ^ (t + 52) := by
  have hle : (m : ℚ) + 1 ≤ 2 ^ 53 := by exact_mod_cast hm
  calc (m : ℚ) * 2 ^ e + 2 ^ e = (m + 1) * 2 ^ e := by ring
    _ ≤ 2 ^ 53 * 2 ^ e := mul_le_mul_of_nonneg_right hle (two_zpow_pos e).le
    _ = 2 ^ (e + (53 : ℕ)) := (two_zpow_add_nat e 53).symm
    _ ≤ 2 ^ (t + 52) := two_zpow_le (by push_cast; omega)

/-- Rounding leaves a double as it is. -/
theorem Rounds.eq_of_isDouble (h : Rounds q r) (hq : IsDouble q) : r = q := by
  obtain ⟨t, -, hlow, -, ⟨k, rfl⟩, hnear⟩ := h
  obtain ⟨m, e, hm, he, rfl⟩ := hq
  have hpos := two_zpow_pos t
  have hte : t ≤ e := by
    by_contra! hlt
    have hgap := lt_of_lt_unit hm hlt
    have hpos := two_zpow_pos e
    cases hlow with
    | inl hlow => linarith
    | inr ht => omega
  obtain ⟨n, hn⟩ := multiple_two_zpow m hte
  rw [hn] at hnear ⊢
  rw [eq_of_multiples (hnear.trans_lt (by linarith))]

/-- Rounding does not take a number below a double. -/
theorem Rounds.ge_of_isDouble (h : Rounds q r) (hs : IsDouble s) (hle : s ≤ q) : s ≤ r := by
  obtain ⟨t, -, hlow, -, ⟨k, rfl⟩, hnear⟩ := h
  obtain ⟨m, e, hm, he, rfl⟩ := hs
  have hpos := two_zpow_pos t
  -- A multiple of the unit between the double and the number.
  obtain ⟨g, hsg, hgq⟩ : ∃ g : ℕ, (m : ℚ) * 2 ^ e ≤ g * 2 ^ t ∧ (g : ℚ) * 2 ^ t ≤ q := by
    by_cases hte : t ≤ e
    · obtain ⟨n, hn⟩ := multiple_two_zpow m hte
      exact ⟨n, hn.le, hn ▸ hle⟩
    · have hgap := lt_of_lt_unit hm (not_le.mp hte)
      have hunit : ((2 ^ 52 : ℕ) : ℚ) * 2 ^ t = 2 ^ (t + 52) := by
        rw [two_zpow_add_ofNat]
        norm_num
      have hepos := two_zpow_pos e
      refine ⟨2 ^ 52, ?_, ?_⟩ <;> rw [hunit]
      · linarith
      · cases hlow with
        | inl hlow => exact hlow
        | inr ht => omega
  refine hsg.trans ?_
  have hgk : g < k + 1 := by
    have hlt : (g : ℚ) * 2 ^ t < (k + 1 : ℕ) * 2 ^ t := by
      push_cast
      linarith [(abs_le.mp hnear).1]
    exact_mod_cast lt_of_mul_lt_mul_right hlt hpos.le
  have hle : (g : ℚ) ≤ k := by exact_mod_cast Nat.lt_succ_iff.mp hgk
  exact mul_le_mul_of_nonneg_right hle hpos.le

/-- A number that is close enough above a double is rounded to it. -/
theorem Rounds.eq_of_close (h : Rounds q r) (hs : IsDouble s) (hle : s ≤ q)
    (hclose : q - s ≤ s / 2 ^ 54) : r = s := by
  obtain ⟨t, -, hlow, hhigh, ⟨k, rfl⟩, hnear⟩ := h
  obtain ⟨m, e, hm, he, rfl⟩ := hs
  have hpos := two_zpow_pos t
  by_cases hte : t ≤ e
  · obtain ⟨n, hn⟩ := multiple_two_zpow m hte
    rw [hn] at hle hclose ⊢
    have hsmall : q - n * 2 ^ t < 2 ^ t / 2 := by
      rw [two_zpow_add_ofNat] at hhigh
      linarith
    have hdist : |(k : ℚ) * 2 ^ t - n * 2 ^ t| < 2 ^ t := by
      rw [abs_le] at hnear
      rw [abs_lt]
      constructor <;> linarith [hnear.1, hnear.2]
    rw [eq_of_multiples hdist]
  · have hgap := lt_of_lt_unit hm (not_le.mp hte)
    have hepos := two_zpow_pos e
    have hsmall : (m : ℚ) * 2 ^ e / 2 ^ 54 ≤ 2 ^ e / 2 := by
      have hle : (m : ℚ) ≤ 2 ^ 53 := by exact_mod_cast hm.le
      have hmul := mul_le_mul_of_nonneg_right hle hepos.le
      linarith
    cases hlow with
    | inl hlow => linarith
    | inr ht => omega

/-- How far rounding takes a number. -/
theorem Rounds.abs_sub_le (h : Rounds q r) (hq : 0 ≤ q) :
    |r - q| ≤ q / 2 ^ 53 + 2 ^ (-1075 : ℤ) := by
  obtain ⟨t, -, hlow, -, -, hnear⟩ := h
  have hleast := two_zpow_pos (-1075)
  refine hnear.trans ?_
  cases hlow with
  | inl hlow =>
    rw [two_zpow_add_ofNat] at hlow
    linarith
  | inr ht =>
    have hhalf : (2 : ℚ) ^ (-1074 : ℤ) / 2 = 2 ^ (-1075 : ℤ) := by
      rw [show (-1074 : ℤ) = -1075 + 1 from rfl, zpow_add_one₀ two_ne_zero]
      exact mul_div_cancel_right₀ _ two_ne_zero
    rw [ht, hhalf]
    linarith [div_nonneg hq (by norm_num : (0 : ℚ) ≤ 2 ^ 53)]

/-! ## Unpacked doubles -/

/-- The format's exponents for a double that is not zero: it has 53
significant bits, or the least exponent. -/
structure Shape (m : ℕ) (e : ℤ) : Prop where
  least : -1074 ≤ e
  most : e ≤ 971
  bits : m < 2 ^ 53
  full : 2 ^ 52 ≤ m ∨ e = -1074

/-- An unpacked double in the format's form, and the number that it stands
for. -/
inductive Stands : UnpackedFloat → ℚ → Prop
  | zero : Stands (.zero .positive) 0
  | finite {m : ℕ} {e : ℤ} (hm : 0 < m) (h : Shape m e) :
      Stands (.finite .positive m e hm) (m * 2 ^ e)

variable {u v : UnpackedFloat}

/-- What an unpacked double stands for has no more than 53 significant bits. -/
theorem Stands.isDouble (h : Stands u s) : IsDouble s := by
  cases h with
  | zero => exact ⟨0, 0, by norm_num, by norm_num, by simp⟩
  | finite _ h => exact ⟨_, _, h.bits, h.least, rfl⟩

/-- The doubles considered here are not negative. -/
theorem Stands.nonneg (h : Stands u s) : 0 ≤ s := by
  cases h with
  | zero => exact le_rfl
  | finite => positivity

/-- The exponent that a double near `m·2^e` takes. -/
def target (m : ℕ) (e : ℤ) : ℤ := max (m.log2 + 1 + e - 53) (-1074)

/-- A shift to the target exponent cuts off as many bits as the exponent rises. -/
theorem shiftToTargetExponent_eq (m : ℕ) (e : ℤ) (accuracy : Accuracy) :
    shiftToTargetExponent .binary64 m e accuracy =
      (ExtendedMantissa.ofMantissaAndAccuracy m accuracy >>> (target m e - e).toNat,
        e + (target m e - e).toNat) := rfl

/-- The second shift of a rounding, which keeps the value: the mantissa has
the right number of bits, or is the power of two above. -/
theorem shiftToTargetExponent_rounded {m : ℕ} {t : ℤ} (ht : -1074 ≤ t) (hm : m ≤ 2 ^ 53)
    (hfull : 2 ^ 52 ≤ m ∨ t = -1074) :
    ∃ (m' : ℕ) (t' : ℤ), (shiftToTargetExponent .binary64 m t .exact).1.mantissa = m' ∧
      (shiftToTargetExponent .binary64 m t .exact).2 = t' ∧
      (m' : ℚ) * 2 ^ t' = m * 2 ^ t ∧ m' < 2 ^ 53 ∧ (2 ^ 52 ≤ m' ∨ t' = -1074) ∧ t ≤ t' ∧
      t' ≤ t + 1 := by
  rw [shiftToTargetExponent_eq]
  cases hm.lt_or_eq with
  | inl hlt =>
    have htarget : target m t ≤ t := by
      rw [target]
      have hlog : m.log2 ≤ 52 := by
        by_cases hzero : m = 0
        · simp [hzero]
        · exact Nat.lt_succ_iff.mp ((Nat.log2_lt hzero).mpr hlt)
      cases hfull with
      | inl hfull => omega
      | inr hfull => omega
    have hshift : (target m t - t).toNat = 0 := Int.toNat_of_nonpos (by omega)
    rw [hshift]
    exact ⟨m, t, rfl, by simp, rfl, hlt, hfull, le_rfl, by omega⟩
  | inr heq =>
    have htarget : target m t = t + 1 := by
      rw [target, heq, Nat.log2_two_pow]
      omega
    have hshift : (target m t - t).toNat = 1 := by rw [htarget]; omega
    rw [hshift, heq]
    refine ⟨2 ^ 52, t + 1, rfl, by simp, ?_, by norm_num, Or.inl le_rfl, by omega, le_rfl⟩
    rw [zpow_add_one₀ two_ne_zero]
    norm_num
    ring

@[simp] theorem mantissa_ofMantissaAndAccuracy (m : ℕ) (accuracy : Accuracy) :
    (ExtendedMantissa.ofMantissaAndAccuracy m accuracy).mantissa = m := by
  cases accuracy with
  | exact => rfl
  | inexact o => cases o <;> rfl

/-- Rounding what a mantissa describes gives the double nearest to it, if
the mantissa does not have to be extended first. -/
theorem roundWithAccuracy_stands {m : ℕ} {e : ℤ} {accuracy : Accuracy} {y : ℚ}
    (hy : Describes (.ofMantissaAndAccuracy m accuracy) y) (he : e ≤ target m e)
    (hbound : y * 2 ^ e < 2 ^ (1023 : ℤ)) :
    ∃ r, Rounds (y * 2 ^ e) r ∧
      Stands (roundWithAccuracy .binary64 .positive m e accuracy) r := by
  obtain ⟨n, hn⟩ := Int.le.dest he
  set t := target m e with ht
  have hleast : -1074 ≤ t := le_max_right _ _
  have hfloor := hy.floor
  rw [mantissa_ofMantissaAndAccuracy] at hfloor
  have hshift := hy.shiftRight n
  set em := ExtendedMantissa.ofMantissaAndAccuracy m accuracy >>> n with hem
  have hunit : y * 2 ^ e = y / 2 ^ n * 2 ^ t := by
    rw [← hn, two_zpow_add_nat]
    field_simp
  have hhigh : y / 2 ^ n < 2 ^ 53 := by
    have hlog : m.log2 + 1 ≤ 53 + n := by
      have hle : (m.log2 + 1 + e - 53 : ℤ) ≤ t := le_max_left _ _
      omega
    have hm : ((m + 1 : ℕ) : ℚ) ≤ (2 ^ (53 + n) : ℕ) := by
      exact_mod_cast Nat.lt_log2_self.trans_le (Nat.pow_le_pow_right two_pos hlog)
    rw [div_lt_iff₀ (by positivity), ← pow_add]
    push_cast at hm
    exact hfloor.2.trans_le hm
  have hlow : 2 ^ 52 ≤ y / 2 ^ n ∨ t = -1074 := by
    by_cases hcap : t = -1074
    · exact Or.inr hcap
    · have hlog : m.log2 = 52 + n := by
        rw [ht, target] at hn hcap
        omega
      have hm : ((2 ^ (52 + n) : ℕ) : ℚ) ≤ m := by
        have hne : m ≠ 0 := fun h => by rw [h, Nat.log2_zero] at hlog; omega
        exact_mod_cast hlog ▸ Nat.log2_self_le hne
      rw [le_div_iff₀ (by positivity), ← pow_add]
      push_cast at hm
      exact Or.inl (hm.trans hfloor.1)
  have hnear := hshift.nearest
  have hpos := two_zpow_pos t
  have hrounds : Rounds (y * 2 ^ e) (em.roundedMantissa * 2 ^ t) := by
    refine ⟨t, hleast, ?_, ?_, ⟨_, rfl⟩, ?_⟩
    · refine hlow.imp_left fun h => ?_
      rw [hunit, two_zpow_add_ofNat]
      exact mul_le_mul_of_nonneg_right h hpos.le
    · rw [hunit, two_zpow_add_ofNat]
      exact mul_lt_mul_of_pos_right hhigh hpos
    · rw [hunit, ← sub_mul, abs_mul, abs_of_pos hpos]
      linarith [mul_le_mul_of_nonneg_right hnear hpos.le]
  refine ⟨_, hrounds, ?_⟩
  rw [abs_le] at hnear
  have hmost : em.roundedMantissa ≤ 2 ^ 53 := by
    have hlt : (em.roundedMantissa : ℚ) < (2 ^ 53 + 1 : ℕ) := by push_cast; linarith [hnear.2]
    exact Nat.lt_succ_iff.mp (by exact_mod_cast hlt)
  have hfull : 2 ^ 52 ≤ em.roundedMantissa ∨ t = -1074 := by
    refine hlow.imp_left fun h => ?_
    have hlt : ((2 ^ 52 : ℕ) : ℚ) < (em.roundedMantissa + 1 : ℕ) := by
      push_cast; linarith [hnear.1]
    exact Nat.lt_succ_iff.mp (by exact_mod_cast hlt)
  have hexponent : t ≤ 970 := by
    cases hlow with
    | inl hlow =>
      by_contra! hlt
      have hle : (2 : ℚ) ^ (1023 : ℤ) ≤ y * 2 ^ e := by
        rw [hunit]
        calc (2 : ℚ) ^ (1023 : ℤ) ≤ 2 ^ (t + (52 : ℕ)) := two_zpow_le (by push_cast; omega)
          _ = 2 ^ 52 * 2 ^ t := two_zpow_add_nat t 52
          _ ≤ y / 2 ^ n * 2 ^ t := mul_le_mul_of_nonneg_right hlow hpos.le
      exact absurd hbound (not_lt.mpr hle)
    | inr heq => omega
  obtain ⟨m', t', hm', ht', hvalue, hbits, hfull', hle, hle'⟩ :=
    shiftToTargetExponent_rounded hleast hmost hfull
  have hfirst : shiftToTargetExponent .binary64 m e accuracy = (em, t) := by
    rw [shiftToTargetExponent_eq, ← ht, ← hn, add_sub_cancel_left, Int.toNat_natCast]
  rw [roundWithAccuracy, hfirst]
  dsimp only
  rw [← hvalue]
  split
  · next hzero =>
    rw [hm'] at hzero
    rw [hzero, Nat.cast_zero, zero_mul]
    exact .zero
  · next hne =>
    subst hm' ht'
    exact .finite (Nat.pos_of_ne_zero hne) ⟨hleast.trans hle, by omega, hbits, hfull'⟩

end Multiprecision.Double
