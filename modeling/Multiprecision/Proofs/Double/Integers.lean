import Mathlib
import Multiprecision.Binary
import Multiprecision.Proofs.Double.Arithmetic

/-!
# Multiprecision.Proofs.Double.Integers

The bits of a double, and the integer nearest to it:

* `unpack_of_isFinite` — a finite double is what its bits say that it is;
* `IsNumber` — a double that is not negative, where a zero may have either sign;
* `IsNumber.round` — the nearest integer, halves rounded up;
* `IsNumber.toNat` — the integer part.
-/

namespace Multiprecision.Double

open Float.Model Float.Model.UnpackedFloat

variable {x y : Float} {q r : ℚ}

/-! ## Bits -/

/-- The bits of the exponent. -/
def exponentBits (x : Float) : BitVec 11 := @unpackExponent .binary64 x.toBits.toBitVec

/-- The bits of the fraction. -/
def fractionBits (x : Float) : BitVec 52 := @unpackMantissa .binary64 x.toBits.toBitVec

/-- The sign that the sign bit stands for. -/
def signOf (x : Float) : Sign := if Binary.signBit x then .negative else .positive

/-- The exponent stands above the 52 bits of the fraction. -/
theorem toNat_exponentBits (x : Float) :
    (exponentBits x).toNat = x.toBits.toNat / 2 ^ 52 % 2 ^ 11 := by
  change (BitVec.extractLsb 62 52 x.toBits.toBitVec).toNat = _
  rw [BitVec.extractLsb_toNat, Nat.shiftRight_eq_div_pow]
  rfl

/-- The fraction is the lowest 52 bits. -/
theorem toNat_fractionBits (x : Float) : (fractionBits x).toNat = x.toBits.toNat % 2 ^ 52 := by
  change (BitVec.extractLsb 51 0 x.toBits.toBitVec).toNat = _
  rw [BitVec.extractLsb_toNat, Nat.shiftRight_zero]
  rfl

/-- The sign that unpacking finds is that of the sign bit. -/
theorem ofBitVec_unpackSign (x : Float) :
    Sign.ofBitVec (@unpackSign .binary64 x.toBits.toBitVec) = signOf x := by
  have hbit : (@unpackSign .binary64 x.toBits.toBitVec).toNat = x.toBits.toNat / 2 ^ 63 := by
    change (BitVec.extractLsb 63 63 x.toBits.toBitVec).toNat = _
    rw [BitVec.extractLsb_toNat, Nat.shiftRight_eq_div_pow]
    change x.toBits.toNat / 2 ^ 63 % 2 = _
    have hlt := x.toBits.toNat_lt
    omega
  have hsign : Binary.signBit x = true ↔ 2 ^ 63 ≤ x.toBits.toNat := decide_eq_true_iff
  unfold Sign.ofBitVec signOf
  by_cases hset : 2 ^ 63 ≤ x.toBits.toNat
  · have hne : @unpackSign .binary64 x.toBits.toBitVec ≠ 0#1 := by
      intro hzero
      rw [hzero] at hbit
      change 0 = _ at hbit
      omega
    rw [if_neg hne, if_pos (hsign.mpr hset)]
  · have hzero : @unpackSign .binary64 x.toBits.toBitVec = 0#1 := by
      refine BitVec.eq_of_toNat_eq ?_
      rw [hbit]
      exact Nat.div_eq_of_lt (not_le.mp hset)
    rw [if_pos hzero, if_neg (hsign.not.mpr hset)]

/-- With all bits of the exponent set there is no number. -/
theorem unpack_special (h : exponentBits x = -1#11) :
    x.toModel.unpack =
      if fractionBits x = 0#52 then .infinity (signOf x) else .notANumber := by
  change UnpackedFloat.unpack .binary64 x.toBits.toBitVec = _
  rw [← ofBitVec_unpackSign, UnpackedFloat.unpack]
  exact if_pos h

/-- Without any bit set, but for the sign, it is a zero. -/
theorem unpack_zero (h : exponentBits x = 0#11) (hfraction : fractionBits x = 0#52) :
    x.toModel.unpack = .zero (signOf x) := by
  have hne : exponentBits x ≠ -1#11 := by
    rw [h]
    decide
  change UnpackedFloat.unpack .binary64 x.toBits.toBitVec = _
  rw [← ofBitVec_unpackSign, UnpackedFloat.unpack]
  exact (if_neg hne).trans ((if_pos h).trans (dif_pos hfraction))

/-- With no bit of the exponent set, the fraction counts multiples of the least
double. -/
theorem unpack_subnormal (h : exponentBits x = 0#11) (hpos : 0 < (fractionBits x).toNat) :
    x.toModel.unpack = .finite (signOf x) (fractionBits x).toNat (-1074) hpos := by
  have hne : exponentBits x ≠ -1#11 := by
    rw [h]
    decide
  have hfraction : fractionBits x ≠ 0#52 := by
    intro hzero
    rw [hzero] at hpos
    exact absurd hpos (by decide)
  have hexponent : ((exponentBits x).toNat : ℤ) - (1023 + 52) + 1 = -1074 := by
    rw [h]
    rfl
  change UnpackedFloat.unpack .binary64 x.toBits.toBitVec = _
  rw [← ofBitVec_unpackSign, UnpackedFloat.unpack]
  refine (if_neg hne).trans ((if_pos h).trans ((dif_neg hfraction).trans ?_))
  congr 1

/-- Any other exponent puts a one before the fraction. -/
theorem unpack_normal (hone : exponentBits x ≠ -1#11) (hzero : exponentBits x ≠ 0#11)
    (hpos : 0 < (1#1 ++ fractionBits x).toNat) :
    x.toModel.unpack =
      .finite (signOf x) (1#1 ++ fractionBits x).toNat ((exponentBits x).toNat - 1075) hpos := by
  change UnpackedFloat.unpack .binary64 x.toBits.toBitVec = _
  rw [← ofBitVec_unpackSign, UnpackedFloat.unpack]
  exact (if_neg hone).trans (if_neg hzero)

/-- A finite double is a zero, or its significand and exponent are those that
its bits stand for. -/
theorem unpack_of_isFinite (h : x.isFinite = true) :
    (Binary.ofFloat x = ⟨0, -1074⟩ ∧ x.toModel.unpack = .zero (signOf x)) ∨
      ∃ (m : ℕ) (e : ℤ) (hm : 0 < m), Binary.ofFloat x = ⟨m, e⟩ ∧ Shape m e ∧
        x.toModel.unpack = .finite (signOf x) m e hm := by
  have hexponent := toNat_exponentBits x
  have hfraction := toNat_fractionBits x
  have hlow := (fractionBits x).isLt
  have hone : exponentBits x ≠ -1#11 := by
    intro hone
    change x.toModel.unpack.isFinite = true at h
    rw [unpack_special hone] at h
    split at h <;> simp [UnpackedFloat.isFinite] at h
  by_cases hzero : exponentBits x = 0#11
  · have hfield : x.toBits.toNat / 2 ^ 52 % 2 ^ 11 = 0 := by
      rw [← hexponent, hzero]
      rfl
    have hvalue : Binary.ofFloat x = ⟨(fractionBits x).toNat, -1074⟩ := by
      rw [hfraction]
      exact if_pos hfield
    by_cases hempty : fractionBits x = 0#52
    · rw [hempty] at hvalue
      exact .inl ⟨hvalue, unpack_zero hzero hempty⟩
    · have hpos : 0 < (fractionBits x).toNat := by
        refine Nat.pos_of_ne_zero fun hnone => hempty (BitVec.eq_of_toNat_eq hnone)
      exact .inr ⟨_, _, hpos, hvalue, ⟨by decide, by decide, by omega, .inr rfl⟩,
        unpack_subnormal hzero hpos⟩
  · have hfield : x.toBits.toNat / 2 ^ 52 % 2 ^ 11 ≠ 0 := by
      intro hfield
      exact hzero (BitVec.eq_of_toNat_eq (hexponent.trans hfield))
    have hfinite : (exponentBits x).toNat ≠ 2047 := by
      intro hones
      exact hone (BitVec.eq_of_toNat_eq hones)
    have hmost := (exponentBits x).isLt
    have hmantissa := toNat_implicit_append (fractionBits x)
    have hvalue : Binary.ofFloat x =
        ⟨(1#1 ++ fractionBits x).toNat, (exponentBits x).toNat - 1075⟩ := by
      rw [hmantissa, hfraction, hexponent, Nat.add_comm]
      exact if_neg hfield
    have hpos : 0 < (1#1 ++ fractionBits x).toNat := by omega
    exact .inr ⟨_, _, hpos, hvalue, ⟨by omega, by omega, by omega, .inl (by omega)⟩,
      unpack_normal hone hzero hpos⟩

/-! ## Numbers -/

theorem Stands.isFinite {u : UnpackedFloat} (h : Stands u q) : u.isFinite = true := by
  cases h <;> rfl

theorem Stands.eq_zero {sign : Sign} (h : Stands (.zero sign) q) : q = 0 := by
  cases h
  rfl

/-- What stands for a number above zero is positive, and the number is its
mantissa times the power of two. -/
theorem Stands.eq_finite {sign : Sign} {m : ℕ} {e : ℤ} {hm : 0 < m}
    (h : Stands (.finite sign m e hm) q) : sign = .positive ∧ q = m * 2 ^ e := by
  cases h
  exact ⟨rfl, rfl⟩

/-- Either zero is below the numbers that are above zero. -/
theorem Stands.zero_compare {u : UnpackedFloat} (h : Stands u q) (hpos : 0 < q) (sign : Sign) :
    UnpackedFloat.compare (.zero sign) u = some .lt := by
  cases h with
  | zero => exact absurd hpos (lt_irrefl 0)
  | finite => rfl

/-- The double `x` is the number `q`; a zero may have either sign. -/
def IsNumber (x : Float) (q : ℚ) : Prop :=
  Holds x q ∨ q = 0 ∧ x.toModel.unpack = .zero .negative

theorem IsNumber.nonneg (h : IsNumber x q) : 0 ≤ q := by
  cases h with
  | inl h => exact h.nonneg
  | inr h => exact h.1.ge

theorem IsNumber.isFinite (h : IsNumber x q) : x.isFinite = true := by
  change x.toModel.unpack.isFinite = true
  cases h with
  | inl h => exact Stands.isFinite h
  | inr h =>
    rw [h.2]
    rfl

/-- A finite double that is not below zero is a number. -/
theorem exists_isNumber (hfinite : x.isFinite = true) (h : 0 ≤ x) : ∃ q, IsNumber x q := by
  have hle : (UnpackedFloat.compare (.zero .positive) x.toModel.unpack).any (·.isLE) = true :=
    of_decide_eq_true h
  obtain ⟨-, hunpack⟩ | ⟨m, e, hm, -, hshape, hunpack⟩ := unpack_of_isFinite hfinite
  · cases hsign : signOf x with
    | positive =>
      refine ⟨0, .inl ?_⟩
      rw [Holds, hunpack, hsign]
      exact .zero
    | negative => exact ⟨0, .inr ⟨rfl, hsign ▸ hunpack⟩⟩
  · cases hsign : signOf x with
    | positive =>
      refine ⟨m * 2 ^ e, .inl ?_⟩
      rw [Holds, hunpack, hsign]
      exact .finite hm hshape
    | negative =>
      rw [hunpack, hsign] at hle
      exact absurd hle Bool.false_ne_true

/-- A double that is a number is not below zero, also if it is the negative one. -/
theorem IsNumber.zero_le (h : IsNumber x q) : (0 : Float) ≤ x := by
  cases h with
  | inl h => exact (holds_zero.le_iff h).mpr h.nonneg
  | inr h =>
    change decide _ = true
    rw [decide_eq_true_iff]
    change (UnpackedFloat.compare _ x.toModel.unpack).any (·.isLE) = true
    rw [h.2]
    rfl

/-- A double that is a number is below a positive one exactly if the numbers are. -/
theorem IsNumber.lt_iff (hx : IsNumber x q) (hy : Holds y r) (hpos : 0 < r) :
    x < y ↔ q < r := by
  cases hx with
  | inl hx => exact hx.lt_iff hy
  | inr hx =>
    rw [hx.1, iff_true_right hpos]
    change decide _ = true
    rw [decide_eq_true_iff]
    change (UnpackedFloat.compare x.toModel.unpack y.toModel.unpack == some .lt) = true
    rw [hx.2, Stands.zero_compare hy hpos]
    rfl

/-- The bits of a number give its value, and a sign only to zero. -/
theorem IsNumber.value (h : IsNumber x q) :
    ((Binary.ofFloat x).significand : ℚ) * 2 ^ (Binary.ofFloat x).exponent = q ∧
      (Binary.signBit x = true → q = 0) := by
  obtain ⟨hvalue, hunpack⟩ | ⟨m, e, hm, hvalue, -, hunpack⟩ := unpack_of_isFinite h.isFinite
  · have hzero : q = 0 := by
      cases h with
      | inl h => exact Stands.eq_zero (hunpack ▸ h : Stands (.zero (signOf x)) q)
      | inr h => exact h.1
    rw [hvalue, hzero]
    exact ⟨by simp, fun _ => rfl⟩
  · cases h with
    | inl h =>
      rw [Holds, hunpack] at h
      obtain ⟨hsign, hq⟩ := h.eq_finite
      rw [hvalue]
      refine ⟨hq.symm, fun hset => ?_⟩
      rw [signOf, if_pos hset] at hsign
      cases hsign
    | inr h =>
      rw [hunpack] at h
      cases h.2

/-- A significand has at most 53 bits. -/
theorem significand_lt (x : Float) : (Binary.ofFloat x).significand < 2 ^ 53 := by
  have hlow : x.toBits.toNat % 2 ^ 52 < 2 ^ 52 := Nat.mod_lt _ (by decide)
  unfold Binary.ofFloat
  change (if _ = 0 then Binary.mk (x.toBits.toNat % 2 ^ 52) _
    else Binary.mk (x.toBits.toNat % 2 ^ 52 + 2 ^ 52) _).significand < _
  split
  · exact hlow.trans (by decide)
  · change x.toBits.toNat % 2 ^ 52 + 2 ^ 52 < 2 ^ 53
    omega

/-! ## Integers -/

/-- The integer part read off the bits is that of the number. -/
theorem IsNumber.toNat (h : IsNumber x q) : (Binary.ofFloat x).toNat = ⌊q⌋₊ := by
  obtain ⟨hvalue, -⟩ := h.value
  rw [two_zpow_eq_div, ← mul_div_assoc] at hvalue
  rw [← hvalue]
  exact_mod_cast (Nat.floor_div_eq_div (K := ℚ) _ _).symm

/-- A half on top of an integer does not reach the next one. -/
theorem floor_natCast_add_half (n : ℕ) : ⌊(n : ℚ) + 1 / 2⌋₊ = n := by
  rw [Nat.floor_eq_iff (by positivity)]
  constructor <;> linarith

/-- A fraction over a power of two is rounded by adding half of the denominator. -/
theorem floor_fraction_add_half (m k : ℕ) :
    ⌊(m : ℚ) / 2 ^ (k + 1) + 1 / 2⌋₊ = (m + 2 ^ k) / (2 * 2 ^ k) := by
  have hfraction : (m : ℚ) / 2 ^ (k + 1) + 1 / 2 = (m + 2 ^ k : ℕ) / (2 * 2 ^ k : ℕ) := by
    rw [pow_succ]
    push_cast
    field_simp
  rw [hfraction, Nat.floor_div_eq_div]

/-- A significand does not grow when a part of it is rounded off. -/
theorem add_half_div_le (m k : ℕ) : (m + 2 ^ k) / (2 * 2 ^ k) ≤ m := by
  have hpos := Nat.two_pow_pos k
  rw [← Nat.lt_succ_iff, Nat.div_lt_iff_lt_mul (by positivity)]
  nlinarith

/-- A number is rounded to the nearest integer, halves up. -/
theorem IsNumber.round (h : IsNumber x q) : IsNumber (Binary.round x) ⌊q + 1 / 2⌋₊ := by
  obtain ⟨hvalue, hsign⟩ := h.value
  have hlt := significand_lt x
  unfold Binary.round
  set b := Binary.ofFloat x
  by_cases hint : 0 ≤ b.exponent
  · obtain ⟨n, hn⟩ := Int.eq_ofNat_of_zero_le hint
    have hnat : q = (b.significand * 2 ^ n : ℕ) := by
      rw [← hvalue, hn, zpow_natCast]
      push_cast
      rfl
    rw [if_pos hint]
    rwa [hnat, floor_natCast_add_half, ← hnat]
  · obtain ⟨k, hk⟩ : ∃ k : ℕ, b.exponent = -(k + 1 : ℕ) := ⟨(-b.exponent).toNat - 1, by omega⟩
    have hhalf : (-b.exponent).toNat - 1 = k := by omega
    have hfraction : q = b.significand / 2 ^ (k + 1) := by
      rw [← hvalue, hk, zpow_neg, zpow_natCast, div_eq_mul_inv]
    rw [if_neg hint, hhalf, hfraction, floor_fraction_add_half]
    have hle := add_half_div_le b.significand k
    by_cases hset : Binary.signBit x = true
    · -- A number with a sign is a zero.
      have hzero : b.significand = 0 := by
        rw [hsign hset, mul_eq_zero_iff_right (two_zpow_pos _).ne'] at hvalue
        exact_mod_cast hvalue
      rw [hzero, Nat.le_zero] at hle
      rw [if_pos hset, hzero]
      refine .inr ⟨by rw [hle, Nat.cast_zero], ?_⟩
      change (-(UInt64.ofNat ((0 + 2 ^ k) / (2 * 2 ^ k))).toFloat).toModel.unpack = _
      rw [hle]
      rfl
    · rw [if_neg hset]
      change IsNumber (UInt64.ofNat ((b.significand + 2 ^ k) / (2 * 2 ^ k))).toFloat _
      generalize (b.significand + 2 ^ k) / (2 * 2 ^ k) = n at hle ⊢
      have hword : (UInt64.ofNat n).toNat = n :=
        UInt64.toNat_ofNat_of_lt (hle.trans_lt (hlt.trans (by decide)))
      have hholds := holds_toFloat_wide (hword.trans_lt (hle.trans_lt hlt))
      rw [hword] at hholds
      exact .inl hholds

end Multiprecision.Double
