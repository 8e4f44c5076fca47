import Mathlib
import Multiprecision.Proofs.Double.Rounding

/-!
# Multiprecision.Proofs.Double.Arithmetic

Doubles by the numbers that they hold (`Holds`).  The operations on doubles
that are not negative and stay far below the largest double:

* sums, products and quotients are the exact ones, rounded (`Holds.add`,
  `Holds.mul`, `Holds.div`);
* comparisons are exact (`Holds.beq_iff`, `Holds.le_iff`), and so is the
  conversion from an integer of at most 53 bits;
* the conversion to an integer cuts the fraction off (`Holds.toUInt32`).
-/

namespace Multiprecision.Double

open Float.Model Float.Model.UnpackedFloat

/-! ## Packing -/

/-- Packing keeps the sign. -/
theorem unpackSign_packComponents {spec : Format} (sign : Sign) (exponent mantissa) :
    unpackSign (packComponents spec sign exponent mantissa) = sign.toBitVec := by
  ext i hi
  obtain rfl : i = 0 := by omega
  simp [unpackSign, packComponents, BitVec.getLsbD_append, BitVec.getElem_append]

/-- The mantissa of a normal number has one more bit than is stored. -/
theorem toNat_implicit_append {n : ℕ} (m : BitVec n) : (1#1 ++ m).toNat = 2 ^ n + m.toNat := by
  rw [BitVec.toNat_append, ← Nat.shiftLeft_add_eq_or_of_lt m.isLt]
  simp [Nat.shiftLeft_eq]

variable {u v : UnpackedFloat} {x y : Float} {q r s : ℚ}

/-- A mantissa of 53 bits is packed without its top bit, which unpacking puts
back. -/
theorem unpack_pack_normal {m : ℕ} {e : ℤ} (hm : 0 < m) (hleast : -1074 ≤ e) (hmost : e ≤ 971)
    (hfull : 2 ^ 52 ≤ m) (hbits : m < 2 ^ 53) :
    (Float.Model.pack (.finite .positive m e hm)).unpack = .finite .positive m e hm := by
  have hlog : m.log2 + 1 = 53 := by
    have hlow := (Nat.le_log2 hm.ne').mpr hfull
    have hhigh := (Nat.log2_lt hm.ne').mpr hbits
    omega
  have hstored : (BitVec.ofNat 11 (e + 1023 + 52).toNat).toNat = (e + 1075).toNat := by
    rw [BitVec.toNat_ofNat, Nat.mod_eq_of_lt (by omega)]
    omega
  have hpack : UnpackedFloat.pack .binary64 (.finite .positive m e hm) =
      packComponents .binary64 .positive (BitVec.ofNat 11 (e + 1023 + 52).toNat)
        (BitVec.ofNat 52 m) := by
    have hroom : ¬ 2 ^ 11 ≤ (e + 1023 + 52).toNat + 1 := by omega
    change (if 2 ^ 11 ≤ (e + 1023 + 52).toNat + 1 then _ else if m.log2 + 1 = 53 then _ else _) = _
    rw [if_neg hroom, if_pos hlog]
    rfl
  have hinfinite : BitVec.ofNat 11 (e + 1023 + 52).toNat ≠ -1#11 := fun h => by
    rw [h] at hstored
    change 2047 = _ at hstored
    omega
  have hzero : BitVec.ofNat 11 (e + 1023 + 52).toNat ≠ 0#11 := fun h => by
    rw [h] at hstored
    change 0 = _ at hstored
    omega
  have hmantissa : (1#1 ++ BitVec.ofNat 52 m).toNat = m := by
    rw [toNat_implicit_append, BitVec.toNat_ofNat]
    omega
  change UnpackedFloat.unpack .binary64 (UnpackedFloat.pack .binary64 _) = _
  rw [hpack, UnpackedFloat.unpack]
  simp only [unpackMantissa_packComponents, unpackExponent_packComponents,
    unpackSign_packComponents, if_neg hinfinite, if_neg hzero, hmantissa, hstored]
  congr 1
  change ((e + 1075).toNat : ℤ) - (1023 + 52) = e
  omega

/-- A mantissa of at most 52 bits is packed as it is, with the least exponent. -/
theorem unpack_pack_subnormal {m : ℕ} (hm : 0 < m) (hbits : m < 2 ^ 52) :
    (Float.Model.pack (.finite .positive m (-1074) hm)).unpack =
      .finite .positive m (-1074) hm := by
  have hlog : m.log2 + 1 ≠ 53 := by
    have hhigh := (Nat.log2_lt hm.ne').mpr hbits
    omega
  have hpack : UnpackedFloat.pack .binary64 (.finite .positive m (-1074) hm) =
      packComponents .binary64 .positive 0#11 (BitVec.ofNat 52 m) := by
    rw [UnpackedFloat.pack]
    exact if_neg hlog
  have hmantissa : (BitVec.ofNat 52 m).toNat = m := by
    rw [BitVec.toNat_ofNat, Nat.mod_eq_of_lt hbits]
  have hne : BitVec.ofNat 52 m ≠ 0#52 := fun h => by
    rw [h] at hmantissa
    exact hm.ne hmantissa
  change UnpackedFloat.unpack .binary64 (UnpackedFloat.pack .binary64 _) = _
  rw [hpack, UnpackedFloat.unpack]
  simp only [unpackMantissa_packComponents, unpackExponent_packComponents,
    unpackSign_packComponents, dif_neg hne, hmantissa]
  rfl

/-- A double in the format's form is packed without loss. -/
theorem Stands.unpack_pack (h : Stands u s) : (Float.Model.pack u).unpack = u := by
  cases h with
  | zero => rfl
  | @finite m e hm h =>
    by_cases hfull : 2 ^ 52 ≤ m
    · exact unpack_pack_normal hm h.least h.most hfull h.bits
    · obtain rfl := h.full.resolve_left hfull
      exact unpack_pack_subnormal hm (not_le.mp hfull)

/-! ## Numbers held -/

/-- The double `x` is the number `q`, and not a negative zero. -/
def Holds (x : Float) (q : ℚ) : Prop := Stands x.toModel.unpack q

theorem Holds.isDouble (h : Holds x q) : IsDouble q := Stands.isDouble h

theorem Holds.nonneg (h : Holds x q) : 0 ≤ q := Stands.nonneg h

/-- Packing what stands for a number makes a double that holds it. -/
theorem Stands.holds (h : Stands u s) : Holds (.ofModel (.pack u)) s := by
  rw [Holds, h.unpack_pack]
  exact h

theorem holds_zero : Holds 0 0 := Stands.zero

/-- A double is its own nearest double. -/
theorem Stands.rounds_self (h : Stands u s) : Rounds s s := by
  cases h with
  | zero =>
    refine ⟨-1074, le_rfl, Or.inr rfl, two_zpow_pos _, ⟨0, by simp⟩, ?_⟩
    rw [sub_zero, abs_zero]
    positivity
  | @finite m e hm h =>
    have hpos := two_zpow_pos e
    refine ⟨e, h.least, h.full.imp_left fun hfull => ?_, ?_, ⟨m, rfl⟩, ?_⟩
    · rw [two_zpow_add_ofNat]
      exact mul_le_mul_of_nonneg_right (by exact_mod_cast hfull) hpos.le
    · rw [two_zpow_add_ofNat]
      exact mul_lt_mul_of_pos_right (by exact_mod_cast h.bits) hpos
    · rw [sub_self, abs_zero]
      positivity

/-! ## Products, sums and conversions -/

/-- A mantissa of 53 bits or more need not be extended before it is rounded. -/
theorem le_target_of_full {m : ℕ} (hm : 2 ^ 52 ≤ m) (e : ℤ) : e ≤ target m e := by
  have hlog := (Nat.le_log2 (by omega : m ≠ 0)).mpr hm
  rw [target]
  omega

/-- A product of unpacked doubles stands for the exact product, rounded. -/
theorem Stands.mul (hu : Stands u q) (hv : Stands v r) (hbound : q * r < 2 ^ (1023 : ℤ)) :
    ∃ s, Rounds (q * r) s ∧ Stands (UnpackedFloat.mul .binary64 u v) s := by
  cases hu with
  | zero =>
    rw [zero_mul]
    refine ⟨0, Stands.zero.rounds_self, ?_⟩
    cases hv <;> exact .zero
  | @finite m e hm h =>
    cases hv with
    | zero =>
      rw [mul_zero]
      exact ⟨0, Stands.zero.rounds_self, .zero⟩
    | @finite m' e' hm' h' =>
      have hvalue : (m : ℚ) * 2 ^ e * (m' * 2 ^ e') = (m * m' : ℕ) * 2 ^ (e + e') := by
        rw [zpow_add₀ two_ne_zero]
        push_cast
        ring
      have htarget : e + e' ≤ target (m * m') (e + e') := by
        by_cases hfull : 2 ^ 52 ≤ m * m'
        · exact le_target_of_full hfull _
        · have hleft : m < 2 ^ 52 := by nlinarith
          have hright : m' < 2 ^ 52 := by nlinarith
          have hleast := h.full.resolve_left (not_le.mpr hleft)
          have hleast' := h'.full.resolve_left (not_le.mpr hright)
          rw [target]
          omega
      rw [hvalue] at hbound ⊢
      exact roundWithAccuracy_stands (describes_exact _) htarget hbound

/-- Rounding a positive number `m * 2^e` gives the double nearest to it: the
mantissa is extended first if it is short. -/
theorem Stands.round {m : ℕ} {e : ℤ} (hm : 0 < m) (hbound : (m : ℚ) * 2 ^ e < 2 ^ (1023 : ℤ)) :
    ∃ r, Rounds ((m : ℚ) * 2 ^ e) r ∧ Stands (UnpackedFloat.round .binary64 .positive m e) r := by
  set n := (e - target m e).toNat with hn
  have hvalue : (m : ℚ) * 2 ^ e = (m <<< n : ℕ) * 2 ^ (e - n) := by
    rw [Nat.shiftLeft_eq, zpow_sub₀ two_ne_zero, zpow_natCast]
    push_cast
    field_simp
  have htarget : e - n ≤ target (m <<< n) (e - n) := by
    have hlog : (m <<< n).log2 = m.log2 + n := by
      rw [Nat.shiftLeft_eq, Nat.log2_eq_iff (by positivity), add_right_comm, pow_add, pow_add]
      exact ⟨Nat.mul_le_mul_right _ (Nat.log2_self_le hm.ne'),
        Nat.mul_lt_mul_of_pos_right Nat.lt_log2_self (by positivity)⟩
    rw [target, hlog]
    rw [target] at hn
    push_cast
    omega
  rw [hvalue] at hbound ⊢
  exact roundWithAccuracy_stands (describes_exact _) htarget hbound

/-- Normalizing a positive mantissa rounds it, whatever sign a zero would get. -/
theorem normalize_natCast {m : ℕ} (hm : 0 < m) (e : ℤ) (sign : Sign) :
    UnpackedFloat.normalize .binary64 m e sign = UnpackedFloat.round .binary64 .positive m e := by
  have hpos : (0 : ℤ) < m := by exact_mod_cast hm
  rw [UnpackedFloat.normalize, compare_gt_iff_gt.mpr hpos]
  rfl

/-- A sum of unpacked doubles stands for the exact sum, rounded. -/
theorem Stands.add (hu : Stands u q) (hv : Stands v r) (hbound : q + r < 2 ^ (1023 : ℤ)) :
    ∃ s, Rounds (q + r) s ∧ Stands (UnpackedFloat.add .binary64 u v) s := by
  cases hu with
  | zero =>
    rw [zero_add]
    refine ⟨r, hv.rounds_self, ?_⟩
    cases hv with
    | zero => exact .zero
    | finite hm h => exact .finite hm h
  | @finite m e hm h =>
    cases hv with
    | zero =>
      rw [add_zero]
      exact ⟨_, (Stands.finite hm h).rounds_self, .finite hm h⟩
    | @finite m' e' hm' h' =>
      set least := min e e' with hleast
      obtain ⟨n, hn⟩ := Int.le.dest (min_le_left e e')
      obtain ⟨n', hn'⟩ := Int.le.dest (min_le_right e e')
      rw [← hleast] at hn hn'
      have hvalue : (m : ℚ) * 2 ^ e + m' * 2 ^ e' = (m <<< n + m' <<< n' : ℕ) * 2 ^ least := by
        rw [← hn, ← hn', two_zpow_add_nat, two_zpow_add_nat, Nat.shiftLeft_eq, Nat.shiftLeft_eq]
        push_cast
        ring
      have hpos : 0 < m <<< n + m' <<< n' := by
        rw [Nat.shiftLeft_eq]
        positivity
      have hsum : UnpackedFloat.add .binary64 (.finite .positive m e hm)
          (.finite .positive m' e' hm') =
          UnpackedFloat.round .binary64 .positive (m <<< n + m' <<< n') least := by
        rw [← normalize_natCast hpos _ .positive, UnpackedFloat.add, decreaseExponent,
          decreaseExponent, ← hleast]
        rw [show (e - least).toNat = n by omega, show (e' - least).toNat = n' by omega]
        rfl
      rw [hvalue] at hbound ⊢
      rw [hsum]
      exact Stands.round hpos hbound

/-- The product of two doubles holds the exact product, rounded. -/
theorem Holds.mul (hx : Holds x q) (hy : Holds y r) (hbound : q * r < 2 ^ (1023 : ℤ)) :
    ∃ s, Rounds (q * r) s ∧ Holds (x * y) s := by
  obtain ⟨s, hs, hstands⟩ := Stands.mul hx hy hbound
  exact ⟨s, hs, hstands.holds⟩

/-- A product that is a double is exact. -/
theorem Holds.mul_exact (hx : Holds x q) (hy : Holds y r) (hbound : q * r < 2 ^ (1023 : ℤ))
    (hdouble : IsDouble (q * r)) : Holds (x * y) (q * r) := by
  obtain ⟨s, hs, hstands⟩ := hx.mul hy hbound
  rwa [hs.eq_of_isDouble hdouble] at hstands

/-- The sum of two doubles holds the exact sum, rounded. -/
theorem Holds.add (hx : Holds x q) (hy : Holds y r) (hbound : q + r < 2 ^ (1023 : ℤ)) :
    ∃ s, Rounds (q + r) s ∧ Holds (x + y) s := by
  obtain ⟨s, hs, hstands⟩ := Stands.add hx hy hbound
  exact ⟨s, hs, hstands.holds⟩

/-- Integers of at most 53 bits are doubles. -/
theorem isDouble_natCast {n : ℕ} (hn : n < 2 ^ 53) : IsDouble n :=
  ⟨n, 0, hn, by norm_num, by simp⟩

/-- An integer of at most 53 bits is converted without loss. -/
theorem stands_ofNat {n : ℕ} (hn : n < 2 ^ 53) : Stands (UnpackedFloat.ofNat .binary64 n) n := by
  by_cases hzero : n = 0
  · subst hzero
    exact Stands.zero
  · have hpos := Nat.pos_of_ne_zero hzero
    have hbound : (n : ℚ) * 2 ^ (0 : ℤ) < 2 ^ (1023 : ℤ) := by
      rw [zpow_zero, mul_one]
      calc (n : ℚ) < (2 ^ 53 : ℕ) := by exact_mod_cast hn
        _ = 2 ^ (53 : ℤ) := by norm_num
        _ ≤ 2 ^ (1023 : ℤ) := two_zpow_le (by norm_num)
    obtain ⟨r, hr, hstands⟩ := Stands.round hpos hbound
    rw [zpow_zero, mul_one] at hr
    rw [hr.eq_of_isDouble (isDouble_natCast hn),
      ← normalize_natCast hpos 0 .positive] at hstands
    exact hstands

/-- A digit as a double holds the digit. -/
theorem holds_toFloat (d : UInt32) : Holds d.toFloat d.toNat :=
  (stands_ofNat (d.toNat_lt.trans (by decide))).holds

/-- A word as a double holds the word, if that has at most 53 bits. -/
theorem holds_toFloat_wide {n : UInt64} (hn : n.toNat < 2 ^ 53) : Holds n.toFloat n.toNat :=
  (stands_ofNat hn).holds

/-! ## Quotients -/

/-- A quotient of unpacked doubles stands for the exact quotient, rounded. -/
theorem Stands.div (hu : Stands u q) (hv : Stands v r) (hpos : 0 < r)
    (hbound : q / r < 2 ^ (1023 : ℤ)) :
    ∃ s, Rounds (q / r) s ∧ Stands (UnpackedFloat.div .binary64 u v) s := by
  cases hv with
  | zero => exact absurd hpos (lt_irrefl 0)
  | @finite m' e' hm' h' =>
    cases hu with
    | zero =>
      rw [zero_div]
      exact ⟨0, Stands.zero.rounds_self, .zero⟩
    | @finite m e hm h =>
      -- The exponent of the quotient before it is rounded.
      set t := min (e - e') (Format.binary64.targetExponent
        (totalExponent m e - totalExponent m' e')) with ht
      obtain ⟨n, hn⟩ := Int.le.dest (min_le_left (e - e') (Format.binary64.targetExponent
        (totalExponent m e - totalExponent m' e')))
      rw [← ht] at hn
      have hm'q : (m' : ℚ) ≠ 0 := by exact_mod_cast hm'.ne'
      have hvalue : (m : ℚ) * 2 ^ e / (m' * 2 ^ e') = ((m <<< n : ℕ) / m' : ℚ) * 2 ^ t := by
        have hsplit : (2 : ℚ) ^ e = 2 ^ n * 2 ^ t * 2 ^ e' := by
          rw [← two_zpow_add_nat, hn, ← zpow_add₀ two_ne_zero, sub_add_cancel]
        have hne := (two_zpow_pos e').ne'
        rw [hsplit, Nat.shiftLeft_eq]
        push_cast
        field_simp
      have htarget : t ≤ target (m <<< n / m') t := by
        by_cases hleast : t ≤ -1074
        · exact hleast.trans (le_max_right _ _)
        · refine le_target_of_full ?_ t
          have hle : t ≤ max (m.log2 + 1 + e - (m'.log2 + 1 + e') - 53) (-1074) := min_le_right _ _
          have hlog : m'.log2 + 1 + 52 ≤ m.log2 + n := by omega
          rw [Nat.le_div_iff_mul_le hm', Nat.shiftLeft_eq]
          calc 2 ^ 52 * m' ≤ 2 ^ 52 * 2 ^ (m'.log2 + 1) :=
                Nat.mul_le_mul_left _ Nat.lt_log2_self.le
            _ = 2 ^ (m'.log2 + 1 + 52) := by rw [← pow_add, Nat.add_comm]
            _ ≤ 2 ^ (m.log2 + n) := Nat.pow_le_pow_right two_pos hlog
            _ = 2 ^ m.log2 * 2 ^ n := pow_add _ _ _
            _ ≤ m * 2 ^ n := Nat.mul_le_mul_right _ (Nat.log2_self_le hm.ne')
      have hcore : UnpackedFloat.div .binary64 (.finite .positive m e hm)
          (.finite .positive m' e' hm') =
          roundWithAccuracy .binary64 .positive (m <<< n / m') t
            (accuracyOfFraction (m <<< n % m') m') := by
        have hshift : (e - e' - t).toNat = n := by omega
        rw [UnpackedFloat.div, divCore, ← ht, hshift]
        rfl
      rw [hvalue] at hbound ⊢
      rw [hcore]
      exact roundWithAccuracy_stands (describes_fraction _ hm') htarget hbound

/-- The quotient of two doubles holds the exact quotient, rounded. -/
theorem Holds.div (hx : Holds x q) (hy : Holds y r) (hpos : 0 < r)
    (hbound : q / r < 2 ^ (1023 : ℤ)) : ∃ s, Rounds (q / r) s ∧ Holds (x / y) s := by
  obtain ⟨s, hs, hstands⟩ := Stands.div hx hy hpos hbound
  exact ⟨s, hs, hstands.holds⟩

/-! ## Comparisons -/

/-- A number with a larger exponent is larger, since its mantissa has all 53
bits. -/
theorem lt_of_exponent_lt {m m' : ℕ} {e e' : ℤ} (h : Shape m e) (h' : Shape m' e') (hlt : e < e') :
    (m : ℚ) * 2 ^ e < m' * 2 ^ e' := by
  have hfull : (2 ^ 52 : ℕ) ≤ m' := by
    have hleast := h.least
    exact h'.full.resolve_right (by omega)
  have hunit : (2 : ℚ) ^ (e' + 52) ≤ m' * 2 ^ e' := by
    rw [two_zpow_add_ofNat]
    exact mul_le_mul_of_nonneg_right (by exact_mod_cast hfull) (two_zpow_pos e').le
  linarith [lt_of_lt_unit h.bits hlt, two_zpow_pos e]

/-- Comparing the exponents first and then the mantissas compares the numbers. -/
theorem finite_compare {m m' : ℕ} {e e' : ℤ} (h : Shape m e) (h' : Shape m' e') :
    (compare e e').then (compare m m') = compare ((m : ℚ) * 2 ^ e) (m' * 2 ^ e') := by
  rcases lt_trichotomy e e' with hlt | rfl | hlt
  · rw [compare_lt_iff_lt.mpr hlt, compare_lt_iff_lt.mpr (lt_of_exponent_lt h h' hlt)]
    rfl
  · have hpos := two_zpow_pos e
    rw [compare_eq_iff_eq.mpr rfl, Ordering.eq_then]
    rcases lt_trichotomy m m' with hm | rfl | hm
    · rw [compare_lt_iff_lt.mpr hm, compare_lt_iff_lt.mpr
        (mul_lt_mul_of_pos_right (by exact_mod_cast hm) hpos)]
    · rw [compare_eq_iff_eq.mpr rfl, compare_eq_iff_eq.mpr rfl]
    · rw [compare_gt_iff_gt.mpr hm, compare_gt_iff_gt.mpr
        (mul_lt_mul_of_pos_right (by exact_mod_cast hm) hpos)]
  · rw [compare_gt_iff_gt.mpr hlt, compare_gt_iff_gt.mpr (lt_of_exponent_lt h' h hlt)]
    rfl

/-- Unpacked doubles compare as the numbers that they stand for. -/
theorem Stands.compare (hu : Stands u q) (hv : Stands v r) :
    UnpackedFloat.compare u v = some (Ord.compare q r) := by
  cases hu with
  | zero =>
    cases hv with
    | zero => rw [compare_eq_iff_eq.mpr rfl]; rfl
    | finite hm => rw [compare_lt_iff_lt.mpr (by positivity)]; rfl
  | finite hm h =>
    cases hv with
    | zero => rw [compare_gt_iff_gt.mpr (by positivity)]; rfl
    | finite hm' h' => rw [← finite_compare h h']; rfl

/-- Doubles are equal exactly if they hold the same number. -/
theorem Holds.beq_iff (hx : Holds x q) (hy : Holds y r) : (x == y) = true ↔ q = r := by
  change (UnpackedFloat.compare _ _ == some .eq) = true ↔ _
  rw [Stands.compare hx hy, ← compare_eq_iff_eq (a := q)]
  simp

/-- Doubles are in order exactly if the numbers are. -/
theorem Holds.lt_iff (hx : Holds x q) (hy : Holds y r) : x < y ↔ q < r := by
  change decide (x.toModel < y.toModel) = true ↔ _
  rw [decide_eq_true_iff]
  change (UnpackedFloat.compare _ _ == some .lt) = true ↔ _
  rw [Stands.compare hx hy, ← compare_lt_iff_lt (a := q)]
  simp

/-- One double is at most another exactly if the numbers are in that order. -/
theorem Holds.le_iff (hx : Holds x q) (hy : Holds y r) : x ≤ y ↔ q ≤ r := by
  change decide (x.toModel ≤ y.toModel) = true ↔ _
  rw [decide_eq_true_iff]
  change (UnpackedFloat.compare _ _).any (·.isLE) = true ↔ _
  rw [Stands.compare hx hy, ← compare_le_iff_le (a := q)]
  simp [Ordering.isLE_iff_ne_gt]

/-! ## Integer parts -/

/-- The conversion of a number to an integer takes the integer part, whatever the
bounds for an infinity are. -/
theorem Stands.toInt (hu : Stands u q) (low high : ℤ) :
    ∃ n : ℕ, u.toInt low high = n ∧ n ≤ q ∧ q < n + 1 := by
  cases hu with
  | zero => exact ⟨0, rfl, by norm_num, by norm_num⟩
  | @finite m e hm h =>
    set a := e.toNat with ha
    set b := (-e).toNat with hb
    have hcut := ((describes_exact (m <<< a)).shiftRight b).floor
    have hvalue : (m : ℚ) * 2 ^ e = (m <<< a : ℕ) / 2 ^ b := by
      rw [two_zpow_eq_div, Nat.shiftLeft_eq, ← mul_div_assoc]
      push_cast
      rfl
    have hresult : (UnpackedFloat.finite .positive m e hm).toInt low high =
        (ExtendedMantissa.ofMantissaAndAccuracy (m <<< a) .exact >>> b).mantissa := by
      have hexponent : (0 - (e - a) : ℤ).toNat = b := by omega
      change ((ExtendedMantissa.ofMantissaAndAccuracy (m <<< (e - 0).toNat) .exact >>>
        (0 - (e - (e - 0).toNat) : ℤ).toNat).mantissa : ℤ) = _
      rw [sub_zero, ← ha, hexponent]
    rw [hvalue]
    exact ⟨_, hresult, hcut⟩

/-- A double below `2^32` is converted to the word of its integer part. -/
theorem Holds.toUInt32 (hx : Holds x q) (hlt : q < 2 ^ 32) :
    (x.toUInt32.toNat : ℚ) ≤ q ∧ q < x.toUInt32.toNat + 1 := by
  obtain ⟨n, hn, hle, hlt'⟩ := Stands.toInt hx 0 (UInt32.size - 1)
  have hsmall : n < UInt32.size := by exact_mod_cast hle.trans_lt hlt
  have hnat : x.toUInt32.toNat = n := by
    change (UInt32.ofNatClamp (x.toModel.unpack.toInt 0 (UInt32.size - 1)).toNat).toNat = n
    rw [hn, Int.toNat_natCast, UInt32.ofNatClamp, dif_pos hsmall]
    rfl
  rw [hnat]
  exact ⟨hle, hlt'⟩

end Multiprecision.Double
