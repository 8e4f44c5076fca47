import Mathlib
import Multiprecision.Digits.Word
import Multiprecision.Proofs.Digits

/-!
# Multiprecision.Proofs.Digits.Word

Products and quotients by a word of 32 bits.  A carry of a product is below
`2^32` when it was before, and a remainder is below the divisor, so neither
pass overflows a double word.
-/

namespace Multiprecision.Digits

variable {w : UInt64}

/-! ## Products -/

/-- A digit times a word, and a carry, fit a double word, and the next carry fits
a word. -/
theorem toNat_mulWord_product {d : Digit} (hd : d.toNat < base) (hw : w.toNat < 2 ^ 32)
    {carry : UInt64} (hc : carry.toNat < 2 ^ 32) :
    (d.toUInt64 * w + carry).toNat = d.toNat * w.toNat + carry.toNat ∧
      (d.toNat * w.toNat + carry.toNat) / base < 2 ^ 32 := by
  have hbase : base = 1073741824 := rfl
  have hle : d.toNat * w.toNat ≤ (base - 1) * (2 ^ 32 - 1) :=
    Nat.mul_le_mul (by omega) (by omega)
  have hmul : (d.toUInt64 * w).toNat = d.toNat * w.toNat := by
    rw [UInt64.toNat_mul, UInt32.toNat_toUInt64]
    exact Nat.mod_eq_of_lt (by omega)
  constructor
  · rw [UInt64.toNat_add, hmul]
    exact Nat.mod_eq_of_lt (by omega)
  · exact Nat.div_lt_of_lt_mul (by omega)

/-- A product with a word has digits in range. -/
theorem inRange_mulWord (w : UInt64) (ds : List Digit) (carry : UInt64) :
    InRange (mulWord w ds carry) := by
  induction ds generalizing carry with
  | nil => exact inRange_ofNat _
  | cons d ds ih =>
    refine inRange_cons.mpr ⟨?_, ih _⟩
    rw [toNat_and_wideMask_toUInt32]
    exact mod_base_lt _

/-- A product with a word writes the product and the carry. -/
theorem value_mulWord {ds : List Digit} (hds : InRange ds) (hw : w.toNat < 2 ^ 32)
    {carry : UInt64} (hc : carry.toNat < 2 ^ 32) :
    value (mulWord w ds carry) = value ds * w.toNat + carry.toNat := by
  induction ds generalizing carry with
  | nil => simp [mulWord]
  | cons d ds ih =>
    obtain ⟨hd, hds⟩ := inRange_cons.mp hds
    obtain ⟨hproduct, hout⟩ := toNat_mulWord_product hd hw hc
    have hdm := Nat.mod_add_div (d.toNat * w.toNat + carry.toNat) base
    rw [mulWord, value_cons, toNat_and_wideMask_toUInt32,
      ih hds (by rw [toNat_wide_shiftRight_width, hproduct]; exact hout),
      toNat_wide_shiftRight_width, hproduct, value_cons]
    linarith

/-! ## Quotients -/

/-- A remainder below the divisor, moved up by a digit, has room for the
next digit, and the quotient of that is a digit. -/
theorem toNat_divWord_current {d : Digit} (hd : d.toNat < base) (hw : w.toNat < 2 ^ 32)
    {high : UInt64} (hhigh : high.toNat < w.toNat) :
    (high <<< 30 ||| d.toUInt64).toNat = d.toNat + base * high.toNat ∧
      (d.toNat + base * high.toNat) / w.toNat < base := by
  have hbase : base = 1073741824 := rfl
  constructor
  · have hshift : (high <<< 30).toNat = 2 ^ 30 * high.toNat := by
      rw [UInt64.toNat_shiftLeft, Nat.shiftLeft_eq,
        show (30 : UInt64).toNat % 64 = 30 from rfl, Nat.mod_eq_of_lt (by omega), Nat.mul_comm]
    rw [UInt64.toNat_or, hshift, UInt32.toNat_toUInt64, ← Nat.two_pow_add_eq_or_of_lt hd,
      Nat.add_comm]
    rfl
  · rw [Nat.div_lt_iff_lt_mul (by omega)]
    calc
      d.toNat + base * high.toNat < base * (high.toNat + 1) := by rw [Nat.mul_succ]; omega
      _ ≤ base * w.toNat := Nat.mul_le_mul_left _ hhigh

/-- The quotient is exact, its digits are in range, and the remainder is
below the divisor. -/
theorem divWord_spec {ds : List Digit} (hds : InRange ds) (hpos : 0 < w.toNat)
    (hw : w.toNat < 2 ^ 32) :
    value (divWord w ds).1 * w.toNat + (divWord w ds).2.toNat = value ds ∧
      InRange (divWord w ds).1 ∧ (divWord w ds).2.toNat < w.toNat := by
  induction ds with
  | nil => simpa [divWord] using hpos
  | cons d ds ih =>
    obtain ⟨hd, hds⟩ := inRange_cons.mp hds
    obtain ⟨heq, hqs, hhigh⟩ := ih hds
    obtain ⟨hcurrent, hq⟩ := toNat_divWord_current hd hw hhigh
    have hdigit : ((divWord w ds).2 <<< 30 ||| d.toUInt64).toNat / w.toNat < 2 ^ 32 := by
      rw [hcurrent]
      exact hq.trans (by decide)
    simp only [divWord, value_cons, inRange_cons, UInt64.toNat_toUInt32, UInt64.toNat_div,
      UInt64.toNat_mod, Nat.mod_eq_of_lt hdigit]
    rw [hcurrent]
    have hdm := Nat.mod_add_div (d.toNat + base * (divWord w ds).2.toNat) w.toNat
    refine ⟨?_, ⟨hq, hqs⟩, Nat.mod_lt _ hpos⟩
    rw [← heq]
    linear_combination hdm

end Multiprecision.Digits
