import Mathlib
import Multiprecision.Integer.Machine
import Multiprecision.Proofs.Integer

/-!
# Multiprecision.Proofs.Integer.Machine

Machine integers by their values:

* `ofUInt64_eq`, `ofInt64_eq`, `ofUInt32_eq`, `ofInt32_eq` — one becomes the
  integer that is made from its value;
* `Denotes.toUInt64_eq`, `Denotes.toInt64_eq`, `Denotes.toUInt32_eq`,
  `Denotes.toInt32_eq` — an integer becomes the one with its value, if it lies
  in the range of the type: the digits that are put together in a double word
  do not overlap, and none of their bits is lost;
* `machine_exact` — there and back.
-/

namespace Multiprecision.Integer

open Digits

variable {x : Integer} {i : Int}

/-! ## From machine integers -/

/-- The lowest digit of a word of 64 bits. -/
theorem toNat_toUInt32_and_mask (w : UInt64) : (w.toUInt32 &&& mask).toNat = w.toNat % base := by
  rw [toNat_and_mask, UInt64.toNat_toUInt32]
  exact Nat.mod_mod_of_dvd _ (by decide)

/-- The digits cut off a word are those of the number. -/
theorem wordDigits_eq (w : UInt64) : wordDigits w = Digits.ofNat w.toNat := by
  induction w using wordDigits.induct with
  | case1 => simp [wordDigits, Digits.ofNat]
  | case2 w hw ih =>
    have hne : w.toNat ≠ 0 := fun h => hw (UInt64.toNat_inj.mp h)
    have hdigit : w.toUInt32 &&& mask = UInt32.ofNat (w.toNat % base) := by
      rw [← UInt32.toNat_inj, toNat_toUInt32_and_mask, toNat_ofNat_of_lt_base (mod_base_lt _)]
    rw [wordDigits, if_neg hw, ih, toNat_wide_shiftRight_width, hdigit]
    conv_rhs => rw [Digits.ofNat, if_neg hne]

/-- A double word becomes the integer made from its value. -/
theorem ofUInt64_eq (w : UInt64) : ofUInt64 w = .ofInt w.toNat := by
  rw [ofUInt64, wordDigits_eq, ofInt, Int.natAbs_natCast, decide_eq_false (by omega)]

/-- A word is converted to the integer that it is. -/
theorem ofUInt32_eq (w : UInt32) : ofUInt32 w = .ofInt w.toNat := by
  rw [ofUInt32, ofUInt64_eq, UInt32.toNat_toUInt64]

/-- A signed word is converted to the integer that it is, the least one included. -/
theorem ofInt64_eq (w : Int64) : ofInt64 w = .ofInt w.toInt := by
  have hlow := w.le_toInt
  have hhigh := w.toInt_lt
  have hmagnitude : (UInt64.ofNat w.toInt.natAbs).toNat = w.toInt.natAbs :=
    UInt64.toNat_ofNat_of_lt' (show w.toInt.natAbs < 2 ^ 64 by omega)
  have hsign : decide (w < 0) = decide (w.toInt < 0) := by
    rw [decide_eq_decide, Int64.lt_iff_toInt_lt]
    rfl
  have hnormal := (denotes_ofInt w.toInt).canonical.2
  rw [ofInt64, ofUInt64, wordDigits_eq, hmagnitude, hsign, ← ofInt, normalizeSign, if_neg]
  rw [Bool.and_eq_true, not_and, Bool.not_eq_true]
  exact hnormal

/-- The same for words of 32 bits. -/
theorem ofInt32_eq (w : Int32) : ofInt32 w = .ofInt w.toInt := by
  rw [ofInt32, ofInt64_eq, Int32.toInt_toInt64]

/-! ## To machine integers -/

/-- A digit below a word that was moved up. -/
theorem toNat_shift_or {d : Digit} (hd : d.toNat < base) (high : UInt64) :
    (high <<< 30 ||| d.toUInt64).toNat = (high.toNat * base + d.toNat) % 2 ^ 64 := by
  have hbase : base = 2 ^ 30 := base_eq
  have hshift : (high <<< 30).toNat = 2 ^ 30 * (high.toNat % 2 ^ 34) := by
    rw [UInt64.toNat_shiftLeft]
    change high.toNat <<< 30 % 2 ^ 64 = _
    rw [Nat.shiftLeft_eq, Nat.mul_comm, show (2 : Nat) ^ 64 = 2 ^ 30 * 2 ^ 34 from rfl,
      Nat.mul_mod_mul_left]
  rw [hbase] at hd
  have hlow : d.toUInt64.toNat = d.toNat := UInt32.toNat_toUInt64 d
  rw [UInt64.toNat_or, hshift, hlow, ← Nat.two_pow_add_eq_or_of_lt hd, hbase]
  omega

/-- The digits put into a word from the top; what passes its bits is lost. -/
theorem toNat_foldr_digits {ds : List Digit} (hds : InRange ds) :
    (ds.foldr (fun (d : Digit) (high : UInt64) => high <<< 30 ||| d.toUInt64) 0).toNat =
      value ds % 2 ^ 64 := by
  induction ds with
  | nil => rfl
  | cons d ds ih =>
    obtain ⟨hd, hds⟩ := inRange_cons.mp hds
    rw [List.foldr_cons, toNat_shift_or hd, ih hds, value_cons, Nat.mul_comm base, Nat.add_comm,
      Nat.add_mod, Nat.mod_mul_mod, ← Nat.add_mod]

/-- A magnitude fits a double word just if it has at most 64 bits. -/
theorem Denotes.magnitudeWord_eq (h : x.Denotes i) :
    x.magnitudeWord = if i.natAbs < 2 ^ 64 then some (UInt64.ofNat i.natAbs) else none := by
  obtain ⟨hr, hv⟩ := h.significant
  have hbits : 64 < x.bitLength ↔ ¬ i.natAbs < 2 ^ 64 := by
    rw [h.bitLength, ← not_le, Nat.size_le]
  rw [magnitudeWord]
  by_cases hfits : i.natAbs < 2 ^ 64
  · rw [if_neg (mt hbits.mp (not_not.mpr hfits)), if_pos hfits, Option.some.injEq,
      ← UInt64.toNat_inj, toNat_foldr_digits hr, hv, UInt64.toNat_ofNat']
  · rw [if_pos (hbits.mpr hfits), if_neg hfits]

/-- The conversion to a word of 64 bits is `Overflow` exactly outside of its
range. -/
theorem Denotes.toUInt64_eq (h : x.Denotes i) :
    x.toUInt64 =
      if 0 ≤ i ∧ i < 2 ^ 64 then .ok (UInt64.ofNat i.toNat) else .error (.overflow "u64") := by
  rw [Integer.toUInt64, h.negative, h.magnitudeWord_eq]
  by_cases hneg : i < 0
  · rw [if_pos (decide_eq_true hneg), if_neg (by omega)]
  · rw [if_neg (by simpa using hneg)]
    by_cases hfits : i.natAbs < 2 ^ 64
    · rw [if_pos hfits, if_pos (by omega), show i.toNat = i.natAbs by omega]
    · rw [if_neg hfits, if_neg (by omega)]

/-- A number that fits a double word is one. -/
theorem Denotes.toUInt64 {n : Nat} (h : x.Denotes n) (hn : n < 2 ^ 64) :
    ∃ w, x.toUInt64 = .ok w ∧ w.toNat = n := by
  refine ⟨UInt64.ofNat n, ?_, UInt64.toNat_ofNat_of_lt' hn⟩
  rw [h.toUInt64_eq, if_pos (by omega), Int.toNat_natCast]

/-- The conversion to a signed word of 64 bits, down to the least one. -/
theorem Denotes.toInt64_eq (h : x.Denotes i) :
    x.toInt64 =
      if -2 ^ 63 ≤ i ∧ i < 2 ^ 63 then .ok (Int64.ofInt i) else .error (.overflow "i64") := by
  rw [Integer.toInt64, h.negative, h.magnitudeWord_eq]
  by_cases hfits : i.natAbs < 2 ^ 64
  · have hword : (UInt64.ofNat i.natAbs).toNat = i.natAbs := UInt64.toNat_ofNat_of_lt' hfits
    have hhalf : (0x8000000000000000 : UInt64).toNat = 2 ^ 63 := by decide
    simp only [if_pos hfits, UInt64.le_iff_toNat_le, UInt64.lt_iff_toNat_lt, hword, hhalf]
    by_cases hneg : i < 0
    · rw [if_pos (decide_eq_true hneg), show -(i.natAbs : Int) = i by omega]
      split
      · rw [if_pos (by omega)]
      · rw [if_neg (by omega)]
    · rw [if_neg (by simpa using hneg), show (i.natAbs : Int) = i by omega]
      split
      · rw [if_pos (by omega)]
      · rw [if_neg (by omega)]
  · rw [if_neg hfits, if_neg (by omega)]

/-- The conversion to a word of 32 bits. -/
theorem Denotes.toUInt32_eq (h : x.Denotes i) :
    x.toUInt32 =
      if 0 ≤ i ∧ i < 2 ^ 32 then .ok (UInt32.ofNat i.toNat) else .error (.overflow "u32") := by
  rw [Integer.toUInt32, h.toUInt64_eq]
  by_cases hwide : 0 ≤ i ∧ i < 2 ^ 64
  · have hword : (UInt64.ofNat i.toNat).toNat = i.toNat :=
      UInt64.toNat_ofNat_of_lt' (show i.toNat < 2 ^ 64 by omega)
    have hlast : (0xFFFFFFFF : UInt64).toNat = 2 ^ 32 - 1 := by decide
    simp only [if_pos hwide, UInt64.le_iff_toNat_le, hword, hlast]
    split
    · rw [if_pos (by omega), UInt64.toUInt32_ofNat']
    · rw [if_neg (by omega)]
  · rw [if_neg hwide, if_neg (by omega)]

/-- The conversion to a signed word of 32 bits. -/
theorem Denotes.toInt32_eq (h : x.Denotes i) :
    x.toInt32 =
      if -2 ^ 31 ≤ i ∧ i < 2 ^ 31 then .ok (Int32.ofInt i) else .error (.overflow "i32") := by
  rw [Integer.toInt32, h.toInt64_eq]
  by_cases hwide : -2 ^ 63 ≤ i ∧ i < 2 ^ 63
  · have hword : (Int64.ofInt i).toInt = i := Int64.toInt_ofInt_of_le hwide.1 hwide.2
    have hlow : (-2147483648 : Int64).toInt = -2 ^ 31 := by decide
    have hhigh : (2147483647 : Int64).toInt = 2 ^ 31 - 1 := by decide
    simp only [if_pos hwide, Bool.and_eq_true, decide_eq_true_eq, Int64.le_iff_toInt_le, hword,
      hlow, hhigh, Int64.toInt32_ofInt]
    split
    · rw [if_pos (by omega)]
    · rw [if_neg (by omega)]
  · rw [if_neg hwide, if_neg (by omega)]

/-! ## There and back -/

/-- The conversions between integers and a machine type with the values from
`low` up to `high`: the machine value of an integer `x` with the value `i` is the
one with that value, and there is none outside the range. -/
structure Converts {W : Type} (x : Integer) (i : Int) (type : String) (low high : Int)
    (value : W → Int) (convert : Integer → Except Error W) (embed : W → Integer) : Prop where
  eq_ok_iff (w : W) : convert x = .ok w ↔ value w = i
  exists_iff : (∃ w, convert x = .ok w) ↔ low ≤ i ∧ i < high
  overflow : ¬ (low ≤ i ∧ i < high) → convert x = .error (.overflow type)
  back (w : W) : convert x = .ok w → (embed w).equals x = true
  identity (w : W) : convert (embed w) = .ok w

/-- A machine type whose values are the integers of a range. -/
theorem Denotes.converts {W : Type} {type : String} {low high : Int} {value : W → Int}
    {convert : Integer → Except Error W} {embed : W → Integer} (h : x.Denotes i) (make : Int → W)
    (hconvert : ∀ {x : Integer} {i : Int}, x.Denotes i →
      convert x = if low ≤ i ∧ i < high then .ok (make i) else .error (.overflow type))
    (hembed : ∀ w, embed w = .ofInt (value w)) (hrange : ∀ w, low ≤ value w ∧ value w < high)
    (hvalue : ∀ {i : Int}, low ≤ i → i < high → value (make i) = i)
    (hmake : ∀ w, make (value w) = w) :
    Converts x i type low high value convert embed := by
  have hok (w : W) : convert x = .ok w ↔ value w = i := by
    rw [hconvert h]
    constructor
    · intro hw
      split at hw
      · next hi => rw [← Except.ok.inj hw, hvalue hi.1 hi.2]
      · simp at hw
    · rintro rfl
      rw [if_pos (hrange w), hmake]
  refine ⟨hok, ⟨?_, ?_⟩, ?_, ?_, ?_⟩
  · rintro ⟨w, hw⟩
    exact (hok w).mp hw ▸ hrange w
  · intro hi
    exact ⟨make i, (hok _).mpr (hvalue hi.1 hi.2)⟩
  · intro hi
    rw [hconvert h, if_neg hi]
  · intro w hw
    rw [hembed]
    exact ((denotes_ofInt _).equals_iff h).mpr ((hok w).mp hw)
  · intro w
    rw [hembed, hconvert (denotes_ofInt _), if_pos (hrange w), hmake]

/-- Conversion to a machine integer gives the value just if the type has it, and
an overflow if not; it undoes the conversion from machine integers and is undone by it. -/
theorem machine_exact (h : x.Denotes i) :
    Converts x i "u64" 0 (2 ^ 64) (fun w : UInt64 => w.toNat) toUInt64 ofUInt64 ∧
    Converts x i "i64" (-2 ^ 63) (2 ^ 63) Int64.toInt toInt64 ofInt64 ∧
    Converts x i "u32" 0 (2 ^ 32) (fun w : UInt32 => w.toNat) toUInt32 ofUInt32 ∧
    Converts x i "i32" (-2 ^ 31) (2 ^ 31) Int32.toInt toInt32 ofInt32 ∧
    (x.isInt32 = true ↔ -2 ^ 31 ≤ i ∧ i < 2 ^ 31) := by
  refine ⟨?_, ?_, ?_, ?_, ?_⟩
  · refine h.converts (fun i => UInt64.ofNat i.toNat) Denotes.toUInt64_eq ofUInt64_eq
      (fun w => ?_) (fun {i} hlow hhigh => ?_) (fun w => UInt64.ofNat_toNat)
    · have := w.toNat_lt
      omega
    · rw [UInt64.toNat_ofNat_of_lt' (show i.toNat < 2 ^ 64 by omega)]
      omega
  · exact h.converts Int64.ofInt Denotes.toInt64_eq ofInt64_eq
      (fun w => ⟨w.le_toInt, w.toInt_lt⟩) Int64.toInt_ofInt_of_le Int64.ofInt_toInt
  · refine h.converts (fun i => UInt32.ofNat i.toNat) Denotes.toUInt32_eq ofUInt32_eq
      (fun w => ?_) (fun {i} hlow hhigh => ?_) (fun w => UInt32.ofNat_toNat)
    · have := w.toNat_lt
      omega
    · rw [UInt32.toNat_ofNat_of_lt' (show i.toNat < 2 ^ 32 by omega)]
      omega
  · exact h.converts Int32.ofInt Denotes.toInt32_eq ofInt32_eq
      (fun w => ⟨w.le_toInt, w.toInt_lt⟩) Int32.toInt_ofInt_of_le Int32.ofInt_toInt
  · rw [isInt32, h.toInt32_eq]
    split
    · next hi => exact iff_of_true rfl hi
    · next hi => exact iff_of_false Bool.false_ne_true hi

/-- The least signed double word, with a reserved place, has no other type. -/
theorem machine_exact_least :
    Denotes ⟨true, [0, 0, 8, 0]⟩ (-2 ^ 63) ∧
    toInt64 ⟨true, [0, 0, 8, 0]⟩ = .ok Int64.minValue ∧
    (ofInt64 Int64.minValue).equals ⟨true, [0, 0, 8, 0]⟩ = true ∧
    toUInt64 ⟨true, [0, 0, 8, 0]⟩ = .error (.overflow "u64") ∧
    toInt32 ⟨true, [0, 0, 8, 0]⟩ = .error (.overflow "i32") ∧
    isInt32 ⟨true, [0, 0, 8, 0]⟩ = false := by
  have hx : Denotes ⟨true, [0, 0, 8, 0]⟩ (-2 ^ 63) :=
    ⟨by simp [Canonical, base, Digits.isZero], by decide⟩
  obtain ⟨hu64, hi64, -, hi32, hsmall⟩ := machine_exact hx
  have hmin := (hi64.eq_ok_iff Int64.minValue).mpr (by decide)
  exact ⟨hx, hmin, hi64.back _ hmin, hu64.overflow (by decide), hi32.overflow (by decide),
    Bool.eq_false_iff.mpr (mt hsmall.mp (by decide))⟩

end Multiprecision.Integer
