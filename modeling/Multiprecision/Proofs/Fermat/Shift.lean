import Mathlib
import Multiprecision.Proofs.Fermat.Spectrum

/-!
# Multiprecision.Proofs.Fermat.Shift

Shifts modulo `2^e + 1` are products by powers of the unit 2:

* `eq_toInt_iff` — a residue is known by its class, so equations between
  shifts are equations between powers of 2;
* `shiftLeft_congr` — an exponent counts only modulo `2e`;
* `shiftLeft_exact` — a shift is the residue of the product, shifts by `s` and
  by `t` are one by `s + t`, and a shift to the right undoes one to the left.
-/

namespace Multiprecision.Fermat

open Integer

variable {e : Nat} {x y : Integer} {a : Residue e}

/-- A number from 0 to `2^e` is the only one of its class. -/
theorem eq_toInt_iff (h : Represents e x a) {z : Int} (h0 : 0 ≤ z) (hle : z ≤ 2 ^ e) :
    (z : Residue e) = a ↔ z = x.toInt := by
  obtain ⟨n, hn, hnle, rfl⟩ := h.exists_nat
  lift z to Nat using h0
  have hzle : z ≤ 2 ^ e := by exact_mod_cast hle
  rw [hn.toInt, Int.cast_natCast, Int.natCast_inj]
  constructor
  · intro hcast
    have hval := congrArg ZMod.val hcast
    rwa [ZMod.val_natCast_of_lt (by omega), ZMod.val_natCast_of_lt (by omega)] at hval
  · rintro rfl
    rfl

/-- Integers that represent the same residue have the same value. -/
theorem Represents.toInt_congr (hx : Represents e x a) (hy : Represents e y a) :
    x.toInt = y.toInt := hx.toInt.trans hy.toInt.symm

/-- Shifts whose exponents differ by a multiple of `2e` are the same. -/
theorem shiftLeft_congr (x : Integer) {s t : Int} (h : s ≡ t [ZMOD 2 * e]) :
    shiftLeft e x s = shiftLeft e x t := by
  have hfold : s % (2 * e : Nat) = t % (2 * e : Nat) := by exact_mod_cast h
  rw [shiftLeft, shiftLeft, hfold]

variable [NeZero e]

/-- Two shifts in turn multiply by the product of the powers. -/
theorem Represents.shiftLeft_shiftLeft (h : Represents e x a) (s t : Int) :
    Represents e (Fermat.shiftLeft e (Fermat.shiftLeft e x s) t)
      (a * (two e ^ (s + t) : (Residue e)ˣ)) := by
  have htwice := (h.shiftLeft s).shiftLeft t
  rwa [mul_assoc, ← Units.val_mul, ← zpow_add] at htwice

/-- A shift of a residue by `s` is the one number from 0 to `2^e` that is its
product with `2^s` modulo `2^e + 1`, where a negative `s` divides.  Two shifts
in turn are a shift by the sum of the exponents, exponents count modulo `2e`,
and a shift to the right takes a shift to the left back. -/
theorem shiftLeft_exact (hx : IsResidue e x) (s : Int) :
    IsResidue e (shiftLeft e x s) ∧
    (∀ z : Int, 0 ≤ z → z ≤ 2 ^ e →
      ((z : Residue e) = x.toInt * (two e ^ s : (Residue e)ˣ) ↔ z = (shiftLeft e x s).toInt)) ∧
    (∀ t, (shiftLeft e (shiftLeft e x s) t).toInt = (shiftLeft e x (s + t)).toInt) ∧
    (∀ k : Int, shiftLeft e x (s + 2 * e * k) = shiftLeft e x s) ∧
    (shiftRight e (shiftLeft e x s) s).toInt = x.toInt := by
  have hshift := hx.represents.shiftLeft s
  refine ⟨(represents_iff.mp hshift).1, fun z => eq_toInt_iff hshift, fun t => ?_, fun k => ?_, ?_⟩
  · exact (hx.represents.shiftLeft_shiftLeft s t).toInt_congr (hx.represents.shiftLeft (s + t))
  · exact shiftLeft_congr x (Int.modEq_iff_dvd.mpr ⟨-k, by ring⟩)
  · have hback := hx.represents.shiftLeft_shiftLeft s (-s)
    rw [add_neg_cancel, zpow_zero, Units.val_one, mul_one] at hback
    exact hback.toInt_congr hx.represents

/-- The residue -1 modulo 257, with a place in reserve, divided by `2^13`: the
power is that of `2^3`, and five places to the left of it stands 1. -/
theorem shiftLeft_exact_minus_one :
    IsResidue 8 ⟨false, [256, 0]⟩ ∧ (shiftLeft 8 ⟨false, [256, 0]⟩ (-13)).toInt = 249 ∧
      (249 : Residue 8) = 256 * (two 8 ^ (-13 : Int) : (Residue 8)ˣ) ∧
      (shiftLeft 8 (shiftLeft 8 ⟨false, [256, 0]⟩ (-13)) 5).toInt =
        (shiftLeft 8 ⟨false, [256, 0]⟩ (-13 + 5)).toInt ∧
      (shiftLeft 8 ⟨false, [256, 0]⟩ (-13 + 5)).toInt = 1 ∧
      (shiftRight 8 (shiftLeft 8 ⟨false, [256, 0]⟩ (-13)) (-13)).toInt = 256 := by
  have hx : IsResidue 8 ⟨false, [256, 0]⟩ :=
    ⟨by simp [Canonical, Digits.base], by decide, by decide⟩
  have hvalue : (shiftLeft 8 ⟨false, [256, 0]⟩ (-13)).toInt = 249 := by decide +kernel
  obtain ⟨-, hunique, hturn, -, hback⟩ := shiftLeft_exact hx (-13)
  have hclass := (hunique 249 (by decide) (by decide)).mpr hvalue.symm
  exact ⟨hx, hvalue, by exact_mod_cast hclass, hturn 5, by decide +kernel, hback⟩

end Multiprecision.Fermat
