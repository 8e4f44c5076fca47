import Mathlib
import Multiprecision.Fermat
import Multiprecision.Proofs.Integer.Bits
import Multiprecision.Proofs.Integer.Shift
import Multiprecision.Proofs.Integer.Sum

/-!
# Multiprecision.Proofs.Fermat

Arithmetic on residues is arithmetic in the ring of integers modulo `2^e + 1`:

* `Represents` — an integer from 0 to `2^e` and its residue;
* `Represents.add`, `Represents.sub`, `Represents.neg`;
* `Represents.shiftLeft` — a shift multiplies by a power of the unit 2, whose
  exponent may be negative;
* `represents_reduce` — any number that is not negative is reduced to its
  residue;
* `isMinusOne_iff` — the bit length tells -1 apart.
-/

namespace Multiprecision.Fermat

open Integer

/-- The integers modulo `2^e + 1`. -/
abbrev Residue (e : Nat) := ZMod (2 ^ e + 1)

/-- A canonical integer from 0 to `2^e`, for the residue `a`. -/
def Represents (e : Nat) (x : Integer) (a : Residue e) : Prop := x.Denotes a.val

variable {e : Nat} {x y : Integer} {i : Int} {a b : Residue e}

theorem natCast_two_pow (n : Nat) : ((2 ^ n : Nat) : Int) = 2 ^ n := Nat.cast_pow 2 n

/-- A number from 0 to `2^e` represents its residue. -/
theorem represents_of_lt (h : x.Denotes i) (h0 : 0 ≤ i) (hlt : i < 2 ^ e + 1)
    (ha : (i : Residue e) = a) : Represents e x a := by
  lift i to Nat using h0
  rw [Int.cast_natCast] at ha
  rw [Represents, ← ha, ZMod.val_natCast_of_lt (by exact_mod_cast hlt)]
  exact h

/-- The number that represents a residue. -/
theorem Represents.exists_nat (h : Represents e x a) :
    ∃ n : Nat, x.Denotes n ∧ n ≤ 2 ^ e ∧ (n : Residue e) = a :=
  ⟨a.val, h, Nat.le_of_lt_succ (ZMod.val_lt a), ZMod.natCast_zmod_val a⟩

/-- The magnitude of a representative is the residue. -/
theorem Represents.magnitude_cast (h : Represents e x a) : (x.magnitude : Residue e) = a := by
  obtain ⟨n, hn, -, rfl⟩ := h.exists_nat
  rw [hn.magnitude, Int.natAbs_natCast]

theorem Represents.isCanonical (h : Represents e x a) : x.Canonical :=
  Denotes.canonical h

/-- The power `e` of two is -1. -/
theorem two_pow_eq_neg_one (e : Nat) : (2 : Residue e) ^ e = -1 := by
  have hzero : ((2 ^ e + 1 : Nat) : Residue e) = 0 := ZMod.natCast_self _
  push_cast at hzero
  exact eq_neg_of_add_eq_zero_left hzero

/-- The modulus is zero as a residue. -/
theorem modulus_cast (e : Nat) : ((2 ^ e + 1 : Int) : Residue e) = 0 := by
  push_cast
  rw [two_pow_eq_neg_one, neg_add_cancel]

/-- The residue -1 is the only one that needs more than `e` bits. -/
theorem isMinusOne_iff (h : Represents e x a) : isMinusOne e x = true ↔ a = -1 := by
  obtain ⟨n, hn, hle, rfl⟩ := h.exists_nat
  have hsize : n.size = e + 1 ↔ n = 2 ^ e := by
    constructor
    · intro hsize
      have hge : 2 ^ e ≤ n := Nat.lt_size.mp (by omega)
      omega
    · rintro rfl
      exact Nat.size_pow
  rw [isMinusOne, hn.bitLength, beq_iff_eq, Int.natAbs_natCast, hsize]
  constructor
  · rintro rfl
    rw [Nat.cast_pow, Nat.cast_ofNat, two_pow_eq_neg_one]
  · intro hcast
    have hminus : (n : Residue e) = ((2 ^ e : Nat) : Residue e) := by
      rw [hcast, Nat.cast_pow, Nat.cast_ofNat, two_pow_eq_neg_one]
    have hval := congrArg ZMod.val hminus
    rwa [ZMod.val_natCast_of_lt (by omega), ZMod.val_natCast_of_lt (by omega)] at hval

/-- The low bits move up, and those that pass the top count against them. -/
theorem denotes_shifted {n bits : Nat} (h : x.Denotes n) (hle : n ≤ 2 ^ e) (hbits : bits < e) :
    ∃ v : Int, (((x.bitWindow 0 (e - bits - 1)).shiftLeft bits).sub
        (x.bitWindow (e - bits) e)).Denotes v ∧
      -(2 ^ e) ≤ v ∧ v ≤ 2 ^ e ∧ (v : Residue e) = n * 2 ^ bits := by
  have hlow := (h.bitWindow 0 (e - bits - 1)).shiftLeft bits
  have hhigh := h.bitWindow (e - bits) e
  rw [pow_zero, Nat.div_one, Int.natAbs_natCast,
    show e - bits - 1 + 1 - 0 = e - bits by omega] at hlow
  have hfits : n / 2 ^ (e - bits) < 2 ^ (e + 1 - (e - bits)) := by
    rw [Nat.div_lt_iff_lt_mul (by positivity), ← pow_add]
    exact hle.trans_lt (Nat.pow_lt_pow_right (by decide) (by omega))
  rw [Int.natAbs_natCast, Nat.mod_eq_of_lt hfits] at hhigh
  have hdm := Nat.mod_add_div n (2 ^ (e - bits))
  have hmod := Nat.mod_lt n (show 0 < 2 ^ (e - bits) by positivity)
  have hdiv := Nat.div_le_self n (2 ^ (e - bits))
  have hsplit : 2 ^ (e - bits) * 2 ^ bits = 2 ^ e := by
    rw [← pow_add, Nat.sub_add_cancel hbits.le]
  generalize n % 2 ^ (e - bits) = low at *
  generalize n / 2 ^ (e - bits) = high at *
  have hlowle : low * 2 ^ bits ≤ 2 ^ e := hsplit ▸ Nat.mul_le_mul_right _ hmod.le
  refine ⟨_, hlow.sub hhigh, ?_, ?_, ?_⟩
  · have hhighle : (high : Int) ≤ 2 ^ e := by exact_mod_cast hdiv.trans hle
    have hnonneg : (0 : Int) ≤ low * 2 ^ bits := by positivity
    omega
  · have hlowle : (low * 2 ^ bits : Int) ≤ 2 ^ e := by exact_mod_cast hlowle
    omega
  · have hcast : (2 : Residue e) ^ (e - bits) * 2 ^ bits = -1 := by
      rw [← two_pow_eq_neg_one, ← pow_add, Nat.sub_add_cancel hbits.le]
    rw [← hdm]
    push_cast
    linear_combination (-(high : Residue e)) * hcast

/-! ## Reduction -/

/-- Adding the modulus stops at the first number that is not negative. -/
theorem raise_spec {m : Integer} {M : Nat} (hm : m.Denotes M) {n : Nat} (h : x.Denotes i)
    (hge : -(n * M : Int) ≤ i) :
    ∃ j : Nat, (raise m n x).Denotes j ∧ (M : Int) ∣ j - i ∧ ((j : Int) = i ∨ j < M) := by
  induction n generalizing x i with
  | zero =>
    lift i to Nat using by simpa using hge
    exact ⟨i, h, by simp, .inl rfl⟩
  | succ n ih =>
    rw [raise]
    split
    · next hneg =>
      rw [h.isNegative_iff] at hneg
      push_cast at hge
      obtain ⟨j, hj, hdvd, hor⟩ := ih (h.add hm) (by linarith)
      refine ⟨j, hj, ?_, .inr (by omega)⟩
      have hsum := dvd_add hdvd (dvd_refl (M : Int))
      rwa [show (j : Int) - (i + M) + M = j - i by ring] at hsum
    · next hneg =>
      rw [h.isNegative_iff, not_lt] at hneg
      lift i to Nat using hneg
      exact ⟨i, h, by simp, .inl rfl⟩

/-- Taking the modulus off often enough leaves the remainder. -/
theorem lower_spec {m : Integer} {M : Nat} (hm : m.Denotes M) {n i : Nat} (h : x.Denotes i)
    (hlt : i < (n + 1) * M) : (lower m n x).Denotes ((i % M : Nat) : Int) := by
  induction n generalizing x i with
  | zero =>
    rw [Nat.mod_eq_of_lt (by omega)]
    exact h
  | succ n ih =>
    rw [lower]
    split
    · next hbelow =>
      rw [h.below_iff hm] at hbelow
      rw [Nat.mod_eq_of_lt (by omega)]
      exact h
    · next hge =>
      rw [h.below_iff hm, not_lt] at hge
      have hle : M ≤ i := by omega
      have hdiff := h.sub hm
      rw [← Nat.cast_sub hle] at hdiff
      rw [Nat.mod_eq_sub_mod hle]
      refine ih hdiff ?_
      rw [Nat.succ_mul] at hlt
      omega

section Positive

variable [NeZero e]

/-- The modulus is written as `2^e + 1`. -/
theorem denotes_modulus (e : Nat) [NeZero e] : (modulus e).Denotes (2 ^ e + 1) := by
  have h := (denotes_setBit_zeros (e + 1) e).setBit 0
  have hone : 1 < 2 ^ e := Nat.one_lt_two_pow (NeZero.ne e)
  have hor := Nat.two_pow_add_eq_or_of_lt hone 1
  rw [Nat.mul_one] at hor
  rw [pow_zero, ← hor] at h
  exact_mod_cast h

/-! ## Sums -/

/-- A difference of residues, or what a shift leaves, takes one modulus to
become a residue. -/
theorem represents_wrap (h : x.Denotes i) (hge : -(2 ^ e + 1) ≤ i) (hle : i ≤ 2 ^ e)
    (ha : (i : Residue e) = a) :
    Represents e (if x.isNegative then x.add (modulus e) else x) a := by
  split
  · next hneg =>
    rw [h.isNegative_iff] at hneg
    refine represents_of_lt (h.add (denotes_modulus e)) (by omega) (by omega) ?_
    rw [Int.cast_add, modulus_cast, add_zero, ha]
  · next hneg =>
    rw [h.isNegative_iff] at hneg
    exact represents_of_lt h (by omega) (by omega) ha

/-- A representative is in canonical form already. -/
theorem Represents.canonical_eq (h : Represents e x a) : canonical e x = x := by
  obtain ⟨n, hn, hle, rfl⟩ := h.exists_nat
  rw [Fermat.canonical, hn.compareMagnitude_eq (denotes_modulus e), if_neg]
  have hpow := natCast_two_pow e
  rw [beq_iff_eq, Nat.compare_eq_eq]
  omega

/-- The sum of representatives represents the sum. -/
theorem Represents.add (hx : Represents e x a) (hy : Represents e y b) :
    Represents e (add e x y) (a + b) := by
  obtain ⟨m, hm, hmle, rfl⟩ := hx.exists_nat
  obtain ⟨n, hn, hnle, rfl⟩ := hy.exists_nat
  have hsum := hm.add hn
  have hmod := denotes_modulus e
  have hpow := natCast_two_pow e
  simp only [Fermat.add]
  split
  · next hlt =>
    rw [hsum.below_iff hmod] at hlt
    refine represents_of_lt hsum (by omega) (by omega) ?_
    push_cast
    rfl
  · next hge =>
    rw [hsum.below_iff hmod] at hge
    refine represents_of_lt (hsum.sub hmod) (by omega) (by omega) ?_
    rw [Int.cast_sub, modulus_cast, sub_zero]
    push_cast
    rfl

/-- The difference of representatives represents the difference. -/
theorem Represents.sub (hx : Represents e x a) (hy : Represents e y b) :
    Represents e (sub e x y) (a - b) := by
  obtain ⟨m, hm, hmle, rfl⟩ := hx.exists_nat
  obtain ⟨n, hn, hnle, rfl⟩ := hy.exists_nat
  have hpow := natCast_two_pow e
  refine represents_wrap (hm.sub hn) (by omega) (by omega) ?_
  push_cast
  rfl

/-- The negative of a representative represents the negative. -/
theorem Represents.neg (hx : Represents e x a) : Represents e (neg e x) (-a) := by
  obtain ⟨n, hn, hle, rfl⟩ := hx.exists_nat
  have hmod := denotes_modulus e
  have hpow := natCast_two_pow e
  simp only [Fermat.neg]
  split
  · next heq =>
    rw [beq_iff_eq, (hmod.sub hn).compareMagnitude_eq hmod, Nat.compare_eq_eq] at heq
    have hzero : n = 0 := by omega
    refine represents_of_lt (denotes_cleared _) le_rfl (by omega) ?_
    rw [hzero]
    simp
  · next hne =>
    rw [beq_iff_eq, (hmod.sub hn).compareMagnitude_eq hmod, Nat.compare_eq_eq] at hne
    refine represents_of_lt (hmod.sub hn) (by omega) (by omega) ?_
    rw [Int.cast_sub, modulus_cast, zero_sub, Int.cast_natCast]

/-! ## Powers of two -/

/-- The unit 2, with inverse `-2^(e - 1)`. -/
def two (e : Nat) [NeZero e] : (Residue e)ˣ where
  val := 2
  inv := -2 ^ (e - 1)
  val_inv := by
    rw [mul_neg, ← pow_succ', Nat.sub_add_cancel (NeZero.pos e), two_pow_eq_neg_one, neg_neg]
  inv_val := by
    rw [neg_mul, ← pow_succ, Nat.sub_add_cancel (NeZero.pos e), two_pow_eq_neg_one, neg_neg]

@[simp] theorem val_two : ((two e : (Residue e)ˣ) : Residue e) = 2 := rfl

/-- The unit two to the power `e` is -1. -/
theorem two_zpow_eq_neg_one : two e ^ (e : Int) = -1 := by
  rw [zpow_natCast]
  ext
  rw [Units.val_pow_eq_pow_val, val_two, two_pow_eq_neg_one, Units.val_neg, Units.val_one]

/-- Powers of 2 repeat after `2e`, so an exponent can be taken from 0 on. -/
theorem two_zpow_eq (s : Int) :
    ((two e ^ s : (Residue e)ˣ) : Residue e) = 2 ^ (s % (2 * e : Nat)).toNat := by
  have hperiod : two e ^ ((2 * e : Nat) : Int) = 1 := by
    rw [Nat.cast_mul, Int.mul_comm, zpow_mul, two_zpow_eq_neg_one, zpow_natCast, neg_one_sq]
  have hpos : ((2 * e : Nat) : Int) ≠ 0 := by
    have := NeZero.ne e
    omega
  have hfold : two e ^ s = two e ^ (s % (2 * e : Nat)).toNat := by
    conv_lhs => rw [← Int.emod_add_mul_ediv s (2 * e : Nat), zpow_add, zpow_mul, hperiod,
      one_zpow, mul_one, ← Int.toNat_of_nonneg (Int.emod_nonneg s hpos), zpow_natCast]
  rw [hfold, Units.val_pow_eq_pow_val, val_two]

/-- A shift by any integer multiplies by that power of two. -/
theorem Represents.shiftLeft (h : Represents e x a) (s : Int) :
    Represents e (shiftLeft e x s) (a * (two e ^ s : (Residue e)ˣ)) := by
  obtain ⟨n, hn, hle, rfl⟩ := h.exists_nat
  have he := NeZero.pos e
  have hrange : (s % (2 * e : Nat)).toNat < 2 * e := by
    have := Int.emod_lt_of_pos s (show (0 : Int) < (2 * e : Nat) by omega)
    omega
  rw [Fermat.shiftLeft, two_zpow_eq]
  generalize (s % (2 * e : Nat)).toNat = r at hrange
  obtain ⟨v, hv, hvge, hvle, hcast⟩ := denotes_shifted hn hle (Nat.mod_lt r he)
  have hdm := Nat.mod_add_div r e
  -- The exponent counts one more sign from `e` on.
  rcases Nat.lt_or_ge r e with hlt | hge
  · have hdiv : r / e = 0 := Nat.div_eq_of_lt hlt
    simp only [hdiv, Nat.zero_ne_one, if_false]
    refine represents_wrap hv (by omega) (by omega) ?_
    rw [hcast, Nat.mod_eq_of_lt hlt]
  · have hdiv : r / e = 1 := Nat.div_eq_of_lt_le (by omega) (by omega)
    simp only [hdiv, if_true]
    refine represents_wrap hv.neg (by omega) (by omega) ?_
    rw [hdiv, Nat.mul_one] at hdm
    rw [Int.cast_neg, hcast]
    conv_rhs => rw [← hdm, pow_add, two_pow_eq_neg_one]
    ring

/-- A shift to the right divides by that power of two. -/
theorem Represents.shiftRight (h : Represents e x a) (s : Int) :
    Represents e (shiftRight e x s) (a * (two e ^ (-s) : (Residue e)ˣ)) := h.shiftLeft (-s)

/-! ## Reduction by windows -/

/-- Windows with alternating signs make up the number that they are cut from. -/
theorem alternatingSum_spec {n : Nat} (h : x.Denotes n) (k start : Nat) (subtract : Bool)
    {sum : Integer} {s : Int} (hsum : sum.Denotes s) :
    ∃ t : Int, (alternatingSum e x k start subtract sum).Denotes t ∧
      (t : Residue e) =
        s + (if subtract then -1 else 1) * (n / 2 ^ start % 2 ^ (e * k) : Nat) ∧
      s - k * 2 ^ e ≤ t ∧ t ≤ s + k * 2 ^ e := by
  induction k generalizing start subtract sum s with
  | zero => exact ⟨s, hsum, by simp [Nat.mod_one], by simp, by simp⟩
  | succ k ih =>
    have he := NeZero.pos e
    have hwindow := h.bitWindow start (start + e - 1)
    rw [Int.natAbs_natCast, show start + e - 1 + 1 - start = e by omega] at hwindow
    have hlt : n / 2 ^ start % 2 ^ e < 2 ^ e := Nat.mod_lt _ (by positivity)
    have hrest : n / 2 ^ start % 2 ^ (e * (k + 1)) =
        n / 2 ^ start % 2 ^ e + 2 ^ e * (n / 2 ^ (start + e) % 2 ^ (e * k)) := by
      rw [Nat.mul_succ, Nat.add_comm, pow_add, Nat.mod_mul, Nat.div_div_eq_div_mul, ← pow_add]
    rw [hrest]
    generalize n / 2 ^ start % 2 ^ e = window at hwindow hlt
    have hlt : (window : Int) < 2 ^ e := by exact_mod_cast hlt
    rw [alternatingSum]
    cases subtract with
    | false =>
      obtain ⟨t, ht, hcast, hge, hle⟩ := ih (start + e) true (hsum.add hwindow)
      refine ⟨t, ht, ?_, by push_cast; linarith, by push_cast; linarith⟩
      rw [hcast, if_pos rfl, if_neg Bool.false_ne_true]
      push_cast
      rw [two_pow_eq_neg_one]
      ring
    | true =>
      obtain ⟨t, ht, hcast, hge, hle⟩ := ih (start + e) false (hsum.sub hwindow)
      refine ⟨t, ht, ?_, by push_cast; linarith, by push_cast; linarith⟩
      rw [hcast, if_pos rfl, if_neg Bool.false_ne_true]
      push_cast
      rw [two_pow_eq_neg_one]
      ring

/-- The windows cover the number, so their sum is its residue up to multiples of
the modulus, few enough to be taken off. -/
theorem reduction_spec {n : Nat} (h : x.Denotes n) {windows : Nat}
    (hwindows : windows = (x.bitLength + e - 1) / e) :
    ∃ j : Nat, (j : Residue e) = n ∧
      (raise (modulus e) windows (alternatingSum e x windows 0 false .zero)).Denotes j ∧
      (lower (modulus e) windows
        (raise (modulus e) windows (alternatingSum e x windows 0 false .zero))).Denotes
          (j % (2 ^ e + 1) : Nat) := by
  have he := NeZero.pos e
  have hmod : (modulus e).Denotes ((2 ^ e + 1 : Nat) : Int) := denotes_modulus e
  rw [h.bitLength, Int.natAbs_natCast] at hwindows
  have hcover : n < 2 ^ (e * windows) := by
    refine (Nat.lt_size_self n).trans_le (Nat.pow_le_pow_right (by decide) ?_)
    have hdm := Nat.mod_add_div (n.size + e - 1) e
    rw [← hwindows] at hdm
    have hlt := Nat.mod_lt (n.size + e - 1) he
    omega
  obtain ⟨t, ht, hcast, hge, hle⟩ := alternatingSum_spec (e := e) h windows 0 false denotes_zero
  rw [pow_zero, Nat.div_one, Nat.mod_eq_of_lt hcover] at hcast
  obtain ⟨j, hj, hdvd, hor⟩ := raise_spec hmod (n := windows) ht (by push_cast; linarith)
  have hroom : j < (windows + 1) * (2 ^ e + 1) := by
    rcases hor with heq | hlt
    · have hle : (j : Int) < (windows + 1) * (2 ^ e + 1) := by
        have hpow : (0 : Int) < 2 ^ e := by positivity
        nlinarith
      exact_mod_cast hle
    · nlinarith
  have hres : ((j : Int) : Residue e) = t := by
    rw [← sub_eq_zero, ← Int.cast_sub]
    exact (ZMod.intCast_zmod_eq_zero_iff_dvd _ _).mpr hdvd
  rw [Int.cast_natCast] at hres
  refine ⟨j, ?_, hj, lower_spec hmod hj hroom⟩
  rw [hres, hcast]
  simp

/-- Any number that is not negative is reduced to its residue. -/
theorem represents_reduce {n : Nat} (h : x.Denotes n) : Represents e (reduce e x) n := by
  have hmod : (modulus e).Denotes ((2 ^ e + 1 : Nat) : Int) := denotes_modulus e
  simp only [reduce]
  split
  · next hlt =>
    rw [h.below_iff hmod, Int.natAbs_natCast, Int.natAbs_natCast] at hlt
    exact represents_of_lt (h.abs_self (by omega)) (by omega) (by exact_mod_cast hlt) (by simp)
  · obtain ⟨j, hcast, -, hlower⟩ := reduction_spec (e := e) h rfl
    refine represents_of_lt hlower (by omega) ?_ ?_
    · exact_mod_cast Nat.mod_lt j (Nat.succ_pos _)
    · rw [Int.cast_natCast, ZMod.natCast_mod, hcast]

end Positive

end Multiprecision.Fermat
