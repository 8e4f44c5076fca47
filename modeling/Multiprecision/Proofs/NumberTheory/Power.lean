import Mathlib
import Multiprecision.NumberTheory.Power
import Multiprecision.Proofs.Alternating
import Multiprecision.Proofs.Integer.Bits

/-!
# Multiprecision.Proofs.NumberTheory.Power

Powers by repeated squaring, over any exact arithmetic:

* `powerSteps_yields` — what the running result and the running square make
  up together stays the same, bit by bit from the low end;
* `power_yields` — so the result is the power;
* `powerModSteps_yields` — the running result is the power by the bits gone
  through, from the top;
* `powerMod_yields` — so the result is the power modulo the modulus;
* `powerModInto_exact` — and it is written over an integer, or that integer stays.
-/

namespace Multiprecision.NumberTheory

open Integer

variable {may : Endings} {A : Arithmetic} {i j : Int}

/-! ## Powers -/

/-- One bit of the exponent, with the steps that it takes side by side. -/
theorem powerSteps_of_ne_zero (A : Arithmetic) {e : Nat} (he : e ≠ 0)
    (result power : Alternating) :
    powerSteps A e result power =
      (if e % 2 = 1 then Alternating.orFail (result.mul A power.current) else pure result) >>=
        fun result =>
          (if 0 < e / 2 then Alternating.orFail (power.square A) else pure power) >>=
            powerSteps A (e / 2) result := by
  rw [powerSteps, if_neg he]
  dsimp only
  split <;> split <;> rfl

/-- The steps multiply the running result by that power of the running square. -/
theorem powerSteps_yields (hA : A.Exact may) (e : Nat) {result power : Alternating}
    (hr : result.current.Denotes i) (hp : power.current.Denotes j) :
    (powerSteps A e result power).Yields may (·.current.Denotes (i * j ^ e)) := by
  induction e using Nat.strong_induction_on generalizing result power i j with
  | _ e ih =>
    by_cases hzero : e = 0
    · rw [powerSteps, if_pos hzero, hzero, pow_zero, mul_one]
      exact hr
    · have hresult : (if e % 2 = 1 then Alternating.orFail (result.mul A power.current)
          else pure result : Outcome Alternating).Yields may
            (·.current.Denotes (i * j ^ (e % 2))) := by
        cases Nat.mod_two_eq_zero_or_one e with
        | inl heven =>
          rw [if_neg (by omega), heven, pow_zero, mul_one]
          exact hr
        | inr hodd =>
          rw [if_pos hodd, hodd, pow_one]
          exact Alternating.mul_yields hA hr hp
      have hpower : (if 0 < e / 2 then Alternating.orFail (power.square A)
          else pure power : Outcome Alternating).Yields may
            (·.current.Denotes (if 0 < e / 2 then j * j else j)) := by
        split
        · exact Alternating.square_yields hA hp
        · exact hp
      have hvalue : i * j ^ (e % 2) * (if 0 < e / 2 then j * j else j) ^ (e / 2) = i * j ^ e := by
        have hsplit : j ^ e = j ^ (e % 2) * (j * j) ^ (e / 2) := by
          rw [← pow_two, ← pow_mul, ← pow_add, Nat.mod_add_div]
        split
        · rw [hsplit, mul_assoc]
        · next hlast =>
          have hhalf : e / 2 = 0 := by omega
          rw [hsplit, hhalf, pow_zero, pow_zero, mul_one, mul_one]
      rw [powerSteps_of_ne_zero A hzero]
      refine hresult.bind fun result hr' => hpower.bind fun power hp' => ?_
      exact hvalue ▸ ih (e / 2) (by omega) hr' hp'

/-- The power is computed by multiplications. -/
def Multiplies (base : Integer) (e : UInt32) : Prop := e.toNat ≠ 0 ∧ 1 < base.bitLength

/-- The number of bits reserved for the power is no machine word. -/
def Overflows (base : Integer) (e : UInt32) : Prop :=
  Multiplies base e ∧ 2 ^ 64 ≤ base.bitLength * e.toNat

/-- A power with more bits than can be counted is refused. -/
theorem power_overflow {base : Integer} {e : UInt32} (h : Overflows base e) (A : Arithmetic) :
    power A base e = .failure (.overflow "usize") := by
  obtain ⟨⟨he, hbits⟩, hlarge⟩ := h
  have hsmall : ¬ base.bitLength ≤ 1 := not_le.mpr hbits
  have hlarge' : Nat.pow 2 64 ≤ base.bitLength * e.toNat := hlarge
  rw [power]
  simp only [if_neg he, if_neg hsmall, if_pos hlarge']
  rfl

/-- Powers of numbers that have at most one bit. -/
theorem pow_of_natAbs_le_one (hi : i.natAbs ≤ 1) {n : Nat} (hn : n ≠ 0) :
    i ^ n = if n % 2 = 0 then |i| else i := by
  obtain rfl | rfl | rfl : i = -1 ∨ i = 0 ∨ i = 1 := by omega
  · split
    · next heven => exact (Nat.even_iff.mpr heven).neg_one_pow
    · next hodd => exact (Nat.odd_iff.mpr (Nat.mod_two_ne_zero.mp hodd)).neg_one_pow
  · simp [zero_pow hn]
  · simp

/-- The power comes without reserved places. -/
theorem power_yields (hA : A.Exact may) {base : Integer} (hb : base.Denotes i) {e : UInt32}
    (h : ¬ Overflows base e) : (power A base e).Yields may (· = .ofInt (i ^ e.toNat)) := by
  rw [power]
  dsimp only
  split
  · next hzero =>
    rw [hzero, pow_zero]
    rfl
  · next hne =>
    split
    · next hsmall =>
      rw [hb.bitLength, Nat.size_le, pow_one] at hsmall
      rw [pow_of_natAbs_le_one (by omega) hne]
      split
      · exact hb.abs.trim_eq
      · exact hb.trim_eq
    · next hlarge =>
      split
      · next hover => exact absurd ⟨⟨hne, not_le.mp hlarge⟩, hover⟩ h
      · have hstart := Alternating.reserveBitsAfter_denotes (p := .ofInteger 1) denotes_one
          (onesCount e.toNat) (base.bitLength * e.toNat)
        have hbase : (Alternating.ofInteger base).current.Denotes i := hb
        refine (powerSteps_yields hA e.toNat hstart hbase).bind fun r hr => ?_
        rw [one_mul] at hr
        exact hr.trim_eq

/-! ## Powers modulo a number -/

variable {base exponent modulus : Integer} {b m : Int} {e : Nat}

/-- A square that is reduced, and perhaps a product that is reduced, go one
bit down the exponent. -/
theorem pow_shiftRight_step (b m : Int) (e n : Nat) :
    (if e.testBit n then (b ^ (e >>> (n + 1)) % m * (b ^ (e >>> (n + 1)) % m)) % m * b % m
      else (b ^ (e >>> (n + 1)) % m * (b ^ (e >>> (n + 1)) % m)) % m) = b ^ (e >>> n) % m := by
  have hsplit : e >>> n = 2 * (e >>> (n + 1)) + (e.testBit n).toNat := by
    have hbit : (e.testBit n).toNat = e >>> n % 2 := by
      rw [Nat.testBit, Nat.and_comm, Nat.and_one_is_mod]
      cases Nat.mod_two_eq_zero_or_one (e >>> n) with
      | inl h => rw [h]; rfl
      | inr h => rw [h]; rfl
    rw [hbit, Nat.shiftRight_succ]
    omega
  have hsquare : (b ^ (e >>> (n + 1)) % m * (b ^ (e >>> (n + 1)) % m)) % m =
      b ^ (2 * (e >>> (n + 1))) % m := by
    rw [← Int.mul_emod, ← pow_add, two_mul]
  rw [hsquare]
  cases hb : e.testBit n with
  | false =>
    rw [hb, Bool.toNat_false, Nat.add_zero] at hsplit
    rw [if_neg Bool.false_ne_true, ← hsplit]
  | true =>
    rw [hb, Bool.toNat_true] at hsplit
    rw [if_pos rfl, Int.mul_emod, Int.emod_emod_of_dvd _ dvd_rfl, ← Int.mul_emod, ← pow_succ,
      ← hsplit]

/-- From the remainder for the bits above the lowest `n` on, the steps reach that
for the whole exponent. -/
theorem powerModSteps_yields (hA : A.Exact may) (hb : base.Denotes b) (he : exponent.Denotes e)
    (hm : modulus.Denotes m) (hne : m ≠ 0) (n : Nat) {acc : Alternating}
    (hacc : acc.current.Denotes (b ^ (e >>> n) % m)) :
    (powerModSteps A base exponent modulus n acc).Yields may (·.current.Denotes (b ^ e % m)) := by
  induction n generalizing acc with
  | zero => exact hacc
  | succ n ih =>
    have hstep := pow_shiftRight_step b m e n
    have hbit := he.bit n
    rw [Int.natAbs_natCast] at hbit
    rw [powerModSteps]
    refine (Alternating.square_yields hA hacc).bind fun square hsquare => ?_
    refine (Alternating.rem_yields hA hsquare hm hne).bind fun reduced hreduced => ?_
    split
    · next hone =>
      rw [← hbit, if_pos hone] at hstep
      refine (Alternating.mul_yields hA hreduced hb).bind fun product hproduct => ?_
      refine (Alternating.rem_yields hA hproduct hm hne).bind fun acc hacc => ?_
      exact ih (hstep ▸ hacc)
    · next hzero =>
      rw [← hbit, if_neg hzero] at hstep
      exact ih (hstep ▸ hreduced)

/-- The arguments that a power modulo a number is defined for. -/
structure Reduced (b e m : Int) : Prop where
  modulus : 0 < m
  exponent : 0 ≤ e
  nonneg : 0 ≤ b
  lt : b < m

/-- The checks pass exactly for those arguments. -/
theorem reduced_iff {e : Int} (hb : base.Denotes b) (he : exponent.Denotes e)
    (hm : modulus.Denotes m) :
    Reduced b e m ↔ modulus.isPositive = true ∧ ¬ exponent.isNegative = true ∧
      ¬ (base.isNegative || base.compare modulus != .lt) = true := by
  have hcompare : (base.compare modulus != .lt) = true ↔ m ≤ b := by
    rw [hb.compare_eq hm, bne_iff_ne, ne_eq, compare_lt_iff_lt, not_lt]
  rw [hm.isPositive_iff, he.isNegative_iff, Bool.or_eq_true, hb.isNegative_iff, hcompare]
  constructor
  · rintro ⟨hm, he, hb, hlt⟩
    exact ⟨hm, by omega, by omega⟩
  · rintro ⟨hm, he, hb⟩
    exact ⟨hm, by omega, by omega, by omega⟩

/-- Arguments that are not reduced are refused, for any arithmetic. -/
theorem powerMod_invalid {e : Int} (hb : base.Denotes b) (he : exponent.Denotes e)
    (hm : modulus.Denotes m) (h : ¬ Reduced b e m) :
    ∃ reason, ∀ A, powerMod A base exponent modulus = .failure (.invalidArgument reason) := by
  rw [reduced_iff hb he hm] at h
  cases hmodulus : modulus.isPositive with
  | false => exact ⟨_, fun A => by rw [powerMod, hmodulus]; rfl⟩
  | true =>
    cases hexponent : exponent.isNegative with
    | true => exact ⟨_, fun A => by rw [powerMod, hmodulus, hexponent]; rfl⟩
    | false =>
      have hbase : (base.isNegative || base.compare modulus != .lt) = true := by
        by_contra hbase
        exact h ⟨hmodulus, by rw [hexponent]; exact Bool.false_ne_true, hbase⟩
      exact ⟨_, fun A => by rw [powerMod, hmodulus, hexponent, hbase]; rfl⟩

/-- The modular power of reduced arguments, over an exact arithmetic. -/
theorem powerMod_yields (hA : A.Exact may) (hb : base.Denotes b) (he : exponent.Denotes e)
    (hm : modulus.Denotes m) (h : Reduced b e m) :
    (powerMod A base exponent modulus).Yields may (·.Denotes (b ^ e % m)) := by
  obtain ⟨hmodulus, hexponent, hbase⟩ := (reduced_iff hb he hm).mp h
  have hsize : e >>> exponent.bitLength = 0 := by
    rw [he.bitLength, Int.natAbs_natCast, Nat.shiftRight_eq_div_pow]
    exact Nat.div_eq_of_lt (Nat.lt_size_self e)
  have hstart := Alternating.reserveBits_denotes (p := .ofInteger 1) denotes_one
    (2 * modulus.bitLength)
  rw [powerMod, hmodulus, if_neg hexponent, if_neg hbase]
  refine (Alternating.rem_yields hA hstart hm h.modulus.ne').bind fun one hone => ?_
  refine (powerModSteps_yields hA hb he hm h.modulus.ne' exponent.bitLength ?_).bind
    fun acc hacc => ?_
  · rwa [hsize, pow_zero]
  · exact hacc.compact

/-- The same written over any result. -/
theorem powerModInto_of_reduced {e : Int} (hA : A.Exact .returning) (hb : base.Denotes b)
    (he : exponent.Denotes e) (hm : modulus.Denotes m) (h : Reduced b e m) (result : Integer) :
    ∃ r, powerModInto A base exponent modulus result = (r, .value ()) ∧
      r.Denotes (b ^ e.toNat % m) := by
  have hreduced : Reduced b e.toNat m := ⟨h.modulus, Int.natCast_nonneg _, h.nonneg, h.lt⟩
  obtain ⟨r, hr, hvalue⟩ := Outcome.yields_returning.mp
    (powerMod_yields hA hb (he.toNat h.exponent) hm hreduced)
  exact ⟨r, by rw [powerModInto, hr]; rfl, hvalue⟩

/-- If the arguments are refused, the result stays as it was. -/
theorem powerModInto_of_not_reduced {e : Int} (hb : base.Denotes b) (he : exponent.Denotes e)
    (hm : modulus.Denotes m) (h : ¬ Reduced b e m) (A : Arithmetic) (result : Integer) :
    ∃ reason, powerModInto A base exponent modulus result =
      (result, .failure (.invalidArgument reason)) := by
  obtain ⟨reason, hreason⟩ := powerMod_invalid hb he hm h
  exact ⟨reason, by rw [powerModInto, hreason]; rfl⟩

/-- Where products and divisions are exact and return, a power modulo a number
is written over the result exactly for the arguments that it is defined for,
whatever the result held.  Any others are refused as invalid, and the result
stays as it is. -/
theorem powerModInto_exact {e : Int} (hA : A.Exact .returning) (hb : base.Denotes b)
    (he : exponent.Denotes e) (hm : modulus.Denotes m) (result : Integer) :
    ((powerModInto A base exponent modulus result).2 = .value () ↔ Reduced b e m) ∧
    (Reduced b e m →
      (powerModInto A base exponent modulus result).1.Denotes (b ^ e.toNat % m) ∧
        0 ≤ b ^ e.toNat % m ∧ b ^ e.toNat % m < m ∧ (m = 1 → b ^ e.toNat % m = 0)) ∧
    (¬ Reduced b e m → ∃ reason,
      powerModInto A base exponent modulus result =
        (result, .failure (.invalidArgument reason))) := by
  refine ⟨?_, fun h => ?_, fun h => powerModInto_of_not_reduced hb he hm h A result⟩
  · constructor
    · intro hvalue
      by_contra h
      obtain ⟨reason, hreason⟩ := powerModInto_of_not_reduced hb he hm h A result
      rw [hreason] at hvalue
      cases hvalue
    · intro h
      obtain ⟨r, hr, -⟩ := powerModInto_of_reduced hA hb he hm h result
      rw [hr]
  · obtain ⟨r, hr, hvalue⟩ := powerModInto_of_reduced hA hb he hm h result
    rw [hr]
    exact ⟨hvalue, Int.emod_nonneg _ h.modulus.ne', Int.emod_lt_of_pos _ h.modulus,
      fun hone => by rw [hone, Int.emod_one]⟩

/-- The exponent has reserved places, and what the result held is longer than the
power; then the base is not below the modulus. -/
theorem powerModInto_exact_reserved :
    Denotes ⟨false, [5, 0, 0]⟩ 5 ∧ Reduced 3 5 7 ∧
    powerModInto .ideal 3 ⟨false, [5, 0, 0]⟩ 7 ⟨true, [1, 2, 3]⟩ = (5, .value ()) ∧
    Denotes 5 (3 ^ 5 % 7) ∧ ¬ Reduced 7 5 7 ∧
    (powerModInto .ideal 7 ⟨false, [5, 0, 0]⟩ 7 ⟨true, [1, 2, 3]⟩).1 = ⟨true, [1, 2, 3]⟩ := by
  have he : Denotes ⟨false, [5, 0, 0]⟩ 5 := ⟨by simp [Canonical, Digits.base], by decide⟩
  have hthree : Denotes 3 3 := denotes_ofNat 3
  have hseven : Denotes 7 7 := denotes_ofNat 7
  have hdefined : Reduced 3 5 7 := ⟨by decide, by decide, by decide, by decide⟩
  have hlarge : ¬ Reduced 7 5 7 := fun h => absurd h.lt (by decide)
  obtain ⟨-, hpower, -⟩ := powerModInto_exact Arithmetic.ideal_exact hthree he hseven
    ⟨true, [1, 2, 3]⟩
  obtain ⟨-, -, hrefused⟩ := powerModInto_exact Arithmetic.ideal_exact hseven he hseven
    ⟨true, [1, 2, 3]⟩
  have hrun : powerModInto .ideal 3 ⟨false, [5, 0, 0]⟩ 7 ⟨true, [1, 2, 3]⟩ = (5, .value ()) := by
    decide +kernel
  have hvalue := (hpower hdefined).1
  rw [hrun] at hvalue
  obtain ⟨reason, hreason⟩ := hrefused hlarge
  exact ⟨he, hdefined, hrun, hvalue, hlarge, congrArg Prod.fst hreason⟩

end Multiprecision.NumberTheory
