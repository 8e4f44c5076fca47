import Mathlib
import Multiprecision.Proofs.Integer.Shift
import Multiprecision.Proofs.NumberTheory.Power

/-!
# Multiprecision.Proofs.NumberTheory.Reservation

The storage of a power.  The running result changes its buffer only where the
exponent has a one, so the buffer that will hold the power is known before the
first product:

* `powerSteps_turns` — the buffers take turns as often as there are ones among
  the bits of the exponent;
* `natAbs_pow_lt` — a power has no more bits than are reserved for it;
* `power_exact` — so the buffer that is opened up front is the one that ends up
  with the power, and the power fits its places.
-/

namespace Multiprecision.NumberTheory

open Integer

variable {A : Arithmetic} {base : Integer} {i : Int}

/-! ## Turns -/

theorem onesCount_zero : onesCount 0 = 0 := by
  rw [onesCount, if_pos rfl]

theorem onesCount_of_ne_zero {e : Nat} (he : e ≠ 0) :
    onesCount e = e % 2 + onesCount (e / 2) := by
  rw [onesCount, if_neg he]

/-- The turns of a sum. -/
theorem odd_add (m n : Nat) : ((m + n) % 2 == 1) = ((m % 2 == 1) != (n % 2 == 1)) := by
  have hm := Nat.mod_two_eq_zero_or_one m
  have hn := Nat.mod_two_eq_zero_or_one n
  rcases hm with hm | hm <;> rcases hn with hn | hn <;> simp [Nat.add_mod, hm, hn]

/-- The running result changes its buffer as often as there are ones among the
bits of the exponent. -/
theorem powerSteps_turns (A : Arithmetic) (e : Nat) (result power : Alternating) :
    (powerSteps A e result power).Yields .any
      (·.swapped = (result.swapped != (onesCount e % 2 == 1))) := by
  induction e using Nat.strong_induction_on generalizing result power with
  | _ e ih =>
    by_cases hzero : e = 0
    · rw [powerSteps, if_pos hzero, hzero, onesCount_zero]
      simp
    · have hresult : (if e % 2 = 1 then Alternating.orFail (result.mul A power.current)
          else pure result : Outcome Alternating).Yields .any
            (·.swapped = (result.swapped != (e % 2 == 1))) := by
        split
        · next hodd => simpa [hodd] using Alternating.mul_turns A result power.current
        · next heven => simp [Nat.mod_two_ne_one.mp heven]
      rw [powerSteps_of_ne_zero A hzero, onesCount_of_ne_zero hzero, odd_add, Nat.mod_mod,
        ← Bool.bne_assoc]
      refine hresult.bind fun result' hturn => ?_
      refine (Outcome.yields_any _).bind fun power' _ => ?_
      rw [← hturn]
      exact ih (e / 2) (by omega) result' power'

/-! ## Storage -/

/-- A power has at most as many bits as its base for each factor. -/
theorem natAbs_pow_lt (i : Int) {n : Nat} (hn : n ≠ 0) :
    (i ^ n).natAbs < 2 ^ (i.natAbs.size * n) := by
  rw [Int.natAbs_pow, pow_mul]
  exact Nat.pow_lt_pow_left (Nat.lt_size_self _) hn

/-- The buffers that the running result starts from. -/
def opened (base : Integer) (n : Nat) : Alternating :=
  (Alternating.ofInteger 1).reserveBitsAfter (onesCount n) (base.bitLength * n)

/-- The running result starts from one, whatever places are open. -/
theorem opened_denotes (base : Integer) (n : Nat) : (opened base n).current.Denotes 1 :=
  Alternating.reserveBitsAfter_denotes (p := .ofInteger 1) denotes_one _ _

/-- A power that is computed by multiplications, with the buffers they use. -/
theorem power_eq_powerSteps {e : UInt32} (h : Multiplies base e)
    (hfits : base.bitLength * e.toNat < 2 ^ 64) (A : Arithmetic) :
    power A base e = powerSteps A e.toNat (opened base e.toNat) (.ofInteger base) >>=
      fun p => .value p.current.trim := by
  have hsmall : ¬ base.bitLength ≤ 1 := not_le.mpr h.2
  have hfits' : ¬ Nat.pow 2 64 ≤ base.bitLength * e.toNat := not_le.mpr hfits
  rw [power]
  simp only [if_neg h.1, if_neg hsmall, if_neg hfits']
  rfl

/-- A power is multiplied out unless its exponent is zero or its base one of -1,
0 and 1. -/
theorem multiplies_iff (hb : base.Denotes i) (e : UInt32) :
    Multiplies base e ↔ e ≠ 0 ∧ 1 < |i| := by
  rw [Multiplies, hb.bitLength, Nat.lt_size, ne_eq, ne_eq, ← UInt32.toNat_inj, UInt32.toNat_zero,
    Int.abs_eq_natAbs]
  omega

/-- Without reserved places there are as many places as digits. -/
theorem capacity_ofInt (j : Int) : (ofInt j).capacity = (ofInt j).digitCount := by
  rw [← length_significant, (denotes_ofInt j).significant_eq]
  rfl

/-- Where products are exact and return, a power whose reservation fits a machine
word is computed, without reserved places.  If the magnitude of the base is above
one and there is anything to multiply, places for the bits of the base times the
exponent are opened in one of the two buffers.  That is the one which the power
ends up in, and the power fits them.  A reservation that fits no machine word is an
error. -/
theorem power_exact (hA : A.Exact .returning) (hb : base.Denotes i) (e : UInt32) :
    (base.bitLength * e.toNat < 2 ^ 64 → ∃ r, power A base e = .value r ∧
      r.Denotes (i ^ e.toNat) ∧ r.capacity = r.digitCount) ∧
    (1 < |i| → 2 ^ 64 ≤ base.bitLength * e.toNat →
      power A base e = .failure (.overflow "usize")) ∧
    (1 < |i| → e ≠ 0 → base.bitLength * e.toNat < 2 ^ 64 → ∃ p,
      powerSteps A e.toNat (opened base e.toNat) (.ofInteger base) = .value p ∧
      power A base e = .value (p.buffer p.swapped).trim ∧
      (∀ second, (opened base e.toNat).buffer second =
        if second = p.swapped then
          ((Alternating.ofInteger 1).buffer second).reserveBits (base.bitLength * e.toNat)
        else (Alternating.ofInteger 1).buffer second) ∧
      (i ^ e.toNat).natAbs < 2 ^ (base.bitLength * e.toNat) ∧
      (p.buffer p.swapped).digitCount ≤ ((opened base e.toNat).buffer p.swapped).capacity) := by
  refine ⟨fun hfits => ?_, fun hlarge hover => ?_, fun hlarge hne hfits => ?_⟩
  · have hover : ¬ Overflows base e := fun h => absurd h.2 (not_le.mpr hfits)
    obtain ⟨r, hr, heq⟩ := Outcome.yields_returning.mp (power_yields hA hb hover)
    rw [heq] at hr
    exact ⟨_, hr, denotes_ofInt _, capacity_ofInt _⟩
  · have hne : e ≠ 0 := by
      rintro rfl
      simp at hover
    exact power_overflow ⟨(multiplies_iff hb e).mpr ⟨hne, hlarge⟩, hover⟩ A
  · have hmultiplies := (multiplies_iff hb e).mpr ⟨hne, hlarge⟩
    have hpower : (Alternating.ofInteger base).current.Denotes i := hb
    obtain ⟨p, hp, hvalue⟩ := Outcome.yields_returning.mp
      (powerSteps_yields hA e.toNat (opened_denotes base e.toNat) hpower)
    have hturn := (powerSteps_turns A e.toNat (opened base e.toNat) (.ofInteger base)).of_value hp
    have hopened (second : Bool) : (opened base e.toNat).buffer second =
        if second = p.swapped then
          ((Alternating.ofInteger 1).buffer second).reserveBits (base.bitLength * e.toNat)
        else (Alternating.ofInteger 1).buffer second := by
      rw [hturn, opened, Alternating.swapped_reserveBitsAfter]
      exact Alternating.buffer_reserveBitsAfter _ _ _ second
    have hsize := natAbs_pow_lt i hmultiplies.1
    rw [← hb.bitLength] at hsize
    rw [one_mul] at hvalue
    refine ⟨p, hp, ?_, hopened, hsize, ?_⟩
    · rw [power_eq_powerSteps hmultiplies hfits, hp, Alternating.buffer_swapped]
      rfl
    · rw [hopened, if_pos rfl, Alternating.buffer_swapped]
      exact hvalue.digitCount_le_reserveBits hsize _

/-- The exponent five has two ones, so the power ends in the buffer that it
started in.  A base of more than `2^33` bits is too long for the largest exponent. -/
theorem power_exact_minus_three :
    Denotes ⟨true, [3, 0]⟩ (-3) ∧ Denotes ⟨true, [243]⟩ ((-3) ^ 5) ∧
    power .ideal ⟨true, [3, 0]⟩ 5 = .value ⟨true, [243]⟩ ∧
    (opened ⟨true, [3, 0]⟩ 5).buffer false = (1 : Integer).reserveBits 10 ∧
    (opened ⟨true, [3, 0]⟩ 5).buffer true = .zero ∧
    powerSteps .ideal 5 (opened ⟨true, [3, 0]⟩ 5) (.ofInteger ⟨true, [3, 0]⟩) =
      .value { first := ⟨true, [243]⟩, second := ⟨true, [3]⟩, swapped := false } ∧
    power .ideal (Integer.shiftLeft 1 (2 ^ 33)) 4294967295 = .failure (.overflow "usize") := by
  have hb : Denotes ⟨true, [3, 0]⟩ (-3) :=
    ⟨by simp [Canonical, Digits.base, Digits.isZero], by decide⟩
  have hrun : power .ideal ⟨true, [3, 0]⟩ 5 = .value ⟨true, [243]⟩ := by decide +kernel
  have hsteps : powerSteps .ideal 5 (opened ⟨true, [3, 0]⟩ 5) (.ofInteger ⟨true, [3, 0]⟩) =
      .value { first := ⟨true, [243]⟩, second := ⟨true, [3]⟩, swapped := false } := by
    decide +kernel
  -- the exponent of the base stays a variable, since its power is never computed
  have hover (n : Nat) (hn : 2 ^ 33 ≤ n) :
      power .ideal (Integer.shiftLeft 1 n) 4294967295 = .failure (.overflow "usize") := by
    have hlong : (Integer.shiftLeft 1 n).Denotes (2 ^ n) :=
      (denotes_one.shiftLeft n).of_eq (one_mul _)
    have hbits : (Integer.shiftLeft 1 n).bitLength = n + 1 := by
      rw [hlong.bitLength, Int.natAbs_pow, show (2 : Int).natAbs = 2 from rfl, Nat.size_pow]
    obtain ⟨-, hoverflow, -⟩ := power_exact Arithmetic.ideal_exact hlong 4294967295
    refine hoverflow ?_ ?_
    · rw [abs_of_pos (by positivity)]
      exact one_lt_pow₀ (by decide) (by omega)
    · rw [hbits, show (4294967295 : UInt32).toNat = 4294967295 from rfl]
      omega
  obtain ⟨hvalue, -, hbuffers⟩ := power_exact Arithmetic.ideal_exact hb 5
  obtain ⟨r, hr, hdenotes, -⟩ := hvalue (by decide)
  obtain rfl := Outcome.value.inj (hrun.symm.trans hr)
  obtain ⟨p, hp, -, hopened, -⟩ := hbuffers (by decide) (by decide) (by decide)
  obtain rfl := Outcome.value.inj (hsteps.symm.trans hp)
  exact ⟨hb, hdenotes, hrun, hopened false, hopened true, hsteps, hover _ le_rfl⟩

end Multiprecision.NumberTheory
