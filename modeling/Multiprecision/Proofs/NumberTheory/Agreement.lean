import Mathlib
import Multiprecision.Proofs.Integer.Decimal
import Multiprecision.Proofs.Integer.Hexadecimal
import Multiprecision.Proofs.NumberTheory.Bezout
import Multiprecision.Proofs.NumberTheory.Primality
import Multiprecision.Proofs.Outcome.Agreement

/-!
# Multiprecision.Proofs.NumberTheory.Agreement

Algorithms over two exact arithmetics side by side.  Each fails where the
other does, with the same error, or has a result of the same value
(`Integer.Same`):

* `Exact.product_agree`, `Exact.divMod_agree` — what an exact arithmetic does
  is known but for the storage it leaves behind;
* `power_agree`, `powerMod_agree`, `gcd_agree`, `inverse_agree` — so that is
  all that algorithms may differ in;
* `isPrime_agree` — the test for primes draws the same bytes and gives the same
  answer.

Runs that stop in a machine word or run out of budget are left out.
-/

namespace Multiprecision

open Outcome

namespace Integer

/-- Canonical integers of the same value, whatever is in storage. -/
def Same (x y : Integer) : Prop := ∃ i, x.Denotes i ∧ y.Denotes i

variable {x y : Integer}

/-- Equal values have the same decimal numeral. -/
theorem Same.toDecimal (h : Same x y) : x.toDecimal = y.toDecimal := by
  obtain ⟨i, hx, hy⟩ := h
  exact hx.toDecimal_eq hy

/-- Equal values have the same hexadecimal numeral. -/
theorem Same.toHex (h : Same x y) : x.toHex = y.toHex := by
  obtain ⟨i, hx, hy⟩ := h
  exact hx.toHex_eq hy

/-- Results of the same value. -/
theorem agree_of_denotes {may : Endings} {i : Int} {o o' : Outcome Integer}
    (h : o.Yields may (·.Denotes i)) (h' : o'.Yields may (·.Denotes i)) : Agree may Same o o' :=
  (Agree.of_yields h h').mono fun _ _ hboth => ⟨i, hboth⟩

end Integer

open Integer

variable {may : Endings} {A B : Arithmetic} {x y m : Integer}

/-! ## Single operations -/

namespace Arithmetic

/-- Products are the same over exact arithmetics. -/
theorem Exact.product_agree (hA : A.Exact may) (hB : B.Exact may) (hx : x.Canonical)
    (hy : y.Canonical) : Agree may Same (A.product x y) (B.product x y) :=
  agree_of_denotes (hA.product hx.denotes hy.denotes) (hB.product hx.denotes hy.denotes)

theorem Exact.square_agree (hA : A.Exact may) (hB : B.Exact may) (hx : x.Canonical) :
    Agree may Same (A.square x) (B.square x) :=
  agree_of_denotes (hA.square hx.denotes) (hB.square hx.denotes)

/-- Quotients and remainders are the same over exact arithmetics, and so is a
division by zero. -/
theorem Exact.divMod_agree (hA : A.Exact may) (hB : B.Exact may) (hx : x.Canonical)
    (hy : y.Canonical) :
    Agree may (fun (q, r) (q', r') => Same q q' ∧ Same r r') (A.divMod x y) (B.divMod x y) := by
  cases hzero : y.isZero with
  | true =>
    rw [Arithmetic.divMod, Arithmetic.divMod, hA.divide_zero hzero, hB.divide_zero hzero]
    exact .failure _
  | false =>
    have hne := hy.denotes.isZero_eq_false_iff.mp hzero
    refine (Agree.of_yields (hA.divMod hx.denotes hy.denotes hne)
      (hB.divMod hx.denotes hy.denotes hne)).mono ?_
    rintro ⟨q, r⟩ ⟨q', r'⟩ ⟨⟨hq, hr⟩, hq', hr'⟩
    exact ⟨⟨_, hq, hq'⟩, _, hr, hr'⟩

end Arithmetic

namespace NumberTheory

/-! ## Powers -/

/-- Powers are the same over exact arithmetics, overflows included. -/
theorem power_agree (hA : A.Exact may) (hB : B.Exact may) (hx : x.Canonical) (e : UInt32) :
    Agree may Same (power A x e) (power B x e) := by
  by_cases hover : Overflows x e
  · rw [power_overflow hover, power_overflow hover]
    exact .failure _
  · have hdenotes {r : Integer} (hr : r = .ofInt (x.toInt ^ e.toNat)) :
        r.Denotes (x.toInt ^ e.toNat) := hr ▸ denotes_ofInt _
    exact agree_of_denotes ((power_yields hA hx.denotes hover).mono fun _ => hdenotes)
      ((power_yields hB hx.denotes hover).mono fun _ => hdenotes)

/-- Modular powers are the same, invalid arguments included. -/
theorem powerMod_agree (hA : A.Exact may) (hB : B.Exact may) (hx : x.Canonical)
    (hy : y.Canonical) (hm : m.Canonical) :
    Agree may Same (powerMod A x y m) (powerMod B x y m) := by
  by_cases h : Reduced x.toInt y.toInt m.toInt
  · have hexponent := hy.denotes.toNat h.exponent
    rw [← Int.toNat_of_nonneg h.exponent] at h
    exact agree_of_denotes (powerMod_yields hA hx.denotes hexponent hm.denotes h)
      (powerMod_yields hB hx.denotes hexponent hm.denotes h)
  · obtain ⟨reason, hfail⟩ := powerMod_invalid hx.denotes hy.denotes hm.denotes h
    rw [hfail, hfail]
    exact .failure _

/-! ## Euclid's algorithm -/

/-- Greatest common divisors are the same over exact arithmetics. -/
theorem gcd_agree (hA : A.Exact may) (hB : B.Exact may) (hx : x.Canonical)
    (hy : y.Canonical) : Agree may Same (gcd A x y) (gcd B x y) :=
  agree_of_denotes (gcd_yields hA hx.denotes hy.denotes) (gcd_yields hB hx.denotes hy.denotes)

/-- The coefficients may differ, but not what they are modulo the modulus. -/
theorem inverse_agree (hA : A.Exact may) (hB : B.Exact may) (hx : x.Canonical)
    (hm : m.Canonical) : Agree may Same (inverse A x m) (inverse B x m) := by
  by_cases hpos : 0 < m.toInt
  · have hmodulus : m.isPositive = true := hm.denotes.isPositive_iff.mpr hpos
    rw [inverse, inverse, hmodulus]
    refine (Agree.of_yields (bezout_yields hA hx.denotes hm.denotes)
      (bezout_yields hB hx.denotes hm.denotes)).bind ?_
    rintro z z' ⟨⟨u, v, hu, -, hg, hsum⟩, ⟨u', v', hu', -, hg', hsum'⟩⟩
    cases hone : z.gcd.isOne with
    | false =>
      have hone' : z'.gcd.isOne = false := by
        rw [← hone, Bool.eq_iff_iff, hg.isOne_iff, hg'.isOne_iff]
      rw [hone']
      exact .failure _
    | true =>
      have hone' : z'.gcd.isOne = true := by
        rw [← hone, Bool.eq_iff_iff, hg.isOne_iff, hg'.isOne_iff]
      rw [hone']
      rw [hg.isOne_iff] at hone
      rw [hone] at hsum hsum'
      have hunique := (isInverse_coefficient hpos hsum).unique (isInverse_coefficient hpos hsum')
      exact agree_of_denotes (hA.rem hu hm.denotes hpos.ne')
        (hunique ▸ hB.rem hu' hm.denotes hpos.ne')
  · obtain ⟨reason, hfail⟩ := inverse_invalid hm.denotes hpos x
    rw [hfail, hfail]
    exact .failure _

/-! ## Primes -/

variable {σ : Type} [ByteSource σ]

/-- Both runs draw the same witnesses, and each round ends alike. -/
theorem millerRabin_agree (hA : A.Exact may) (hB : B.Exact may) (hexhaust : may.exhaust)
    {n d : Nat} (hm : m.Denotes n) (hn : 2 < n)
    (hd : ((m.sub 1).shiftRight (m.sub 1).countTrailingZeros).Denotes d)
    (htwos : 0 < (m.sub 1).countTrailingZeros) (attempts rounds : Nat) (s : σ) :
    Agree may Eq ((millerRabin A attempts m rounds).run s)
      ((millerRabin B attempts m rounds).run s) := by
  induction rounds generalizing s with
  | zero => exact .rfl
  | succ rounds ih =>
    rw [millerRabin_succ_run, millerRabin_succ_run]
    refine (Agree.rfl_of_yields (witness_yields hexhaust hm (by omega) attempts attempts s)).bind ?_
    rintro ⟨w, s'⟩ _ ⟨rfl, ⟨hw, hpos, hlt⟩, -⟩
    have hminus : (m.sub 1).Denotes (n - 1 : Int) := hm.sub denotes_one
    refine (Agree.of_yields
      (passes_yields hA hm (by omega) hminus hd htwos hw.denotes hpos.le hlt)
      (passes_yields hB hm (by omega) hminus hd htwos hw.denotes hpos.le hlt)).bind ?_
    rintro b b' ⟨hb, hb'⟩
    have heq : b = b' := Bool.eq_iff_iff.mpr (hb.trans hb'.symm)
    subst heq
    cases b with
    | true => exact ih s'
    | false => exact .rfl

/-- The test for primes says the same and takes the same bytes, if a run may be
exhausted. -/
theorem isPrime_agree (hA : A.Exact may) (hB : B.Exact may) (hexhaust : may.exhaust)
    (hx : x.Canonical) (p : Float) (attempts : Nat) (s : σ) :
    Agree may Eq ((isPrime A attempts x p).run s) ((isPrime B attempts x p).run s) := by
  by_cases h : Testable x.toInt p
  · have hnat := hx.denotes.toNat h.positive.le
    rw [isPrime_run A attempts hx.denotes h, isPrime_run B attempts hx.denotes h]
    split
    · exact .rfl
    · split
      · exact .rfl
      · next hodd =>
        split
        · exact .rfl
        · next hlarge =>
          rw [hnat.isEven_iff] at hodd
          rw [hnat.bitLength, Int.natAbs_natCast, Nat.size_le, not_lt] at hlarge
          have hsize : 2 ^ 20 ≤ x.toInt.toNat := hlarge
          obtain ⟨d, hd, -, -, htwos⟩ := minusOne_split hnat (by omega) (by omega)
          exact millerRabin_agree hA hB hexhaust hnat (by omega) hd htwos attempts _ s
  · obtain ⟨reason, hfail⟩ := isPrime_invalid (σ := σ) hx.denotes h
    rw [hfail, hfail]
    exact .failure _

end NumberTheory

end Multiprecision
