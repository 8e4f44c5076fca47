import Mathlib
import Multiprecision.Quotient.Newton
import Multiprecision.Proofs.Integer.Bits
import Multiprecision.Proofs.Integer.Sum
import Multiprecision.Proofs.Product.Factors
import Multiprecision.Proofs.Quotient.Estimate

/-!
# Multiprecision.Proofs.Quotient.Newton

Division by a reciprocal is exact however good the reciprocal is:

* `reciprocal_yields` — what the Newton steps compute, with its truncations;
* `Candidate.Splits` — a candidate's quotient and remainder make up the
  dividend, which holds at first because the remainder is computed from the
  quotient;
* `Candidate.correct_yields` — a correction keeps this, and ends only with the
  remainder below the divisor.
-/

namespace Multiprecision.Quotient

open Integer

variable {may : Endings} {multiply : Multiplier} {d : Integer} {D : Nat}

/-! ## The reciprocal -/

/-- The value of `topBits`. -/
def topBitsOf (D bits precision : Nat) : Nat :=
  if precision ≤ bits then D / 2 ^ (bits - precision) else D * 2 ^ (precision - bits)

/-- The value of `newtonStep`. -/
def refinement (D bits : Nat) (x : Int) (source target : Nat) : Int :=
  let x := x * 2 ^ (target - source)
  x + (x * (2 ^ (2 * target) - topBitsOf D bits target * x)).tdiv (2 ^ (2 * target))

/-- The value of `newtonSteps`. -/
def refinements (D bits : Nat) : (precisions : List Nat) → (source : Nat) → Int → Int
  | [], _, x => x
  | target :: rest, source, x =>
    refinements D bits rest target (refinement D bits x source target)

/-- The top bits of the divisor, by its value. -/
theorem topBits_denotes (hd : d.Denotes D) (bits precision : Nat) :
    (topBits d bits precision).Denotes (topBitsOf D bits precision) := by
  rw [topBits, topBitsOf]
  split
  · exact hd.shiftRight_of_nonneg _
  · exact_mod_cast hd.shiftLeft (precision - bits)

/-- One step, by the values of the divisor and the approximation. -/
theorem newtonStep_yields (hm : multiply.ExactOn may fun _ => True) (hd : d.Denotes D)
    (bits : Nat) {x : Integer} {i : Int} (hx : x.Denotes i) (source target : Nat) :
    (newtonStep multiply d bits x source target).Yields may
      (·.Denotes (refinement D bits i source target)) := by
  have hscaled := hx.shiftLeft (target - source)
  rw [newtonStep]
  refine (hm.signed_pair (topBits_denotes hd bits target) hscaled trivial).bind fun p hp => ?_
  have herror := (denotes_setBit_zeros (2 * target + 1) (2 * target)).sub hp
  refine (hm.signed_pair hscaled herror trivial).bind fun p' hp' => ?_
  refine (hscaled.add (hp'.shiftRight (2 * target))).of_eq ?_
  rw [refinement, Nat.cast_pow, Nat.cast_ofNat]

/-- All steps, by those values. -/
theorem newtonSteps_yields (hm : multiply.ExactOn may fun _ => True) (hd : d.Denotes D)
    (bits : Nat) (precisions : List Nat) (source : Nat) {x : Integer} {i : Int}
    (hx : x.Denotes i) :
    (newtonSteps multiply d bits precisions source x).Yields may
      (·.Denotes (refinements D bits precisions source i)) := by
  induction precisions generalizing source x i with
  | nil => exact hx
  | cons target rest ih =>
    rw [newtonSteps]
    exact (newtonStep_yields hm hd bits hx source target).bind fun _ hy => ih target hy

/-- The value of `reciprocal`. -/
def reciprocalOf (D bits precision : Nat) : Int :=
  let first := min precision seedBits
  refinements D bits (schedule precision first ++ [precision]) first
    (2 ^ (2 * first) / topBitsOf D bits first : Nat)

/-- A divisor other than zero has top bits to divide by. -/
theorem topBitsOf_pos {bits precision : Nat} (hbits : 2 ^ (bits - 1) ≤ D) (hone : 1 ≤ precision) :
    0 < topBitsOf D bits precision := by
  have hpos : 0 < D := (Nat.two_pow_pos _).trans_le hbits
  rw [topBitsOf]
  split
  · refine Nat.div_pos ((Nat.pow_le_pow_right two_pos ?_).trans hbits) (Nat.two_pow_pos _)
    omega
  · exact Nat.mul_pos hpos (Nat.two_pow_pos _)

/-- The approximate reciprocal, by the value of the divisor. -/
theorem reciprocal_yields (hm : multiply.ExactOn may fun _ => True) (hd : d.Denotes D)
    {bits precision : Nat} (hbits : 2 ^ (bits - 1) ≤ D) (hone : 1 ≤ precision) :
    (reciprocal multiply d bits precision).Yields may
      (·.Denotes (reciprocalOf D bits precision)) := by
  have htop : 0 < topBitsOf D bits (min precision seedBits) :=
    topBitsOf_pos hbits (le_min hone (by decide))
  refine (long_yields
    (denotes_setBit_zeros (2 * min precision seedBits + 1) (2 * min precision seedBits))
    (topBits_denotes hd bits (min precision seedBits)) (by exact_mod_cast htop.ne')).bind ?_
  rintro ⟨seed, _⟩ ⟨hseed, _⟩
  exact newtonSteps_yields hm hd bits _ _ hseed

/-! ## Correction -/

namespace Candidate

variable {c : Candidate} {N q r : Int}

/-- The quotient `q` and the remainder `r` of the candidate make up `N`. -/
structure Splits (N : Int) (D : Nat) (c : Candidate) (q r : Int) : Prop where
  quotient : c.quotient.Denotes q
  remainder : c.remainder.Denotes r
  sum : q * D + r = N

/-- One divisor more in the remainder is one less in the quotient. -/
theorem Splits.lower_step (h : Splits N D c q r) (hd : d.Denotes D) (n : Nat) :
    Splits N D ⟨c.quotient.sub 1, c.remainder.add d, n⟩ (q - 1) (r + D) :=
  ⟨h.quotient.sub denotes_one, h.remainder.add hd, by linarith [h.sum]⟩

/-- One divisor less in the remainder is one more in the quotient. -/
theorem Splits.raise_step (h : Splits N D c q r) (hd : d.Denotes D) (n : Nat) :
    Splits N D ⟨c.quotient.add 1, c.remainder.sub d, n⟩ (q + 1) (r - D) :=
  ⟨h.quotient.add denotes_one, h.remainder.sub hd, by linarith [h.sum]⟩

/-- A candidate whose remainder is below the divisor is the exact one. -/
theorem Splits.exact (h : Splits N D c q r) (hr : 0 ≤ r) (hlt : r < D) :
    c.quotient.Denotes (N / D) ∧ c.remainder.Denotes (N % D) := by
  have hsum : r + D * q = N := by rw [← h.sum, add_comm, mul_comm]
  obtain ⟨hquotient, hremainder⟩ := (Int.ediv_emod_unique (hr.trans_lt hlt)).mpr ⟨hsum, hr, hlt⟩
  rw [hquotient, hremainder]
  exact ⟨h.quotient, h.remainder⟩

/-- Lowering ends with a remainder that is not negative, if it ends. -/
theorem lower_yields (hexhaust : may.exhaust) (hd : d.Denotes D) (budget : Nat)
    (h : Splits N D c q r) :
    (c.lower d budget).Yields may fun c' => ∃ q' r', Splits N D c' q' r' ∧ 0 ≤ r' := by
  induction budget generalizing c q r with
  | zero =>
    rw [lower]
    split
    · exact hexhaust
    · next hnonneg =>
      rw [h.remainder.isNegative_iff, not_lt] at hnonneg
      exact ⟨q, r, h, hnonneg⟩
  | succ budget ih =>
    rw [lower]
    split
    · exact ih (h.lower_step hd _)
    · next hnonneg =>
      rw [h.remainder.isNegative_iff, not_lt] at hnonneg
      exact ⟨q, r, h, hnonneg⟩

/-- Raising ends with a remainder below the divisor, if it ends. -/
theorem raise_yields (hexhaust : may.exhaust) (hd : d.Denotes D) (budget : Nat)
    (h : Splits N D c q r) (hr : 0 ≤ r) :
    (c.raise d budget).Yields may fun c' => ∃ q' r', Splits N D c' q' r' ∧ 0 ≤ r' ∧ r' < D := by
  have hdone {c : Candidate} {q r : Int} (h : Splits N D c q r) (hr : 0 ≤ r)
      (hlt : c.remainder.below d = true) : r < D := by
    rw [h.remainder.below_iff hd] at hlt
    omega
  induction budget generalizing c q r with
  | zero =>
    rw [raise]
    split
    · next hlt => exact ⟨q, r, h, hr, hdone h hr hlt⟩
    · exact hexhaust
  | succ budget ih =>
    rw [raise]
    split
    · next hlt => exact ⟨q, r, h, hr, hdone h hr hlt⟩
    · next hge =>
      rw [h.remainder.below_iff hd] at hge
      exact ih (h.raise_step hd _) (by omega)

/-- A correction that ends has found the quotient and the remainder. -/
theorem correct_yields (hexhaust : may.exhaust) (hd : d.Denotes D) (budget : Nat)
    (h : Splits N D c q r) :
    (c.correct d budget).Yields may fun c' =>
      c'.quotient.Denotes (N / D) ∧ c'.remainder.Denotes (N % D) := by
  refine (lower_yields hexhaust hd budget h).bind fun c' ⟨q', r', h', hr'⟩ => ?_
  exact (raise_yields hexhaust hd budget h' hr').mono fun c'' ⟨q'', r'', h'', hr'', hlt⟩ =>
    h''.exact hr'' hlt

end Candidate

/-! ## Division -/

variable {dividend divisor : Integer} {i j : Int}

/-- The value of the quotient of `byReciprocal`. -/
def quotientOf (N D : Nat) : Int :=
  let precision := N.size - D.size + 2 * guardBits
  (N * reciprocalOf D D.size precision).tdiv (2 ^ (precision + D.size))

/-- The quotient of the reciprocal comes with its own remainder. -/
theorem byReciprocal_yields (hm : multiply.ExactOn may fun _ => True) {N : Nat}
    (hn : dividend.Denotes N) (hd : d.Denotes D) (hD : D ≠ 0) :
    (byReciprocal multiply dividend d).Yields may fun c =>
      c.corrections = 0 ∧ ∃ r, Candidate.Splits N D c (quotientOf N D) r := by
  have hnsize : dividend.bitLength = N.size := by rw [hn.bitLength, Int.natAbs_natCast]
  have hdsize : d.bitLength = D.size := by rw [hd.bitLength, Int.natAbs_natCast]
  have hbits : 2 ^ (D.size - 1) ≤ D := by
    rw [← Nat.lt_size]
    exact Nat.sub_lt (Nat.size_pos.mpr (Nat.pos_of_ne_zero hD)) one_pos
  rw [byReciprocal]
  simp only [hnsize, hdsize]
  refine (reciprocal_yields hm hd hbits (by simp [guardBits])).bind fun x hx => ?_
  refine (hm.signed_pair hn hx trivial).bind fun product hproduct => ?_
  have hquotient := hproduct.shiftRight (N.size - D.size + 2 * guardBits + D.size)
  refine (hm.signed_pair hquotient hd trivial).bind fun multiple hmultiple => ?_
  exact ⟨rfl, _, hquotient, hmultiple.subFrom hn, by rw [quotientOf]; ring⟩

/-- What is left is to correct the quotient of the reciprocal, for a dividend
above the divisor. -/
theorem newton_of_correct {budget : Nat} (ha : dividend.Denotes i) (hb : divisor.Denotes j)
    (hj : j ≠ 0)
    (hcorrect : j.natAbs < i.natAbs →
      (byReciprocal multiply dividend.abs divisor.abs.trim >>=
        fun c => c.correct divisor.abs.trim budget).Yields may fun c =>
          c.quotient.Denotes (i.natAbs / j.natAbs : Nat) ∧
            c.remainder.Denotes (i.natAbs % j.natAbs : Nat))
    (into : Integer) :
    (newton multiply budget dividend divisor into).Yields may fun (q, r) =>
      Denotes q (i.natAbs / j.natAbs : Nat) ∧ Denotes r (i.natAbs % j.natAbs : Nat) := by
  have hn := ha.abs_natAbs
  have hd := hb.abs_natAbs.trim
  rw [newton]
  simp only [hn.compareMagnitude_eq hd, Int.natAbs_natCast]
  split
  · next hlt =>
    rw [Nat.compare_eq_lt] at hlt
    rw [Nat.div_eq_of_lt hlt, Nat.mod_eq_of_lt hlt]
    exact ⟨denotes_cleared _, hn.compact⟩
  · next heq =>
    rw [Nat.compare_eq_eq] at heq
    rw [heq, Nat.div_self (Int.natAbs_pos.mpr hj), Nat.mod_self]
    exact ⟨denotes_setSmall _ 1, denotes_cleared into⟩
  · next hgt =>
    rw [← bind_assoc]
    exact (hcorrect (Nat.compare_eq_gt.mp hgt)).bind fun c hc => ⟨hc.1.compact, hc.2.compact⟩

/-- Division by a reciprocal is exact on magnitudes. -/
theorem newton_yields (hexhaust : may.exhaust)
    (hm : multiply.ExactOn may fun _ => True) (budget : Nat) (ha : dividend.Denotes i)
    (hb : divisor.Denotes j) (hj : j ≠ 0) (into : Integer) :
    (newton multiply budget dividend divisor into).Yields may fun (q, r) =>
      Denotes q (i.natAbs / j.natAbs : Nat) ∧ Denotes r (i.natAbs % j.natAbs : Nat) := by
  have hd := hb.abs_natAbs.trim
  refine newton_of_correct ha hb hj (fun _ => ?_) into
  refine (byReciprocal_yields hm ha.abs_natAbs hd (Int.natAbs_ne_zero.mpr hj)).bind fun c hc => ?_
  obtain ⟨-, r, hsplits⟩ := hc
  exact Candidate.correct_yields hexhaust hd budget hsplits

end Multiprecision.Quotient
