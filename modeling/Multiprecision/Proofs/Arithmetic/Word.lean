import Mathlib
import Multiprecision.Registers
import Multiprecision.Proofs.Arithmetic
import Multiprecision.Proofs.Integer.Word
import Multiprecision.Proofs.Product.Descent

/-!
# Multiprecision.Proofs.Arithmetic.Word

Operations with a machine word beside those with an integer made from it:

* `MultipliesTo`, `DividesTo` — what the general operations give, under any
  thresholds;
* `Denotes.multipliesTo`, `Denotes.dividesTo` — they give the exact product and
  the Euclidean quotient and remainder;
* `remWord_eq`, `Denotes.modWord` — a remainder without its quotient is the one
  that a division leaves;
* `word_operations_agree` — so one pass over the digits gives the same.
-/

namespace Multiprecision

open Outcome

/-! ## General operations -/

/-- A division below Newton's threshold asks for no product. -/
theorem Quotient.divide_short {t : Thresholds} {a : Integer} (h : a.bitLength < t.newton)
    (multiply : Multiplier) (budget : Nat) (b into : Integer) :
    divide t multiply budget a b into = divide t ideal 1 a b into := by
  rw [divide, divide, magnitudes, magnitudes, if_pos h, if_pos h]

namespace Integer

open Arithmetic

variable {x : Integer} {i j : Int}

/-- The products of `x` by the integer `j` have the value `k`, whatever the
thresholds.  They end under valid thresholds, if transforms with 128 parts begin
above 128 bits, and below all transforms. -/
structure MultipliesTo (x : Integer) (j k : Int) : Prop where
  value (t : Thresholds) (depth : Nat) (into : Integer) :
    ((ofThresholds t depth).mul (.pair x (.ofInt j)) into).Yields .unfailing (·.toInt = k)
  ends (t : Thresholds) (depth : Nat) (into : Integer) :
    t.isValid = true → 128 < t.transform128 → (Factors.pair x (.ofInt j)).largest < depth →
      ((ofThresholds t depth).mul (.pair x (.ofInt j)) into).Yields .abortOnly (·.toInt = k)
  returns (t : Thresholds) (depth : Nat) (into : Integer) :
    Fermat.longest (.pair x (.ofInt j)) < t.transform64 →
      (Factors.pair x (.ofInt j)).digitCount ≤ Digits.maxTerms →
        (Factors.pair x (.ofInt j)).weight < depth →
          ((ofThresholds t depth).mul (.pair x (.ofInt j)) into).Yields .returning (·.toInt = k)

/-- The divisions of `x` by the integer `j` have the quotient `q` and the
remainder `r`, whatever the thresholds.  They return where products do, and below
Newton's threshold. -/
structure DividesTo (x : Integer) (j q r : Int) : Prop where
  value (t : Thresholds) (depth : Nat) (into : Integer) :
    ((ofThresholds t depth).divide x (.ofInt j) into).Yields .unfailing fun p =>
      p.1.toInt = q ∧ p.2.toInt = r
  returns (t : Thresholds) (multiply : Multiplier) (budget : Nat) (into : Integer) :
    x.bitLength < t.newton ∨ multiply.ExactOn .returning (fun _ => True) ∧ 1 ≤ budget →
      (Quotient.divide t multiply budget x (.ofInt j) into).Yields .returning fun p =>
        p.1.toInt = q ∧ p.2.toInt = r

/-- Any integer by any other is multiplied to the product, under all thresholds. -/
theorem Denotes.multipliesTo (hx : x.Denotes i) (j : Int) : MultipliesTo x j (i * j) := by
  have hj := denotes_ofInt j
  have hf : (Factors.pair x (.ofInt j)).Canonical := ⟨hx.canonical, hj.canonical⟩
  have hsigned {may : Endings} {t : Thresholds} {depth : Nat} {into : Integer}
      (h : (Product.magnitudes t depth (.pair x (.ofInt j)) into).Yields may
        (·.Denotes (Factors.pair x (.ofInt j)).magnitude)) :
      ((ofThresholds t depth).mul (.pair x (.ofInt j)) into).Yields may (·.toInt = i * j) := by
    refine h.bind fun z hz => ?_
    have hproduct := (Multiplier.denotes_product hf hz).toInt
    rwa [Factors.toInt, hx.toInt, hj.toInt] at hproduct
  constructor
  · intro t depth into
    exact hsigned (Product.magnitudes_yields t depth hf into)
  · intro t depth into hvalid h128 hdepth
    exact hsigned (Product.magnitudes_ends (Thresholds.isValid_iff.mp hvalid).1 h128 hf hdepth into)
  · intro t depth into hshort hcount hdepth
    exact hsigned (Product.magnitudes_short hshort hf hdepth (.inr hcount) into)

/-- Any integer by any other but zero is divided to quotient and remainder, under
all thresholds. -/
theorem Denotes.dividesTo (hx : x.Denotes i) (hj : j ≠ 0) :
    DividesTo x j (i / j) (i % j) := by
  have hreturns (t : Thresholds) (multiply : Multiplier) (budget : Nat) (into : Integer)
      (hm : multiply.ExactOn .returning fun _ => True) (hbudget : 1 ≤ budget) :
      (Quotient.divide t multiply budget x (.ofInt j) into).Yields .returning fun p =>
        p.1.toInt = i / j ∧ p.2.toInt = i % j :=
    (Quotient.divide_yields hj (.inr hbudget) hm t hx (denotes_ofInt j) into).mono
      fun _ hp => ⟨hp.2.1.toInt, hp.2.2.toInt⟩
  constructor
  · intro t depth into
    exact ((ofThresholds_exact t depth).divide hx (denotes_ofInt j) hj into).mono
      fun _ hp => ⟨hp.1.toInt, hp.2.toInt⟩
  · intro t multiply budget into h
    rcases h with hshort | ⟨hm, hbudget⟩
    · rw [Quotient.divide_short hshort]
      exact hreturns t _ 1 into Quotient.ideal_exactOn le_rfl
    · exact hreturns t multiply budget into hm hbudget

end Integer

/-! ## Remainders alone -/

/-- The remainder alone is that of the division by a word. -/
theorem Digits.remWord_eq (w : UInt64) (ds : List Digit) :
    remWord w ds = (divWord w ds).2 := by
  induction ds with
  | nil => rfl
  | cons d ds ih => rw [remWord, divWord, ih]

namespace Integer

variable {x : Integer} {i : Int}

theorem remWord_eq (x : Integer) (w : UInt32) : x.remWord w = (x.divWord w).map Prod.snd := by
  rw [remWord, divWord]
  split
  · rfl
  · rw [Digits.remWord_eq]
    rfl

theorem modWord_zero (x : Integer) : x.modWord 0 = .error .divideByZero := rfl

/-- The remainder in `[0, w)` is the Euclidean one. -/
theorem Denotes.modWord (hx : x.Denotes i) {w : UInt32} (hw : w ≠ 0) :
    ∃ s, x.modWord w = .ok s ∧ (s.toNat : Int) = i % w.toNat := by
  obtain ⟨q, r, hdiv, hq, hr⟩ := hx.divWord hw
  obtain ⟨q', s, hfix, -, hs⟩ := euclidean_word hx hw hq hr
  have hremainder : x.remWord w = .ok r := by
    rw [remWord_eq, hdiv]
    rfl
  have hsecond := congrArg Prod.snd hfix
  rw [apply_ite Prod.snd] at hsecond
  refine ⟨s, ?_, hs⟩
  rw [Integer.modWord, hremainder]
  exact congrArg Except.ok hsecond

/-! ## Words and integers -/

/-- The operations whose divisor is the word zero fail, and leave the registers as
they were. -/
theorem step_word_zero (t : Thresholds) (depth : Nat) (rs : Registers) (target : Nat) :
    ∀ operation ∈ [Registers.Operation.divWord 0, .divSignedWord 0, .remWord 0],
      rs.step t depth ⟨target, operation⟩ = (rs, .failure .divideByZero) := by
  intro operation hmem
  have heffect : rs.effect t depth (rs.get target) operation = .failure .divideByZero := by
    simp only [List.mem_cons, List.not_mem_nil, or_false] at hmem
    rcases hmem with rfl | rfl | rfl <;> rfl
  rw [Registers.step, heffect]

/-- A product or a quotient by a machine word, and a remainder, are those that
the general operations give for the integer that the word stands for.  The division
by an unsigned word is rounded towards zero, and leaves the remainder of the
magnitude, which is also found without the quotient.  A division by the word zero
is an error. -/
theorem word_operations_agree (hx : x.Denotes i) (w : UInt32) (v : Int32) :
    (w ≠ 0 → ∃ q r s, x.divWord w = .ok (q, r) ∧ q.Denotes (i.tdiv w.toNat) ∧
      r.toNat = i.natAbs % w.toNat ∧ x.remWord w = .ok r ∧ x.modWord w = .ok s ∧
      DividesTo x w.toNat (i / w.toNat) s.toNat) ∧
    (v ≠ 0 → ∃ q r, x.divSignedWord v = .ok (q, r) ∧ q.Canonical ∧
      DividesTo x v.toInt q.toInt r.toNat) ∧
    ((x.mulWord w).Canonical ∧ MultipliesTo x w.toNat (x.mulWord w).toInt) ∧
    ((x.mulSignedWord v).Canonical ∧ MultipliesTo x v.toInt (x.mulSignedWord v).toInt) ∧
    x.modWord 0 = .error .divideByZero ∧
    ∀ operation ∈ [Registers.Operation.divWord 0, .divSignedWord 0, .remWord 0],
      ∀ t depth rs target,
        Registers.step t depth rs ⟨target, operation⟩ = (rs, .failure .divideByZero) := by
  have hproduct := hx.mulWord w
  have hsigned := hx.mulSignedWord v
  refine ⟨fun hw => ?_, fun hv => ?_, ⟨hproduct.canonical, ?_⟩, ⟨hsigned.canonical, ?_⟩,
    modWord_zero x, fun operation hzero t depth rs target => ?_⟩
  · obtain ⟨q, r, hdiv, hq, hr⟩ := hx.divWord hw
    obtain ⟨s, hmod, hs⟩ := hx.modWord hw
    have hdivisor : (w.toNat : Int) ≠ 0 := by
      exact_mod_cast mt Digits.toNat_eq_zero_iff.mp hw
    refine ⟨q, r, s, hdiv, hq, hr, ?_, hmod, ?_⟩
    · rw [remWord_eq, hdiv]
      rfl
    · rw [hs]
      exact hx.dividesTo hdivisor
  · obtain ⟨q, r, hdiv, hq, hr⟩ := hx.divSignedWord hv
    refine ⟨q, r, hdiv, hq.canonical, ?_⟩
    rw [hq.toInt, hr]
    exact hx.dividesTo fun hzero => hv (Int32.toInt_inj.mp hzero)
  · rw [hproduct.toInt]
    exact hx.multipliesTo _
  · rw [hsigned.toInt]
    exact hx.multipliesTo _
  · exact step_word_zero t depth rs target operation hzero

/-- The magnitude of -17 has the quotient zero by `2^31`, which is not negative;
Euclid's quotient by `-2^31` is one.  A factor of more than 30 bits carries into a
second digit. -/
theorem word_operations_agree_minus_seventeen :
    Denotes ⟨true, [17, 0]⟩ (-17) ∧
    divWord ⟨true, [17, 0]⟩ 5 = .ok (⟨true, [3, 0]⟩, 2) ∧
    modWord ⟨true, [17, 0]⟩ 5 = .ok 3 ∧ DividesTo ⟨true, [17, 0]⟩ 5 (-4) 3 ∧
    divSignedWord ⟨true, [17, 0]⟩ (-2147483648) = .ok (⟨false, [1, 0]⟩, 2147483631) ∧
    DividesTo ⟨true, [17, 0]⟩ (-2147483648) 1 2147483631 ∧
    mulWord ⟨true, [17, 0]⟩ 4294967295 = ⟨true, [1073741807, 67]⟩ ∧
    MultipliesTo ⟨true, [17, 0]⟩ 4294967295 (-73014444015) := by
  have hx : Denotes ⟨true, [17, 0]⟩ (-17) :=
    ⟨by simp [Canonical, Digits.base, Digits.isZero], by decide⟩
  have hdiv : divWord ⟨true, [17, 0]⟩ 5 = .ok (⟨true, [3, 0]⟩, 2) := by decide +kernel
  have hmod : modWord ⟨true, [17, 0]⟩ 5 = .ok 3 := by decide +kernel
  have hdivSigned : divSignedWord ⟨true, [17, 0]⟩ (-2147483648) =
      .ok (⟨false, [1, 0]⟩, 2147483631) := by decide +kernel
  have hmul : mulWord ⟨true, [17, 0]⟩ 4294967295 = ⟨true, [1073741807, 67]⟩ := by decide +kernel
  obtain ⟨hword, hsigned, -⟩ := word_operations_agree hx 5 (-2147483648)
  obtain ⟨-, -, ⟨-, hproduct⟩, -⟩ := word_operations_agree hx 4294967295 0
  obtain ⟨-, -, s, -, -, -, -, hs, hdivides⟩ := hword (by decide)
  obtain ⟨q, r, hqr, -, hdividesSigned⟩ := hsigned (by decide)
  obtain rfl := Except.ok.inj (hmod.symm.trans hs)
  obtain ⟨rfl, rfl⟩ := Prod.mk.inj (Except.ok.inj (hdivSigned.symm.trans hqr))
  rw [hmul] at hproduct
  exact ⟨hx, hdiv, hmod, hdivides, hdivSigned, hdividesSigned, hmul, hproduct⟩

end Integer

end Multiprecision
