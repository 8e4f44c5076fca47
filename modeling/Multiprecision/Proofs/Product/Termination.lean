import Mathlib
import Multiprecision.Proofs.Product
import Multiprecision.Proofs.Thresholds

/-!
# Multiprecision.Proofs.Product.Termination

When products end:

* `handed_smaller` — an algorithm hands on smaller factors than it was given,
  except that a transform with 128 parts works in a ring of exponent 128;
* `magnitudes_ends` — so products end if such transforms begin above 128 bits;
* `magnitudes_exhausted` — if they do not, a product of factors `2^127` needs
  itself and ends at no depth.

Normalized thresholds do not exclude the latter.
-/

namespace Multiprecision

open Integer

/-! ## Sizes -/

namespace Factors

variable {f : Factors}

/-- The longer factor has the bits of the larger one. -/
theorem longest_eq_size (hf : f.Canonical) : Fermat.longest f = f.largest.size := by
  cases f with
  | pair x y =>
    have hmax : Monotone Nat.size := fun _ _ => Nat.size_le_size
    rw [Fermat.longest, largest, hmax.map_max, hf.1.denotes.bitLength, hf.2.denotes.bitLength,
      Integer.natAbs_toInt, Integer.natAbs_toInt]
  | twice x =>
    have hx : x.Canonical := hf
    rw [Fermat.longest, largest, hx.denotes.bitLength, Integer.natAbs_toInt]

/-- A factor with more than `n` bits is at least `2^n`. -/
theorem two_pow_le_largest (hf : f.Canonical) {n : Nat} (h : n < Fermat.longest f) :
    2 ^ n ≤ f.largest := by
  rw [longest_eq_size hf] at h
  exact Nat.lt_size.mp h

/-- Both factors have at most `n` bits exactly if they are below `2^n`. -/
theorem longest_le_iff (hf : f.Canonical) {n : Nat} :
    Fermat.longest f ≤ n ↔ f.largest < 2 ^ n := by
  rw [longest_eq_size hf, Nat.size_le]

/-- Both have at most `n` digits exactly if they are below the power `n` of the
base. -/
theorem digitCount_le_iff (hf : f.Canonical) {n : Nat} :
    f.digitCount ≤ n ↔ f.largest < Digits.base ^ n := by
  cases f with
  | pair x y =>
    rw [digitCount, largest, max_le_iff, max_lt_iff, hf.1.denotes.digitCount_le_iff,
      hf.2.denotes.digitCount_le_iff, Integer.natAbs_toInt, Integer.natAbs_toInt]
  | twice x =>
    have hx : x.Canonical := hf
    rw [digitCount, largest, hx.denotes.digitCount_le_iff, Integer.natAbs_toInt]

/-- Factors with few enough digits fit the schoolbook product. -/
theorem fits_of_digitCount_le (h : f.digitCount ≤ Digits.maxTerms) : f.Fits := by
  cases f with
  | pair x y => exact (min_le_max).trans h
  | twice x => exact h

end Factors

namespace Fermat

variable {f : Factors}

/-- The outer exponent exceeds twice the bits of the longer factor by no more
than the number of parts. -/
theorem outerExponent_lt (k : Nat) (f : Factors) :
    outerExponent k f < 2 * longest f + 1 + 2 ^ k := by
  refine (roundUp_lt _ (Nat.two_pow_pos k)).trans_le (Nat.add_le_add_right ?_ _)
  cases f <;> simp only [longest] <;> omega

/-- No multiple of the number of parts with room for the product is smaller than
the outer exponent. -/
theorem outerExponent_le {k m : Nat} (h : 2 * longest f + 1 ≤ m) (hdvd : 2 ^ k ∣ m) :
    outerExponent k f ≤ m := by
  refine roundUp_le (le_trans ?_ h) hdvd
  cases f <;> simp only [longest] <;> omega

/-- With 64 parts the inner ring has fewer bits than a factor of four digits. -/
theorem innerExponent_six_lt (h : 120 ≤ longest f) :
    innerExponent (outerExponent 6 f) 6 < longest f := by
  have houter := outerExponent_lt 6 f
  have hinner := roundUp_lt (2 * (outerExponent 6 f / 2 ^ 6) + 6) (Nat.two_pow_pos 6)
  rw [innerExponent]
  simp only [Nat.pow_eq] at hinner ⊢
  omega

/-- With 128 parts it does so only above 128 bits. -/
theorem innerExponent_seven_lt (h : 128 < longest f) :
    innerExponent (outerExponent 7 f) 7 < longest f := by
  rcases le_or_gt (longest f) 191 with hle | hgt
  · have houter : outerExponent 7 f ≤ 384 := outerExponent_le (by omega) (by decide)
    refine lt_of_le_of_lt (roundUp_le ?_ (by decide)) h
    simp only [Nat.pow_eq]
    omega
  · have houter := outerExponent_lt 7 f
    have hinner := roundUp_lt (2 * (outerExponent 7 f / 2 ^ 7) + 7) (Nat.two_pow_pos 7)
    rw [innerExponent]
    simp only [Nat.pow_eq] at hinner ⊢
    omega

/-- At most there it works in a ring of exponent 128. -/
theorem innerExponent_seven_le (h : longest f ≤ 128) :
    innerExponent (outerExponent 7 f) 7 ≤ 128 := by
  have houter : outerExponent 7 f ≤ 384 := outerExponent_le (by omega) (by decide)
  refine roundUp_le ?_ (by decide)
  simp only [Nat.pow_eq]
  omega

end Fermat

namespace Product

variable {t : Thresholds} {f g : Factors}

/-! ## What is handed on -/

/-- Factors with fewer bits are smaller. -/
theorem lt_largest_of_lt_two_pow (hf : f.Canonical) {n : Nat} (hn : n < Fermat.longest f)
    (hg : g.largest < 2 ^ n) : g.largest < f.largest :=
  hg.trans_le (Factors.two_pow_le_largest hf hn)

/-- What is handed on is smaller, but for transforms with 128 parts of factors
below `2^128`. -/
theorem handed_smaller (htoom : Thresholds.leastToom2 ≤ t.toom2) (hf : f.Canonical)
    (hg : Handed f (f.algorithm t) g) :
    g.largest < f.largest ∨
      t.transform128 ≤ Fermat.longest f ∧ f.largest < 2 ^ 128 ∧ g.largest < 2 ^ 128 := by
  have hleast : Thresholds.leastToom2 = 120 := rfl
  obtain hschool | ⟨hlong, hsplit | h6 | ⟨h7, h128⟩⟩ := algorithm_cases t f
  · rw [hschool] at hg
    exact hg.elim
  · refine .inl ?_
    have hlarge : Digits.base ^ 3 ≤ f.largest := by
      have h := Factors.two_pow_le_largest (n := 119) hf (by omega)
      exact le_trans (by decide) h
    have hdigits : 4 ≤ f.digitCount := by
      by_contra hlt
      have h := (Factors.digitCount_le_iff hf).mp (show f.digitCount ≤ 3 by omega)
      omega
    have hshrunk : ToomCook.Shrunk f.digitCount g := by
      simp only [List.mem_cons, List.not_mem_nil, or_false] at hsplit
      rcases hsplit with h | h | h | h <;> rw [h] at hg <;> exact hg.1
    have hbelow := (Factors.digitCount_le_iff hf (n := f.digitCount - 1)).not.mp (by omega)
    exact (hshrunk hdigits).trans_le (not_lt.mp hbelow)
  · rw [h6] at hg
    exact .inl (lt_largest_of_lt_two_pow hf (Fermat.innerExponent_six_lt (by omega)) hg)
  · rw [h7] at hg
    rcases le_or_gt (Fermat.longest f) 128 with hle | hgt
    · have hpow : 2 ^ Fermat.innerExponent (Fermat.outerExponent 7 f) 7 ≤ 2 ^ 128 :=
        Nat.pow_le_pow_right (by decide) (Fermat.innerExponent_seven_le hle)
      exact .inr ⟨h128, (Factors.longest_le_iff hf).mp hle, hg.trans_le hpow⟩
    · exact .inl (lt_largest_of_lt_two_pow hf (Fermat.innerExponent_seven_lt hgt) hg)

/-! ## Products that end -/

/-- With transforms of 128 parts above 128 bits, a depth above the larger
factor is enough. -/
theorem magnitudes_ends (htoom : Thresholds.leastToom2 ≤ t.toom2) (h128 : 128 < t.transform128)
    {depth : Nat} (hf : f.Canonical) (hdepth : f.largest < depth) (into : Integer) :
    (magnitudes t depth f into).Yields .abortOnly (·.Denotes f.magnitude) := by
  induction depth generalizing f into with
  | zero => exact absurd hdepth (Nat.not_lt_zero _)
  | succ depth ih =>
    refine magnitudes_succ_yields hf (fun g hg hhanded => ih hg ?_ .zero) (.inl trivial) into
    rcases handed_smaller htoom hf hhanded with hlt | ⟨hle, hsmall, -⟩
    · omega
    · rw [← Factors.longest_le_iff hf] at hsmall
      omega

/-! ## Products that do not -/

/-- Factors below `2^128` need no others. -/
theorem magnitudes_small_yields (htoom : Thresholds.leastToom2 ≤ t.toom2) (depth : Nat)
    (hf : f.Canonical) (hlt : f.largest < 2 ^ 128) (into : Integer) :
    (magnitudes t depth f into).Yields .exhaustOnly (·.Denotes f.magnitude) := by
  induction depth generalizing f into with
  | zero => exact trivial
  | succ depth ih =>
    refine magnitudes_succ_yields hf (fun g hg hhanded => ih hg ?_ .zero) (.inr ⟨?_, ?_⟩) into
    · rcases handed_smaller htoom hf hhanded with hsmaller | ⟨-, -, hsmall⟩
      · exact hsmaller.trans hlt
      · exact hsmall
    · have hdigits : f.digitCount ≤ 5 :=
        (Factors.digitCount_le_iff hf).mpr (hlt.trans (by decide))
      exact Factors.fits_of_digitCount_le (hdigits.trans (by decide))
    · intro k hk
      have houter := Fermat.outerExponent_lt k f
      have hlong := (Factors.longest_le_iff hf).mpr hlt
      have hparts : 2 ^ k ≤ 128 := by
        rcases parts_of_algorithm hk with rfl | rfl <;> decide
      have hterms : 512 ≤ Digits.maxTerms := by decide
      omega

end Product

/-! ### Factors that come back -/

/-- Every factor is `n`. -/
def Factors.All (n : Nat) : Factors → Prop
  | pair x y => x.Denotes n ∧ y.Denotes n
  | twice x => x.Denotes n

namespace Fermat

open Coefficients

variable {e k j n ring : Nat} {pointwise : Multiplier} {f : Factors}

/-- Where parts of `2^size` bits are taken and `2^size` is an odd power of the
weight, the number itself comes back: there the polynomial of the parts has its
value. -/
theorem exists_entry [NeZero ring] {step size : Nat} (hstep : step * 2 ^ k = ring)
    (hj : 0 < j) (hlt : j < 2 ^ k) (hsize : size = step * (2 * j + 1))
    (hn : n < 2 ^ (2 ^ k * size)) :
    ∃ m, ∀ zs, List.Forall₂ (Represents ring) zs ((weightedPoints ring step k).map fun z =>
        (polynomial ((chunks (2 ^ k) size n).map Nat.cast)).eval z) →
      ∃ h : m < zs.length, Represents ring zs[m] n := by
  obtain ⟨m, hm, hpoint⟩ := List.getElem_of_mem (two_pow_mem_weightedPoints hstep hj hlt)
  refine ⟨m, fun zs hzs => ?_⟩
  obtain ⟨hlen, hget⟩ := List.forall₂_iff_get.mp hzs
  rw [List.length_map] at hlen
  refine ⟨hlen ▸ hm, ?_⟩
  have hentry := hget m (hlen ▸ hm) (by rwa [List.length_map])
  rw [List.get_eq_getElem, List.get_eq_getElem, List.getElem_map, hpoint, ← hsize,
    eval_cast_chunks hn] at hentry
  exact hentry

/-- What represents a number up to `2^ring` denotes it. -/
theorem Represents.denotes_nat {x : Integer} (h : Represents ring x n) (hn : n ≤ 2 ^ ring) :
    x.Denotes n := by
  rwa [Represents, ZMod.val_natCast_of_lt (Nat.lt_succ_of_le hn)] at h

/-- A multiplier that is exact in the ring ends on every entry as it may. -/
theorem RingExact.yields_of_mem {may : Endings} (hm : RingExact may ring pointwise)
    {entries : List Factors} {cs : List (Residue ring)}
    (h : List.Forall₂ (RepresentFactors ring) entries cs) {g : Factors} (hg : g ∈ entries) :
    (pointwise g).Yields may fun _ => True := by
  induction h with
  | nil => exact absurd hg List.not_mem_nil
  | cons hf _ ih =>
    rcases List.mem_cons.mp hg with rfl | hg
    · exact (hm _ _ hf).mono fun _ _ => trivial
    · exact ih hg

/-- A convolution whose factors come back runs out if they do. -/
theorem convolve_exhausted (he : 0 < e) (hdiv : e % 2 ^ k = 0) (hring : innerExponent e k ≤ e)
    (hj : 0 < j) (hlt : j < 2 ^ k)
    (hsize : e / 2 ^ k = innerExponent e k / 2 ^ k * (2 * j + 1))
    (hpointwise : RingExact .exhaustOnly (innerExponent e k) pointwise)
    (hfits : e ≤ Digits.maxTerms) (hf : f.All n) (hn : n < 2 ^ innerExponent e k)
    (hagain : ∀ g : Factors, g.All n → pointwise g = .exhausted) (check : Nat) :
    convolve pointwise check e k f = .exhausted := by
  obtain ⟨heq, hpos, hinnersize⟩ := size_spec he hdiv
  have : NeZero (innerExponent e k) := ⟨by omega⟩
  have hstep := innerExponent_div_mul e k
  obtain ⟨m, hentry⟩ := exists_entry (n := n) hstep hj hlt hsize
    (by rw [heq]; exact hn.trans_le (Nat.pow_le_pow_right (by decide) hring))
  -- What the convolution does before it multiplies the entries.
  have hparts (x : Integer) (hx : x.Denotes n) := split_denotes hx (2 ^ k) hpos
  have hfit {xs : List Integer} (h : DenoteAll xs (chunks (2 ^ k) (e / 2 ^ k) n)) : FitAll xs :=
    fitAll_of_le h (fun _ => mem_chunks_lt) ((Nat.div_le_self e _).trans hfits)
  have htransformed (x : Integer) (hx : x.Denotes n) :=
    weightedForward_split hstep hpos hinnersize hx
  simp only [Int.natAbs_natCast] at hparts htransformed
  rw [convolve, if_neg (by simpa using hdiv), if_neg (by omega)]
  cases f with
  | pair x y =>
    have hx := hparts x hf.1
    obtain ⟨zs, hzok, hzs⟩ := htransformed x hf.1
    obtain ⟨ws, hwok, hws⟩ := htransformed y hf.2
    refine (expectedCoefficients_yields hx (hparts y hf.2) (length_chunks ..) (length_chunks ..)
      (.inr (hfit hx))).bind_exhausted fun expected _ => ?_
    refine (Outcome.Yields.liftM_ok (p := (List.Forall₂ (Represents _) · _)) hzok
      hzs).bind_exhausted fun zs hzs => ?_
    refine (Outcome.Yields.liftM_ok (p := (List.Forall₂ (Represents _) · _)) hwok
      hws).bind_exhausted fun ws hws => ?_
    obtain ⟨hmz, hz⟩ := hentry zs hzs
    obtain ⟨hmw, hw⟩ := hentry ws hws
    have hmem : Factors.pair zs[m] ws[m] ∈ List.zipWith Factors.pair zs ws :=
      List.mem_iff_getElem.mpr ⟨m, by simpa using ⟨hmz, hmw⟩, List.getElem_zipWith⟩
    have hproducts : (List.zipWith Factors.pair zs ws).mapM pointwise = .exhausted :=
      Outcome.mapM_exhausted (fun _ hg => hpointwise.yields_of_mem (zipWith_pair hzs hws) hg) hmem
        (hagain _ ⟨hz.denotes_nat hn.le, hw.denotes_nat hn.le⟩)
    exact Outcome.bind_of_exhausted hproducts _
  | twice x =>
    have hx := hparts x hf
    obtain ⟨zs, hzok, hzs⟩ := htransformed x hf
    refine (expectedCoefficients_yields hx hx (length_chunks ..) (length_chunks ..)
      (.inr (hfit hx))).bind_exhausted fun expected _ => ?_
    refine (Outcome.Yields.liftM_ok (p := (List.Forall₂ (Represents _) · _)) hzok
      hzs).bind_exhausted fun zs hzs => ?_
    obtain ⟨hmz, hz⟩ := hentry zs hzs
    have hmem : Factors.twice zs[m] ∈ zs.map Factors.twice :=
      List.mem_map_of_mem (List.getElem_mem hmz)
    have hproducts : (zs.map Factors.twice).mapM pointwise = .exhausted :=
      Outcome.mapM_exhausted (fun _ hg => hpointwise.yields_of_mem (map_twice hzs) hg) hmem
        (hagain _ (hz.denotes_nat hn.le))
    exact Outcome.bind_of_exhausted hproducts _

/-- Short residues get plain products. -/
theorem product_eq_reducedProduct {t : Thresholds} (hring : longest f ≤ e)
    (hfermat : longest f < t.fermat) (multiply : Multiplier) (k : Nat) :
    product t multiply k e f = reducedProduct multiply e f := by
  have hnone : minusOneProduct? e f = none := by
    have hnot {x : Integer} (hx : x.bitLength ≤ e) : ¬isMinusOne e x = true := by
      rw [isMinusOne, beq_iff_eq]
      omega
    cases f with
    | pair x y =>
      rw [minusOneProduct?, if_neg (hnot ((le_max_left _ _).trans hring)),
        if_neg (hnot ((le_max_right _ _).trans hring))]
    | twice x => rw [minusOneProduct?, if_neg (hnot hring)]
  rw [product, hnone]
  simp only [if_pos hfermat]

end Fermat

theorem Factors.All.canonical {f : Factors} {n : Nat} (hf : f.All n) : f.Canonical := by
  cases f with
  | pair x y => exact ⟨hf.1.canonical, hf.2.canonical⟩
  | twice x => exact Denotes.canonical hf

theorem Factors.All.largest {f : Factors} {n : Nat} (hf : f.All n) : f.largest = n := by
  cases f with
  | pair x y => rw [Factors.largest_pair hf.1 hf.2, max_self, Int.natAbs_natCast]
  | twice x => rw [Factors.largest_twice hf, Int.natAbs_natCast]

/-- If every factor is `2^n`, they have `n + 1` bits. -/
theorem Factors.All.longest {f : Factors} {n : Nat} (hf : f.All (2 ^ n)) :
    Fermat.longest f = n + 1 := by
  rw [Factors.longest_eq_size hf.canonical, hf.largest, Nat.size_pow]

namespace Product

variable {t : Thresholds} {f : Factors} {n : Nat}

/-- The transform with 128 parts for factors `2^127`: a ring of exponent 384 has
parts of 3 bits, and the inner ring has the exponent 128, where the factors
come back. -/
theorem schonhageStrassen_exhausted {multiply : Multiplier} (hfermat : 128 < t.fermat)
    (hf : f.All (2 ^ 127)) (hm : multiply.ExactOn .exhaustOnly (·.largest < 2 ^ 128))
    (hagain : ∀ g : Factors, g.All (2 ^ 127) → multiply g = .exhausted) :
    Fermat.schonhageStrassen t multiply 7 f = .exhausted := by
  have hbits {x : Integer} (hx : x.Denotes (2 ^ 127 : Nat)) : x.bitLength = 128 := by
    rw [hx.bitLength, Int.natAbs_natCast, Nat.size_pow]
  have houter : Fermat.outerExponent 7 f = 384 := by
    cases f with
    | pair x y =>
      simp only [Fermat.outerExponent, hbits hf.1, hbits hf.2]
      decide
    | twice x =>
      simp only [Fermat.outerExponent, hbits hf]
      decide
  have hinner : Fermat.innerExponent 384 7 = 128 := by decide
  have hpointwise : Fermat.RingExact .exhaustOnly (Fermat.innerExponent 384 7)
      (Fermat.product t multiply 7 (Fermat.innerExponent 384 7)) := by
    rw [hinner]
    exact Fermat.product_exact t 7 (by decide) hm (.inr (by decide))
  rw [Fermat.schonhageStrassen, if_pos (by decide)]
  simp only [houter]
  refine Fermat.convolve_exhausted (j := 1) (by decide) (by decide) (by decide) (by decide)
    (by decide) (by decide) hpointwise (by decide) hf (by rw [hinner]; decide) (fun g hg => ?_)
    t.check
  rw [hinner, Fermat.product_eq_reducedProduct hg.longest.le (hg.longest ▸ hfermat)]
  exact Outcome.bind_of_exhausted (hagain g hg) _

/-- From the bound for 128 parts on, valid thresholds choose that transform. -/
theorem algorithm_eq_transform128 (hvalid : t.isValid = true)
    (h : t.transform128 ≤ Fermat.longest f) : f.algorithm t = .schonhageStrassen 7 := by
  obtain ⟨-, h3, h64, h128, -, -⟩ := Thresholds.isValid_iff.mp hvalid
  cases f with
  | pair x y =>
    rw [Fermat.longest] at h
    simp only [Factors.algorithm, Algorithm.forProduct]
    rw [if_neg (by omega), if_neg (by omega), if_neg (by omega), if_neg (by omega)]
  | twice x =>
    rw [Fermat.longest] at h
    simp only [Factors.algorithm, Algorithm.forSquare]
    rw [if_neg (by omega), if_neg (by omega), if_neg (by omega), if_neg (by omega)]

/-- Where transforms with 128 parts begin at 128 bits or below, a product of
factors `2^127` needs a product of the same factors. -/
theorem magnitudes_exhausted (hvalid : t.isValid = true) (h128 : t.transform128 ≤ 128)
    (depth : Nat) (hf : f.All (2 ^ 127)) (into : Integer) :
    magnitudes t depth f into = .exhausted := by
  obtain ⟨htoom, -, -, -, hfermat, -⟩ := Thresholds.isValid_iff.mp hvalid
  induction depth generalizing f into with
  | zero => rfl
  | succ depth ih =>
    have hm : Multiplier.ExactOn .exhaustOnly (·.largest < 2 ^ 128)
        fun g => magnitudes t depth g .zero :=
      fun g hg hlt => magnitudes_small_yields htoom depth hg hlt .zero
    have hagain := schonhageStrassen_exhausted (lt_of_lt_of_le (by decide) hfermat) hf hm
      fun g hg => ih hg .zero
    have hne {x : Integer} (hx : x.Denotes (2 ^ 127 : Nat)) : x.isZero = false :=
      hx.isZero_eq_false_iff.mpr (by decide)
    have hchoice := algorithm_eq_transform128 hvalid (h128.trans hf.longest.ge)
    cases f with
    | pair x y =>
      have hle : y.digitCount ≤ x.digitCount := hf.2.digitCount_le_iff.mpr hf.1.natAbs_lt
      rw [Factors.algorithm] at hchoice
      rw [magnitudes, if_neg (by simp [hne hf.1, hne hf.2]), hchoice]
      simp only [byAlgorithm, if_pos hle]
      exact hagain
    | twice x =>
      rw [Factors.algorithm] at hchoice
      rw [magnitudes, if_neg (by simp [hne hf]), hchoice]
      exact hagain

/-! ## Normalized thresholds -/

/-- A product is exhausted exactly if that of the magnitudes is. -/
theorem signed_eq_exhausted {depth : Nat} {into : Integer} :
    signed t depth f into = .exhausted ↔ magnitudes t depth f into = .exhausted := by
  rw [signed, Multiplier.signed]
  cases magnitudes t depth f into <;> simp [Bind.bind, Outcome.bind, pure]

/-- Under normalized thresholds all products and squares end if and only if
transforms with 128 parts begin above 128 bits.  If they do not, the square of
`2^127` ends at no depth, nor does its product with a copy. -/
theorem normalized_products_end_iff (t : Thresholds) :
    ((∀ f : Factors, f.Canonical → ∀ into, ∃ enough, ∀ depth, enough ≤ depth →
        magnitudes t.normalize depth f into ≠ .exhausted ∧
          signed t.normalize depth f into ≠ .exhausted) ↔
      128 < t.normalize.transform128) ∧
    (t.normalize.transform128 ≤ 128 → ∀ f : Factors, f.All (2 ^ 127) → ∀ depth into,
      magnitudes t.normalize depth f into = .exhausted ∧
        signed t.normalize depth f into = .exhausted) := by
  have hvalid := Thresholds.isValid_normalize t
  have hloop (h128 : t.normalize.transform128 ≤ 128) (f : Factors) (hf : f.All (2 ^ 127))
      (depth : Nat) (into : Integer) : magnitudes t.normalize depth f into = .exhausted ∧
        signed t.normalize depth f into = .exhausted := by
    have h := magnitudes_exhausted hvalid h128 depth hf into
    exact ⟨h, signed_eq_exhausted.mpr h⟩
  refine ⟨⟨fun hends => ?_, fun h128 f hf into => ⟨f.largest + 1, fun depth hdepth => ?_⟩⟩, hloop⟩
  · by_contra hle
    have hf : (Factors.twice (.ofNat (2 ^ 127))).All (2 ^ 127) := denotes_ofNat _
    obtain ⟨enough, hdepth⟩ := hends _ hf.canonical .zero
    exact (hdepth enough le_rfl).1 (hloop (not_lt.mp hle) _ hf enough .zero).1
  · have hyields := magnitudes_ends (Thresholds.isValid_iff.mp hvalid).1 h128 hf hdepth into
    have hne : magnitudes t.normalize depth f into ≠ .exhausted := fun h => by
      rw [h] at hyields
      exact hyields
    exact ⟨hne, fun h => hne (signed_eq_exhausted.mp h)⟩

end Product

end Multiprecision
