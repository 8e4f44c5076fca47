import Mathlib
import Multiprecision.Product
import Multiprecision.Proofs.Fermat.Product
import Multiprecision.Proofs.Product.ToomCook

/-!
# Multiprecision.Proofs.Product

Products are exact whichever algorithms are chosen on the way:

* `Handed` — what an algorithm hands on to the multiplier;
* `compute_yields` — an algorithm is exact if the multiplier is on that;
* `magnitudes_succ_yields` — one level of the recursion is exact if the level
  below is exact on what is handed on;
* `signed_exact` — so values of a product are exact at every depth, for all
  thresholds, and no product is an error;
* `product_magnitudes_exact` — the same for products in a Fermat ring.
-/

namespace Multiprecision

namespace Factors

/-- The digits of the longer factor. -/
def digitCount : Factors → Nat
  | pair x y => max x.digitCount y.digitCount
  | twice x => x.digitCount

/-- The algorithm that the thresholds choose for the factors. -/
def algorithm (t : Thresholds) : Factors → Algorithm
  | pair x y => .forProduct t x.bitLength y.bitLength
  | twice x => .forSquare t x.bitLength

end Factors

namespace Product

open Integer

variable {may : Endings} {multiply : Multiplier} {t : Thresholds} {f : Factors}

/-- What an algorithm hands on: a split makes operands smaller together, and
those of four digits and more shorter; a transform works with residues in the
inner ring. -/
def Handed (f : Factors) : Algorithm → Factors → Prop
  | .gradeSchool, _ => False
  | .schonhageStrassen k, g => g.largest < 2 ^ Fermat.innerExponent (Fermat.outerExponent k f) k
  | _, g => ToomCook.HandsOn f.digitCount f g

/-- Schoolbook products that may be needed fit their words. -/
def Fits (f : Factors) (algorithm : Algorithm) : Prop :=
  f.Fits ∧ ∀ k, algorithm = .schonhageStrassen k → Fermat.outerExponent k f ≤ Digits.maxTerms

/-- An algorithm that the thresholds can choose. -/
def Supported (algorithm : Algorithm) : Prop :=
  ∀ k, algorithm = .schonhageStrassen k → 2 ≤ k ∧ k < 63

/-- What the choice of an algorithm says about the longer factor. -/
theorem algorithm_cases (t : Thresholds) (f : Factors) :
    f.algorithm t = .gradeSchool ∨ t.toom2 ≤ Fermat.longest f ∧
      (f.algorithm t ∈ [.toom15, .toom2, .toom25, .toom3] ∨
        f.algorithm t = .schonhageStrassen 6 ∨
        f.algorithm t = .schonhageStrassen 7 ∧ t.transform128 ≤ Fermat.longest f) := by
  cases f with
  | pair x y =>
    rw [Factors.algorithm, Algorithm.forProduct, Fermat.longest]
    generalize max x.bitLength y.bitLength = large
    split_ifs <;> simp <;> omega
  | twice x =>
    rw [Factors.algorithm, Algorithm.forSquare, Fermat.longest]
    split_ifs <;> simp <;> omega

/-- The transforms that are chosen have 64 or 128 parts. -/
theorem parts_of_algorithm {k : Nat} (h : f.algorithm t = .schonhageStrassen k) :
    k = 6 ∨ k = 7 := by
  obtain hschool | ⟨-, htoom | h6 | ⟨h7, -⟩⟩ := algorithm_cases t f
  · simp [h] at hschool
  · simp [h] at htoom
  · exact .inl (by simpa [h] using h6)
  · exact .inr (by simpa [h] using h7)

/-- Whatever the thresholds choose is supported. -/
theorem supported_algorithm (t : Thresholds) (f : Factors) : Supported (f.algorithm t) := by
  intro k hk
  rcases parts_of_algorithm hk with rfl | rfl
  · decide
  · decide

/-! ## One level -/

/-- Each algorithm is exact, for operands in the order of their lengths. -/
theorem byAlgorithm_ordered {x y : Integer} {algorithm : Algorithm}
    (hf : (Factors.pair x y).Canonical) (hle : y.digitCount ≤ x.digitCount)
    (hsupported : Supported algorithm)
    (hm : multiply.ExactOn may (Handed (.pair x y) algorithm))
    (hfits : may.abort ∨ Fits (.pair x y) algorithm) (into : Integer) :
    (byAlgorithm t multiply algorithm x y into).Yields may
      (·.Denotes (Factors.pair x y).magnitude) := by
  have hx := hf.1.denotes
  have hy := hf.2.denotes
  have hcount : ToomCook.HandsOn (Factors.pair x y).digitCount = ToomCook.HandsOn x.digitCount := by
    rw [Factors.digitCount, max_eq_left hle]
  have hschool := hfits.imp_right And.left
  rw [Factors.magnitude, ← natAbs_toInt x, ← natAbs_toInt y]
  simp only [byAlgorithm, if_pos hle]
  cases algorithm with
  | gradeSchool => exact mulGradeSchool_yields hx hy hschool into
  | toom15 => exact ToomCook.mul15_yields hx hy (fun _ => hschool) (hcount ▸ hm.signedOn) into
  | toom2 => exact ToomCook.mul2_yields hx hy hle (hcount ▸ hm.signedOn) into
  | toom25 => exact ToomCook.mul25_yields hx hy hle (hcount ▸ hm.signedOn) into
  | toom3 => exact ToomCook.mul3_yields hx hy hle (hcount ▸ hm.signedOn) into
  | schonhageStrassen k =>
    obtain ⟨hk, hk63⟩ := hsupported k rfl
    have h := Fermat.schonhageStrassen_yields t hk hk63 hf hm
      (hfits.imp_right fun h => h.2 k rfl)
    rwa [Factors.magnitude, ← natAbs_toInt x, ← natAbs_toInt y] at h

/-- The order of the factors does not matter to the outer ring. -/
theorem outerExponent_swap (k : Nat) (x y : Integer) :
    Fermat.outerExponent k (.pair y x) = Fermat.outerExponent k (.pair x y) := by
  simp only [Fermat.outerExponent, Nat.add_comm]

/-- The order of the factors does not matter to what is handed on. -/
theorem handed_swap (x y : Integer) : Handed (.pair y x) = Handed (.pair x y) := by
  funext algorithm g
  have hlesser : ToomCook.Lesser (.pair y x) g = ToomCook.Lesser (.pair x y) g := by
    simp only [ToomCook.Lesser, Factors.largest, Factors.weight, max_comm, Nat.add_comm]
  cases algorithm <;>
    simp only [Handed, ToomCook.HandsOn, hlesser, outerExponent_swap, Factors.digitCount, max_comm]

/-- The order of the factors does not matter to whether they fit. -/
theorem fits_swap {x y : Integer} {algorithm : Algorithm} :
    Fits (.pair y x) algorithm ↔ Fits (.pair x y) algorithm := by
  simp only [Fits, Factors.Fits, min_comm, outerExponent_swap]

/-- Each algorithm for products is exact. -/
theorem byAlgorithm_yields {x y : Integer} {algorithm : Algorithm}
    (hf : (Factors.pair x y).Canonical) (hsupported : Supported algorithm)
    (hm : multiply.ExactOn may (Handed (.pair x y) algorithm))
    (hfits : may.abort ∨ Fits (.pair x y) algorithm) (into : Integer) :
    (byAlgorithm t multiply algorithm x y into).Yields may
      (·.Denotes (Factors.pair x y).magnitude) := by
  by_cases hle : y.digitCount ≤ x.digitCount
  · exact byAlgorithm_ordered hf hle hsupported hm hfits into
  · have hge : x.digitCount ≤ y.digitCount := by omega
    have hswap : byAlgorithm t multiply algorithm x y into =
        byAlgorithm t multiply algorithm y x into := by
      simp only [byAlgorithm, if_neg hle, if_pos hge]
    rw [hswap, Factors.magnitude, Nat.mul_comm]
    exact byAlgorithm_ordered ⟨hf.2, hf.1⟩ hge hsupported (handed_swap x y ▸ hm)
      (hfits.imp_right fits_swap.mpr) into

/-- Each algorithm for squares is exact. -/
theorem squareByAlgorithm_yields {x : Integer} {algorithm : Algorithm} (hx : x.Canonical)
    (hsupported : Supported algorithm)
    (hm : multiply.ExactOn may (Handed (.twice x) algorithm))
    (hfits : may.abort ∨ Fits (.twice x) algorithm) (into : Integer) :
    (squareByAlgorithm t multiply algorithm x into).Yields may
      (·.Denotes (Factors.twice x).magnitude) := by
  have hschool := hfits.imp_right And.left
  rw [Factors.magnitude, ← natAbs_toInt x]
  cases algorithm with
  | gradeSchool => exact squareGradeSchool_yields hx.denotes hschool into
  | toom15 => exact ToomCook.square2_yields hx.denotes hm.signedOn into
  | toom2 => exact ToomCook.square2_yields hx.denotes hm.signedOn into
  | toom25 => exact ToomCook.square3_yields hx.denotes hm.signedOn into
  | toom3 => exact ToomCook.square3_yields hx.denotes hm.signedOn into
  | schonhageStrassen k =>
    obtain ⟨hk, hk63⟩ := hsupported k rfl
    have h := Fermat.schonhageStrassen_yields (f := .twice x) t hk hk63 hx hm
      (hfits.imp_right fun h => h.2 k rfl)
    rwa [Factors.magnitude, ← natAbs_toInt x] at h

/-- The product of the magnitudes by a given algorithm, with further products
left to `multiply`. -/
def compute (t : Thresholds) (algorithm : Algorithm) (f : Factors) (into : Integer)
    (multiply : Multiplier) : Outcome Integer :=
  match f with
  | .pair x y => byAlgorithm t multiply algorithm x y into
  | .twice x => squareByAlgorithm t multiply algorithm x into

/-- Each algorithm is exact, for a product or a square. -/
theorem compute_yields {algorithm : Algorithm} (hf : f.Canonical) (hsupported : Supported algorithm)
    (hm : multiply.ExactOn may (Handed f algorithm)) (hfits : may.abort ∨ Fits f algorithm)
    (into : Integer) :
    (compute t algorithm f into multiply).Yields may (·.Denotes f.magnitude) := by
  cases f with
  | pair x y => exact byAlgorithm_yields hf hsupported hm hfits into
  | twice x => exact squareByAlgorithm_yields hf hsupported hm hfits into

/-- A product by a given algorithm is computed by it. -/
theorem withAlgorithm_eq_compute (t : Thresholds) (depth : Nat) (algorithm : Algorithm)
    (f : Factors) (into : Integer) : withAlgorithm t depth algorithm f into =
      compute t algorithm f into fun g => magnitudes t depth g .zero := by
  cases f <;> rfl

/-- The product of two is zero exactly if one of them is. -/
theorem isZero_or_isZero_iff {x y : Integer} (hf : (Factors.pair x y).Canonical) :
    (x.isZero || y.isZero) = true ↔ (Factors.pair x y).magnitude = 0 := by
  rw [Bool.or_eq_true, hf.1.denotes.isZero_iff, hf.2.denotes.isZero_iff, ← Int.natAbs_eq_zero,
    ← Int.natAbs_eq_zero, natAbs_toInt, natAbs_toInt, ← Nat.mul_eq_zero]
  rfl

theorem isZero_iff_twice {x : Integer} (hf : (Factors.twice x).Canonical) :
    x.isZero = true ↔ (Factors.twice x).magnitude = 0 := by
  have hx : x.Canonical := hf
  rw [hx.denotes.isZero_iff, ← Int.natAbs_eq_zero, natAbs_toInt, ← mul_self_eq_zero]
  rfl

/-- A product that is zero clears the integer that it is written into. -/
theorem magnitudes_succ_of_zero (t : Thresholds) (depth : Nat) (hf : f.Canonical)
    (hzero : f.magnitude = 0) (into : Integer) :
    magnitudes t (depth + 1) f into = .value into.cleared := by
  cases f with
  | pair x y => rw [magnitudes, if_pos ((isZero_or_isZero_iff hf).mpr hzero)]
  | twice x => rw [magnitudes, if_pos ((isZero_iff_twice hf).mpr hzero)]

/-- A product other than zero is computed by the algorithm that is chosen. -/
theorem magnitudes_succ_eq_compute (t : Thresholds) (depth : Nat) (hf : f.Canonical)
    (hne : f.magnitude ≠ 0) (into : Integer) : magnitudes t (depth + 1) f into =
      compute t (f.algorithm t) f into fun g => magnitudes t depth g .zero := by
  cases f with
  | pair x y =>
    rw [magnitudes, if_neg (mt (isZero_or_isZero_iff hf).mp hne)]
    rfl
  | twice x =>
    rw [magnitudes, if_neg (mt (isZero_iff_twice hf).mp hne)]
    rfl

/-- One level of the recursion is exact if the level below is, on what the
chosen algorithm hands on. -/
theorem magnitudes_succ_yields {depth : Nat} (hf : f.Canonical)
    (hm : Multiplier.ExactOn may (Handed f (f.algorithm t)) fun g => magnitudes t depth g .zero)
    (hfits : may.abort ∨ Fits f (f.algorithm t)) (into : Integer) :
    (magnitudes t (depth + 1) f into).Yields may (·.Denotes f.magnitude) := by
  by_cases hzero : f.magnitude = 0
  · rw [magnitudes_succ_of_zero t depth hf hzero, hzero]
    exact denotes_cleared into
  · rw [magnitudes_succ_eq_compute t depth hf hzero]
    exact compute_yields hf (supported_algorithm t f) hm hfits into

/-! ## Every level -/

/-- At every depth a value is the exact product of the magnitudes. -/
theorem magnitudes_yields (t : Thresholds) (depth : Nat) (hf : f.Canonical) (into : Integer) :
    (magnitudes t depth f into).Yields .unfailing (·.Denotes f.magnitude) := by
  induction depth generalizing f into with
  | zero => exact trivial
  | succ depth ih => exact magnitudes_succ_yields hf (fun g hg _ => ih hg .zero) (.inl trivial) into

theorem magnitudes_exactOn (t : Thresholds) (depth : Nat) (Q : Factors → Prop) :
    Multiplier.ExactOn .unfailing Q fun f => magnitudes t depth f .zero :=
  fun _ hf _ => magnitudes_yields t depth hf .zero

/-- At every depth a value is the exact product, with its sign. -/
theorem signed_yields (t : Thresholds) (depth : Nat) (hf : f.Canonical) (into : Integer) :
    (signed t depth f into).Yields .unfailing (·.Denotes f.toInt) :=
  Multiplier.ExactOn.signed (Q := fun _ => True)
    (fun _ hg _ => magnitudes_yields t depth hg into) hf trivial

/-- A product that is returned is the exact one, with its sign and canonical,
whatever the thresholds, the depth and the integer that it is written into.
No product is an error. -/
theorem signed_exact (t : Thresholds) (depth : Nat) {f : Factors} (hf : f.Canonical)
    (into : Integer) :
    (∀ e, signed t depth f into ≠ .failure e) ∧
      ∀ r, signed t depth f into = .value r → r.toInt = f.toInt ∧ r.Canonical := by
  obtain ⟨hfailure, hvalue⟩ := Outcome.yields_unfailing.mp (signed_yields t depth hf into)
  exact ⟨hfailure, fun r hr => ⟨(hvalue r hr).toInt, (hvalue r hr).canonical⟩⟩

/-- A product of two digits each by Toom-2, written over other digits. -/
theorem signed_exact_karatsuba :
    (Factors.pair ⟨true, [6, 1, 0]⟩ ⟨false, [7, 2]⟩).Canonical ∧
      signed { toom2 := 31, toom3 := 100 } 3 (.pair ⟨true, [6, 1, 0]⟩ ⟨false, [7, 2]⟩)
        ⟨true, [9]⟩ = .value ⟨true, [42, 19, 2, 0]⟩ ∧
      (⟨true, [42, 19, 2, 0]⟩ : Integer).toInt =
        (Factors.pair ⟨true, [6, 1, 0]⟩ ⟨false, [7, 2]⟩).toInt := by
  have hf : (Factors.pair ⟨true, [6, 1, 0]⟩ ⟨false, [7, 2]⟩).Canonical :=
    ⟨⟨by simp [Digits.base], fun _ => rfl⟩, ⟨by simp [Digits.base], fun _ => rfl⟩⟩
  have hrun : signed { toom2 := 31, toom3 := 100 } 3 (.pair ⟨true, [6, 1, 0]⟩ ⟨false, [7, 2]⟩)
      ⟨true, [9]⟩ = .value ⟨true, [42, 19, 2, 0]⟩ := by decide +kernel
  exact ⟨hf, hrun, ((signed_exact _ 3 hf _).2 _ hrun).1⟩

/-! ## Products by a given algorithm -/

/-- A product by any supported algorithm is exact if it returns. -/
theorem withAlgorithm_yields (t : Thresholds) (depth : Nat) {algorithm : Algorithm}
    (hsupported : Supported algorithm) (hf : f.Canonical) (into : Integer) :
    (withAlgorithm t depth algorithm f into).Yields .unfailing (·.Denotes f.magnitude) := by
  rw [withAlgorithm_eq_compute]
  exact compute_yields hf hsupported (magnitudes_exactOn t depth _) (.inl trivial) into

/-- The schoolbook product of the factors, written into `into`. -/
def schoolbook : Factors → (into : Integer) → Outcome Integer
  | .pair x y, into => Integer.mulGradeSchool x y into
  | .twice x, into => Integer.squareGradeSchool x into

/-- The schoolbook product is exact if it returns. -/
theorem schoolbook_yields (hf : f.Canonical) (into : Integer) :
    (schoolbook f into).Yields .unfailing (·.Denotes f.magnitude) := by
  cases f with
  | pair x y =>
    have hproduct : (mulGradeSchool x y into).Yields .unfailing _ :=
      mulGradeSchool_yields hf.1.denotes hf.2.denotes (.inl trivial) into
    rwa [natAbs_toInt, natAbs_toInt] at hproduct
  | twice x =>
    have hx : x.Canonical := hf
    have hsquare : (squareGradeSchool x into).Yields .unfailing _ :=
      squareGradeSchool_yields hx.denotes (.inl trivial) into
    rwa [natAbs_toInt] at hsquare

/-- A transform of other numbers of parts is an invalid argument. -/
theorem transform_unsupported (t : Thresholds) (multiply : Multiplier) {k : Nat}
    (hk : k < 2 ∨ 63 ≤ k) (f : Factors) :
    Fermat.schonhageStrassen t multiply k f = .failure (.invalidArgument
      ("schonhage-strassen needs at least 4 parts, got 2^" ++ Nat.repr k)) := by
  rw [Fermat.schonhageStrassen, if_neg]
  simp only [Bool.and_eq_true, decide_eq_true_eq]
  omega

/-- An algorithm that is not supported is refused. -/
theorem withAlgorithm_unsupported (t : Thresholds) (depth : Nat) {k : Nat}
    (hk : k < 2 ∨ 63 ≤ k) (f : Factors) (into : Integer) :
    withAlgorithm t depth (.schonhageStrassen k) f into = .failure (.invalidArgument
      ("schonhage-strassen needs at least 4 parts, got 2^" ++ Nat.repr k)) := by
  cases f with
  | pair x y => simp only [withAlgorithm, byAlgorithm, transform_unsupported t _ hk]
  | twice x => simp only [withAlgorithm, squareByAlgorithm, transform_unsupported t _ hk]

/-- Whatever a product by a given algorithm returns is canonical. -/
theorem withAlgorithm_canonical (t : Thresholds) (depth : Nat) (algorithm : Algorithm)
    (hf : f.Canonical) (into : Integer) :
    (withAlgorithm t depth algorithm f into).Yields .any Integer.Canonical := by
  by_cases hsupported : Supported algorithm
  · have hvalue := withAlgorithm_yields t depth hsupported hf into
    exact (hvalue.mono fun _ hr => hr.canonical).weaken False.elim id id
  · obtain ⟨k, rfl, hk⟩ : ∃ k, algorithm = .schonhageStrassen k ∧ ¬ (2 ≤ k ∧ k < 63) := by
      simpa [Supported] using hsupported
    rw [withAlgorithm_unsupported t depth (by omega)]
    exact trivial

/-! ## Products modulo a power of two plus one -/

/-- A product of integers from 0 to `2^e` modulo `2^e + 1` that is returned is
the representative from 0 to `2^e`, whether it comes from transforms in rings
within rings, from a plain product or from the shortcut for -1.  No product is
an error. -/
theorem product_magnitudes_exact (t : Thresholds) (depth k : Nat) {e : Nat} (he : 1 ≤ e)
    {f : Factors} (hf : Fermat.AreResidues e f) :
    (∀ err, Fermat.product t (fun g => magnitudes t depth g .zero) k e f ≠ .failure err) ∧
      ∀ r, Fermat.product t (fun g => magnitudes t depth g .zero) k e f = .value r →
        r.toInt = f.toInt % (2 ^ e + 1) ∧ r.Canonical := by
  have h := Fermat.product_exact t k he (magnitudes_exactOn t depth _) (.inl trivial) f _
    hf.represent
  obtain ⟨hfailure, hvalue⟩ := Outcome.yields_unfailing.mp h
  exact ⟨hfailure, fun r hr => ⟨(hvalue r hr).toInt_eq, (hvalue r hr).isCanonical⟩⟩

/-- The square of -2 modulo `2^16 + 1`, by transforms in the ring of exponent
12 and with the direct convolution beside them. -/
theorem product_magnitudes_exact_minus_two :
    Fermat.AreResidues 16 (.twice ⟨false, [65535]⟩) ∧
      Fermat.product { fermat := 0, check := 16 }
        (fun g => magnitudes { fermat := 0, check := 16 } 1 g .zero) 2 16
        (.twice ⟨false, [65535]⟩) = .value ⟨false, [4]⟩ ∧
      (⟨false, [4]⟩ : Integer).toInt = (Factors.twice ⟨false, [65535]⟩).toInt % (2 ^ 16 + 1) := by
  have hf : Fermat.AreResidues 16 (.twice ⟨false, [65535]⟩) :=
    ⟨⟨by simp [Digits.base], fun h => absurd h Bool.false_ne_true⟩, by decide +kernel,
      by decide +kernel⟩
  have hrun : Fermat.product { fermat := 0, check := 16 }
      (fun g => magnitudes { fermat := 0, check := 16 } 1 g .zero) 2 16
      (.twice ⟨false, [65535]⟩) = .value ⟨false, [4]⟩ := by decide +kernel
  obtain ⟨-, hvalue⟩ := product_magnitudes_exact { fermat := 0, check := 16 } 1 2
    (show 1 ≤ 16 by decide) hf
  exact ⟨hf, hrun, (hvalue _ hrun).1⟩

end Product

end Multiprecision
