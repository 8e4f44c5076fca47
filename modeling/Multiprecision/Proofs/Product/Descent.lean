import Mathlib
import Multiprecision.Proofs.Product.Termination

/-!
# Multiprecision.Proofs.Product.Descent

Products of factors that are too short for transforms end under any
thresholds, even where splits begin at one bit:

* `Asks` — what a computation wants from the multiplier that it is given;
* `SubProduct` — the products in the recursion below a product;
* `handed_of_asks` — an algorithm asks for nothing but what it hands on;
* `short_products_end` — so a product of short factors ends, and no transform
  is reached below it.

A split need not hand on shorter factors: the sum of the chunks of three
digits may have three digits.  What goes down is the sum of the magnitudes.
-/

namespace Multiprecision

/-- The multiplier, but for the product of `g`, which is refused. -/
def Multiplier.refusing (g : Factors) (multiply : Multiplier) : Multiplier :=
  fun f => if f = g then .failure (.invalidArgument "refused") else multiply f

namespace Product

open Integer

variable {may : Endings} {multiply : Multiplier} {t : Thresholds} {f g : Factors}
variable {algorithm : Algorithm}

/-! ## What is asked for -/

/-- The computation asks its multiplier for the product of `g`: if that is
refused the computation fails, although no other product does. -/
def Asks (body : Multiplier → Outcome Integer) (g : Factors) : Prop :=
  ∃ multiply : Multiplier, multiply.ExactOn .unfailing (fun _ => True) ∧
    ∃ e, body (multiply.refusing g) = .failure e

/-- The products in the recursion below a product by `algorithm`: those that it
asks for, and those that they ask for in their turn, by the algorithms that
are chosen for them. -/
inductive SubProduct (t : Thresholds) (algorithm : Algorithm) (f : Factors) : Factors → Prop
  | direct {g : Factors} {into : Integer} :
      Asks (compute t algorithm f into) g → SubProduct t algorithm f g
  | further {g h : Factors} {into : Integer} : SubProduct t algorithm f g →
      Asks (compute t (g.algorithm t) g into) h → SubProduct t algorithm f h

/-- An algorithm asks for nothing but what it hands on: any other product may as
well be refused. -/
theorem handed_of_asks (hf : f.Canonical) (hsupported : Supported algorithm) {into : Integer}
    (h : Asks (compute t algorithm f into) g) : g.Canonical ∧ Handed f algorithm g := by
  obtain ⟨multiply, hexact, e, hfailure⟩ := h
  by_contra hnot
  have hm : (multiply.refusing g).ExactOn .unfailing (Handed f algorithm) := by
    intro g' hg' hhanded
    have hne : g' ≠ g := by
      rintro rfl
      exact hnot ⟨hg', hhanded⟩
    rw [Multiplier.refusing, if_neg hne]
    exact hexact g' hg' trivial
  have hyields := compute_yields (t := t) hf hsupported hm (.inl trivial) into
  rw [hfailure] at hyields
  exact hyields

/-! ## Short factors -/

/-- The algorithm is none of the transforms. -/
def IsShort (algorithm : Algorithm) : Prop := ∀ k, algorithm ≠ .schonhageStrassen k

theorem IsShort.supported (h : IsShort algorithm) : Supported algorithm :=
  fun k hk => absurd hk (h k)

/-- Factors below the bound for transforms are not given to one, whatever the
other bounds are. -/
theorem isShort_algorithm (h : Fermat.longest f < t.transform64) : IsShort (f.algorithm t) := by
  intro k
  cases f with
  | pair x y =>
    rw [Fermat.longest] at h
    rw [Factors.algorithm, Algorithm.forProduct]
    generalize max x.bitLength y.bitLength = large at h
    split_ifs <;> simp
  | twice x =>
    rw [Fermat.longest] at h
    rw [Factors.algorithm, Algorithm.forSquare]
    split_ifs <;> simp

/-- What goes down: a split hands on no larger factors, which weigh less. -/
theorem IsShort.lesser (h : IsShort algorithm) (hg : Handed f algorithm g) :
    ToomCook.Lesser f g := by
  cases algorithm with
  | gradeSchool => exact hg.elim
  | schonhageStrassen k => exact absurd rfl (h k)
  | toom15 | toom2 | toom25 | toom3 => exact hg.2

/-- In bits and digits what it hands on is only no longer. -/
theorem IsShort.handed (h : IsShort algorithm) (hf : f.Canonical) (hg : g.Canonical)
    (hhanded : Handed f algorithm g) : Fermat.longest g ≤ Fermat.longest f ∧
      g.weight < f.weight ∧ g.digitCount ≤ f.digitCount := by
  obtain ⟨hlargest, hweight⟩ := h.lesser hhanded
  refine ⟨?_, hweight, ?_⟩
  · rw [Factors.longest_eq_size hf, Factors.longest_eq_size hg]
    exact Nat.size_le_size hlargest
  · have hbound := (Factors.digitCount_le_iff hf).mp le_rfl
    exact (Factors.digitCount_le_iff hg).mpr (hlargest.trans_lt hbound)

/-- Whatever is no transform needs only the schoolbook products to fit. -/
theorem IsShort.fits (h : IsShort algorithm)
    (hcount : may.abort ∨ f.digitCount ≤ Digits.maxTerms) : may.abort ∨ Fits f algorithm :=
  hcount.imp_right fun hle => ⟨Factors.fits_of_digitCount_le hle, fun k hk => absurd hk (h k)⟩

/-! ## Products of short factors -/

/-- A depth above the weight of the factors is enough. -/
theorem magnitudes_short (hshort : Fermat.longest f < t.transform64) {depth : Nat}
    (hf : f.Canonical) (hdepth : f.weight < depth)
    (hcount : may.abort ∨ f.digitCount ≤ Digits.maxTerms) (into : Integer) :
    (magnitudes t depth f into).Yields may (·.Denotes f.magnitude) := by
  -- Lengths may stay as they are on the way down, so the weight bounds the depth.
  induction depth generalizing f into with
  | zero => exact absurd hdepth (Nat.not_lt_zero _)
  | succ depth ih =>
    have hchosen := isShort_algorithm hshort
    refine magnitudes_succ_yields hf (fun g hg hhanded => ?_) (hchosen.fits hcount) into
    obtain ⟨hlongest, hweight, hdigits⟩ := hchosen.handed hf hg hhanded
    refine ih (hlongest.trans_lt hshort) hg ?_ (hcount.imp_right hdigits.trans) .zero
    exact hweight.trans_le (Nat.le_of_lt_succ hdepth)

/-- The first algorithm may be any that splits. -/
theorem withAlgorithm_short (hshort : Fermat.longest f < t.transform64)
    (halgorithm : IsShort algorithm) {depth : Nat} (hf : f.Canonical) (hdepth : f.weight ≤ depth)
    (hcount : may.abort ∨ f.digitCount ≤ Digits.maxTerms) (into : Integer) :
    (withAlgorithm t depth algorithm f into).Yields may (·.Denotes f.magnitude) := by
  rw [withAlgorithm_eq_compute]
  refine compute_yields hf halgorithm.supported (fun g hg hhanded => ?_) (halgorithm.fits hcount)
    into
  obtain ⟨hlongest, hweight, hdigits⟩ := halgorithm.handed hf hg hhanded
  exact magnitudes_short (hlongest.trans_lt hshort) hg (hweight.trans_le hdepth)
    (hcount.imp_right hdigits.trans) .zero

/-- All products in the recursion below a product of short factors are such. -/
theorem SubProduct.short (hshort : Fermat.longest f < t.transform64) (hf : f.Canonical)
    (halgorithm : IsShort algorithm) (h : SubProduct t algorithm f g) :
    g.Canonical ∧ Fermat.longest g < t.transform64 := by
  induction h with
  | direct hasks =>
    obtain ⟨hg, hhanded⟩ := handed_of_asks hf halgorithm.supported hasks
    exact ⟨hg, (halgorithm.handed hf hg hhanded).1.trans_lt hshort⟩
  | further _ hasks ih =>
    obtain ⟨hg, hgshort⟩ := ih
    have hchosen := isShort_algorithm hgshort
    obtain ⟨hh, hhanded⟩ := handed_of_asks hg hchosen.supported hasks
    exact ⟨hh, (hchosen.handed hg hh hhanded).1.trans_lt hgshort⟩

/-- A run of a product of `f` may stop in a machine word if there are more
digits than those of a schoolbook product may be. -/
def stopping (f : Factors) : Endings := ⟨False, Digits.maxTerms < f.digitCount, False⟩

/-- Products and squares of factors below the bound for transforms end, with
the exact value, and so do those by a given algorithm that splits.  No transform
is reached in the recursion.  The thresholds are arbitrary. -/
theorem short_products_end (t : Thresholds) {f : Factors} (hf : f.Canonical)
    (hshort : Fermat.longest f < t.transform64) :
    (∀ depth, f.weight < depth → ∀ into,
      (magnitudes t depth f into).Yields (stopping f) (·.Denotes f.magnitude) ∧
        (signed t depth f into).Yields (stopping f) (·.Denotes f.toInt)) ∧
    (∀ algorithm, IsShort algorithm → ∀ depth, f.weight ≤ depth → ∀ into,
      (withAlgorithm t depth algorithm f into).Yields (stopping f) (·.Denotes f.magnitude)) ∧
    IsShort (f.algorithm t) ∧
    ∀ algorithm, IsShort algorithm → ∀ g, SubProduct t algorithm f g →
      IsShort (g.algorithm t) := by
  have hcount : (stopping f).abort ∨ f.digitCount ≤ Digits.maxTerms :=
    Nat.lt_or_ge Digits.maxTerms f.digitCount
  refine ⟨fun depth hdepth into => ?_, fun algorithm halgorithm depth hdepth into => ?_,
    isShort_algorithm hshort, fun algorithm halgorithm g hg => ?_⟩
  · have hmagnitudes := magnitudes_short hshort hf hdepth hcount into
    exact ⟨hmagnitudes, hmagnitudes.bind fun _ hp => Multiplier.denotes_product hf hp⟩
  · exact withAlgorithm_short hshort halgorithm hf hdepth hcount into
  · exact isShort_algorithm (hg.short hshort hf halgorithm).2

/-- The square of three digits that are cut after the first: the sum of the
chunks has three digits too. -/
theorem short_products_end_three :
    (Factors.twice ⟨false, [1073741823, 1073741823, 1073741823]⟩).Canonical ∧
      SubProduct { toom2 := 0, toom3 := 0 } .toom2
        (.twice ⟨false, [1073741823, 1073741823, 1073741823]⟩)
        (.twice ⟨false, [1073741822, 0, 1]⟩) ∧
      ∃ r, signed { toom2 := 0, toom3 := 0 } (Digits.base ^ 3)
        (.twice ⟨false, [1073741823, 1073741823, 1073741823]⟩) .zero = .value r := by
  have hf : (Factors.twice ⟨false, [1073741823, 1073741823, 1073741823]⟩).Canonical :=
    ⟨by simp [Digits.base], fun h => absurd h Bool.false_ne_true⟩
  have hshort : Fermat.longest (.twice ⟨false, [1073741823, 1073741823, 1073741823]⟩) <
      ({ toom2 := 0, toom3 := 0 } : Thresholds).transform64 := by decide
  have hasks : Asks (compute { toom2 := 0, toom3 := 0 } .toom2
      (.twice ⟨false, [1073741823, 1073741823, 1073741823]⟩) .zero)
      (.twice ⟨false, [1073741822, 0, 1]⟩) :=
    ⟨fun g => schoolbook g .zero, fun g hg _ => schoolbook_yields hg .zero,
      .invalidArgument "refused", by decide +kernel⟩
  obtain ⟨hend, -, -, -⟩ := short_products_end { toom2 := 0, toom3 := 0 } hf hshort
  obtain ⟨-, hsigned⟩ := hend (Digits.base ^ 3) (by decide) .zero
  have hfew : ¬ Digits.maxTerms < 3 := by decide
  obtain ⟨r, hr, -⟩ := Outcome.yields_returning.mp (hsigned.weaken id hfew id)
  exact ⟨hf, .direct hasks, r, hr⟩

end Product

end Multiprecision
