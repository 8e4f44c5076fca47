import Mathlib
import Multiprecision.Product.Factors
import Multiprecision.Proofs.Digits.Product
import Multiprecision.Proofs.Integer
import Multiprecision.Proofs.Outcome

/-!
# Multiprecision.Proofs.Product.Factors

What a multiplier promises, and the schoolbook product as the first one that
keeps the promise:

* `Multiplier.ExactOn` — values are exact products of the magnitudes, for
  the factors of a given kind;
* `Multiplier.ExactOn.signed` — then signed values are exact products;
* `Multiplier.SignedOn` — signed values and squares are exact, which is all
  that the splitting algorithms ask for;
* `Integer.mulGradeSchool_yields` — schoolbook products are exact, and only
  operands past `Digits.maxTerms` digits can stop one.
-/

namespace Multiprecision

open Integer

namespace Factors

/-- The factors are canonical. -/
def Canonical : Factors → Prop
  | pair x y => x.Canonical ∧ y.Canonical
  | twice x => x.Canonical

/-- The larger of the magnitudes. -/
def largest : Factors → Nat
  | pair x y => max x.magnitude y.magnitude
  | twice x => x.magnitude

/-- The magnitudes taken together; a factor that is used twice counts once. -/
def weight : Factors → Nat
  | pair x y => x.magnitude + y.magnitude
  | twice x => x.magnitude

/-- A schoolbook product of the factors fits its words. -/
def Fits : Factors → Prop
  | pair x y => min x.digitCount y.digitCount ≤ Digits.maxTerms
  | twice x => x.digitCount ≤ Digits.maxTerms

/-- The magnitude of a product is its absolute value. -/
theorem natAbs_toInt (f : Factors) : f.toInt.natAbs = f.magnitude := by
  cases f <;> simp only [toInt, magnitude, Int.natAbs_mul, Integer.natAbs_toInt]

/-- The larger magnitude of two factors, by their values. -/
theorem largest_pair {x y : Integer} {i j : Int} (hx : x.Denotes i) (hy : y.Denotes j) :
    (pair x y).largest = max i.natAbs j.natAbs := by
  rw [largest, hx.magnitude, hy.magnitude]

theorem largest_twice {x : Integer} {i : Int} (hx : x.Denotes i) :
    (twice x).largest = i.natAbs := by
  rw [largest, hx.magnitude]

/-- What two factors weigh, by their values. -/
theorem weight_pair {x y : Integer} {i j : Int} (hx : x.Denotes i) (hy : y.Denotes j) :
    (pair x y).weight = i.natAbs + j.natAbs := by
  rw [weight, hx.magnitude, hy.magnitude]

theorem weight_twice {x : Integer} {i : Int} (hx : x.Denotes i) :
    (twice x).weight = i.natAbs := by
  rw [weight, hx.magnitude]

theorem Canonical.pair {x y : Integer} {i j : Int} (hx : x.Denotes i) (hy : y.Denotes j) :
    (Factors.pair x y).Canonical := ⟨hx.canonical, hy.canonical⟩

end Factors

/-! ## Multipliers -/

namespace Multiplier

variable {may : Endings} {Q : Factors → Prop} {multiply : Multiplier}
variable {x y : Integer} {i j : Int}

/-- Values of the multiplier are exact products of the magnitudes, for the
factors for which `Q` holds. -/
def ExactOn (may : Endings) (Q : Factors → Prop) (multiply : Multiplier) : Prop :=
  ∀ f, f.Canonical → Q f → (multiply f).Yields may (·.Denotes f.magnitude)

theorem ExactOn.mono {Q' : Factors → Prop} (h : ExactOn may Q multiply)
    (hQ : ∀ f, Q' f → Q f) : ExactOn may Q' multiply :=
  fun f hf hQ' => h f hf (hQ f hQ')

/-- The sign of a product of canonical factors. -/
theorem negative_eq {f : Factors} (hf : f.Canonical) (hne : f.toInt ≠ 0) :
    f.negative = decide (f.toInt < 0) := by
  cases f with
  | pair x y =>
    rw [Factors.toInt] at hne ⊢
    rw [Factors.negative, hf.1.denotes.negative, hf.2.denotes.negative]
    have hx := left_ne_zero_of_mul hne
    have hy := right_ne_zero_of_mul hne
    by_cases hxs : x.toInt < 0 <;> by_cases hys : y.toInt < 0
    · simp [hxs, hys, mul_nonneg_of_nonpos_of_nonpos hxs.le hys.le]
    · simp [hxs, hys, mul_neg_of_neg_of_pos hxs (by omega : 0 < y.toInt)]
    · simp [hxs, hys, mul_neg_of_pos_of_neg (by omega : 0 < x.toInt) hys]
    · simp [hxs, hys, mul_nonneg (not_lt.mp hxs) (not_lt.mp hys)]
  | twice x =>
    rw [Factors.negative, Factors.toInt]
    simp [mul_self_nonneg]

/-- A magnitude that is given the sign of the product is the product. -/
theorem denotes_product {f : Factors} (hf : f.Canonical) {p : Integer}
    (hp : p.Denotes f.magnitude) :
    ({ p with negative := f.negative } : Integer).normalizeSign.Denotes f.toInt := by
  have hsigned := denotes_withSign (s := f.negative) hp.inRange hp.value_digits
  convert hsigned using 1
  rw [Int.natAbs_natCast, ← f.natAbs_toInt]
  rcases eq_or_ne f.toInt 0 with hzero | hne
  · simp [hzero]
  · rw [negative_eq hf hne]
    split
    · next hneg =>
      rw [Int.ofNat_natAbs_of_nonpos (of_decide_eq_true hneg).le, neg_neg]
    · next hneg =>
      rw [decide_eq_true_eq, not_lt] at hneg
      rw [Int.natAbs_of_nonneg hneg]

/-- The signed products of an exact multiplier are exact. -/
theorem ExactOn.signed (h : ExactOn may Q multiply) {f : Factors} (hf : f.Canonical)
    (hQ : Q f) : (multiply.signed f).Yields may (·.Denotes f.toInt) :=
  (h f hf hQ).bind fun _ hp => denotes_product hf hp

/-- The signed product of two factors, by their values. -/
theorem ExactOn.signed_pair (h : ExactOn may Q multiply) (hx : x.Denotes i) (hy : y.Denotes j)
    (hQ : Q (.pair x y)) : (multiply.signed (.pair x y)).Yields may (·.Denotes (i * j)) := by
  have hsigned := h.signed (.pair hx hy) hQ
  rwa [Factors.toInt, hx.toInt, hy.toInt] at hsigned

theorem ExactOn.twice (h : ExactOn may Q multiply) (hx : x.Denotes i) (hQ : Q (.twice x)) :
    (multiply (.twice x)).Yields may (·.Denotes (i * i)) := by
  have hsquare := h (.twice x) hx.canonical hQ
  rwa [Factors.magnitude, hx.magnitude, Nat.cast_mul, Int.natAbs_mul_self'] at hsquare

/-- Signed values of the multiplier are exact products and its squares are
exact, for the factors for which `Q` holds. -/
structure SignedOn (may : Endings) (Q : Factors → Prop) (multiply : Multiplier) : Prop where
  pair : ∀ {x y : Integer} {i j : Int}, x.Denotes i → y.Denotes j → Q (.pair x y) →
    (multiply.signed (.pair x y)).Yields may (·.Denotes (i * j))
  twice : ∀ {x : Integer} {i : Int}, x.Denotes i → Q (.twice x) →
    (multiply (.twice x)).Yields may (·.Denotes (i * i))

/-- A multiplier that is exact on magnitudes is so on signed factors. -/
theorem ExactOn.signedOn (h : ExactOn may Q multiply) : SignedOn may Q multiply where
  pair := h.signed_pair
  twice := h.twice

/-- A multiplier that always returns may as well be allowed to end otherwise. -/
theorem SignedOn.of_returning (h : SignedOn .returning (fun _ => True) multiply) :
    SignedOn may Q multiply where
  pair hx hy _ := (h.pair hx hy trivial).weaken False.elim False.elim False.elim
  twice hx _ := (h.twice hx trivial).weaken False.elim False.elim False.elim

end Multiplier

/-! ## Schoolbook products -/

namespace Integer

variable {may : Endings} {x y : Integer} {i j : Int}

/-- Digits that write a number, once they are computed, make an integer. -/
theorem overwrite_yields {ds? : Option (List Digit)} {n : Nat}
    (hexists : may.abort ∨ ∃ ds, ds? = some ds)
    (hvalue : ∀ ds, ds? = some ds → Digits.value ds = n ∧ Digits.InRange ds) (into : Integer) :
    (do return into.overwrite (← Outcome.ofChecked ds?) : Outcome Integer).Yields may
      (·.Denotes n) := by
  refine (Outcome.Yields.ofChecked ?_ hvalue).bind fun ds ⟨hv, hr⟩ => ?_
  · rintro rfl
    exact hexists.resolve_right (by simp)
  · exact hv ▸ denotes_overwrite into hr

/-- A schoolbook product is exact; only a long operand can stop it. -/
theorem mulGradeSchool_yields (hx : x.Denotes i) (hy : y.Denotes j)
    (hfits : may.abort ∨ (Factors.pair x y).Fits) (into : Integer) :
    (mulGradeSchool x y into).Yields may (·.Denotes (i.natAbs * j.natAbs : Nat)) := by
  obtain ⟨hxr, hxv⟩ := hx.significant
  obtain ⟨hyr, hyv⟩ := hy.significant
  refine overwrite_yields (hfits.imp_right (Digits.product_isSome hxr hyr)) ?_ into
  intro ds hsome
  have hds := Digits.value_product hxr hyr hsome
  rwa [hxv, hyv] at hds

/-- A schoolbook square is exact; only a long operand can stop it. -/
theorem squareGradeSchool_yields (hx : x.Denotes i)
    (hfits : may.abort ∨ (Factors.twice x).Fits) (into : Integer) :
    (squareGradeSchool x into).Yields may (·.Denotes (i.natAbs * i.natAbs : Nat)) := by
  obtain ⟨hxr, hxv⟩ := hx.significant
  refine overwrite_yields (hfits.imp_right (Digits.square_isSome hxr)) ?_ into
  intro ds hsome
  have hds := Digits.value_square hxr hsome
  rwa [hxv] at hds

end Integer

end Multiprecision
