import Mathlib
import Multiprecision.Proofs.Fermat.Convolution

/-!
# Multiprecision.Proofs.Fermat.Negacyclic

What the direct convolution computes for entries of any sign:

* `IsNegacyclicProduct` — the coefficients of a product modulo `X^n + 1`, entry
  by entry; `IsNegacyclicProduct.polynomial_eq` and
  `IsNegacyclicProduct.eval_modEq` say the same of polynomials and of values;
* `negacyclic_eq_abs` — the convolution does not see signs;
* `negacyclic_exact_iff` — so it is that of the absolute values, and the
  product of the signed sequences only where the terms below zero cancel.
-/

namespace Multiprecision

open Polynomial

/-! ## Products modulo `X^n + 1` -/

namespace Coefficients

open Finset

variable {n c : Nat} {as bs cs : List Int}

/-- The sum of the terms `aᵢ·bⱼ` with `i + j = c`. -/
def column (as bs : List Int) (c : Nat) : Int :=
  ∑ p ∈ antidiagonal c, as.getD p.1 0 * bs.getD p.2 0

/-- The numbers `cs` are the coefficients of a product modulo `X^n + 1`: the terms
`aᵢ·bⱼ` with `i + j = c`, less those with `i + j = c + n`. -/
def IsNegacyclicProduct (n : Nat) (as bs cs : List Int) : Prop :=
  cs.length = n ∧ ∀ c < n, cs.getD c 0 = column as bs c - column as bs (c + n)

/-- A column is a coefficient of the product of the polynomials. -/
theorem coeff_mul_eq_column (as bs : List Int) (c : Nat) :
    (polynomial as * polynomial bs).coeff c = column as bs c := by
  simp [coeff_mul, column]

/-- The terms past `X^n`, the quotient by `X^n + 1`. -/
noncomputable def upper (n : Nat) (as bs : List Int) : Int[X] :=
  polynomial ((List.range n).map fun c => column as bs (c + n))

/-- The quotient has the columns from `n` on as its coefficients. -/
theorem coeff_upper (n : Nat) (as bs : List Int) (c : Nat) :
    (upper n as bs).coeff c = if c < n then column as bs (c + n) else 0 := by
  rw [upper, coeff_polynomial, List.getD_eq_getElem?_getD, List.getElem?_map]
  split
  · next hlt => simp [List.getElem?_range hlt]
  · next hge => simp [List.getElem?_eq_none (by simpa using hge : (List.range n).length ≤ c)]

/-- There are no terms past twice the length. -/
theorem column_eq_zero (ha : as.length = n) (hb : bs.length = n) (hc : n + n ≤ c) :
    column as bs c = 0 := by
  refine sum_eq_zero fun p hp => ?_
  rw [HasAntidiagonal.mem_antidiagonal] at hp
  rcases Nat.lt_or_ge p.1 n with hlt | hge
  · rw [List.getD_eq_default bs 0 (by omega), mul_zero]
  · rw [List.getD_eq_default as 0 (by omega), zero_mul]

/-- The product is its remainder and a multiple of `X^n + 1`. -/
theorem IsNegacyclicProduct.add_upper (h : IsNegacyclicProduct n as bs cs) (ha : as.length = n)
    (hb : bs.length = n) :
    polynomial cs + (X ^ n + 1) * upper n as bs = polynomial as * polynomial bs := by
  obtain ⟨hlen, hentry⟩ := h
  ext c
  rw [coeff_mul_eq_column, add_mul, one_mul, coeff_add, coeff_add, coeff_X_pow_mul',
    coeff_polynomial, coeff_upper, coeff_upper]
  rcases Nat.lt_or_ge c n with hlt | hge
  · rw [hentry c hlt, if_neg (by omega), if_pos hlt]
    ring
  · rw [List.getD_eq_default cs 0 (by omega), if_pos hge, if_neg (by omega : ¬c < n),
      Nat.sub_add_cancel hge]
    split
    · ring
    · rw [column_eq_zero ha hb (by omega)]
      ring

/-- The polynomial is the remainder of the product by `X^n + 1`. -/
theorem IsNegacyclicProduct.polynomial_eq (h : IsNegacyclicProduct n as bs cs)
    (ha : as.length = n) (hb : bs.length = n) :
    polynomial cs = (polynomial as * polynomial bs) %ₘ (X ^ n + 1) := by
  rcases Nat.eq_zero_or_pos n with rfl | hn
  · obtain rfl := List.length_eq_zero_iff.mp h.1
    obtain rfl := List.length_eq_zero_iff.mp ha
    simp
  · have hmonic : (X ^ n + 1 : Int[X]).Monic := monic_X_pow_add_C 1 hn.ne'
    refine ((div_modByMonic_unique (upper n as bs) _ hmonic
      ⟨h.add_upper ha hb, ?_⟩).2).symm
    have hdegree : (X ^ n + 1 : Int[X]).degree = n := degree_X_pow_add_C hn 1
    rw [hdegree, degree_lt_iff_coeff_zero]
    intro c hc
    rw [coeff_polynomial, List.getD_eq_default cs 0 (by rw [h.1]; exact hc)]

/-- The values at `2^M` agree modulo `2^(n·M) + 1`. -/
theorem IsNegacyclicProduct.eval_modEq (h : IsNegacyclicProduct n as bs cs)
    (ha : as.length = n) (hb : bs.length = n) (M : Nat) :
    (polynomial cs).eval (2 ^ M) ≡
      (polynomial as).eval (2 ^ M) * (polynomial bs).eval (2 ^ M) [ZMOD 2 ^ (n * M) + 1] := by
  have heval := congrArg (eval (2 ^ M)) (h.add_upper ha hb)
  rw [eval_add, eval_mul, eval_mul, eval_add, eval_pow, eval_X, eval_one, ← pow_mul,
    Nat.mul_comm M n] at heval
  rw [← heval]
  exact (Int.modEq_iff_dvd.mpr (by rw [add_sub_cancel_left]; exact dvd_mul_right _ _))

/-! ### Signs -/

/-- The absolute values. -/
def absolute (as : List Int) : List Int := as.map abs

@[simp] theorem length_absolute (as : List Int) : (absolute as).length = as.length :=
  List.length_map _

/-- Absolute values are taken entry by entry. -/
theorem getD_absolute (as : List Int) (i : Nat) : (absolute as).getD i 0 = |as.getD i 0| := by
  rw [absolute, ← abs_zero, List.getD_map, abs_zero]

/-- The sum of the sizes of the terms `aᵢ·bⱼ` below zero with `i + j = c`. -/
def negativeWeight (as bs : List Int) (c : Nat) : Int :=
  ∑ p ∈ antidiagonal c with as.getD p.1 0 * bs.getD p.2 0 < 0, |as.getD p.1 0 * bs.getD p.2 0|

/-- Absolute values count every term below zero the other way round. -/
theorem column_abs (as bs : List Int) (c : Nat) :
    column (absolute as) (absolute bs) c = column as bs c + 2 * negativeWeight as bs c := by
  rw [column, column, negativeWeight, sum_filter, mul_sum, ← sum_add_distrib]
  refine sum_congr rfl fun p _ => ?_
  rw [getD_absolute, getD_absolute, ← abs_mul]
  split
  · next hneg =>
    rw [abs_of_neg hneg]
    ring
  · next hnonneg =>
    rw [abs_of_nonneg (not_lt.mp hnonneg), mul_zero, add_zero]

/-- The product of the absolute values is that of the signed sequences where the
terms below zero weigh the same in the columns that are taken from each other. -/
theorem IsNegacyclicProduct.signed_iff
    (h : IsNegacyclicProduct n (absolute as) (absolute bs) cs) :
    IsNegacyclicProduct n as bs cs ↔
      ∀ c < n, negativeWeight as bs c = negativeWeight as bs (c + n) := by
  rw [IsNegacyclicProduct, and_iff_right h.1]
  refine forall₂_congr fun c hc => ?_
  rw [h.2 c hc, column_abs, column_abs]
  constructor <;> intro heq <;> linarith

end Coefficients

/-! ## The direct convolution -/

namespace Fermat

open Integer Coefficients

variable {xs ys : List Integer} {n : Nat}

/-- A schoolbook product is one of magnitudes. -/
theorem mulGradeSchool_abs (x y into : Integer) :
    mulGradeSchool x.abs y.abs into = mulGradeSchool x y into := rfl

/-- The products that are folded do not see the signs of their factors. -/
theorem foldProducts_abs (combine : Integer → Integer → Integer) (xs ys : List Integer)
    (sum : Integer) :
    foldProducts combine (xs.map Integer.abs) (ys.map Integer.abs) sum =
      foldProducts combine xs ys sum := by
  induction xs generalizing ys sum with
  | nil => cases ys <;> rfl
  | cons x xs ih =>
    cases ys with
    | nil => rfl
    | cons y ys => simp only [List.map_cons, foldProducts, mulGradeSchool_abs, ih]

/-- The convolution does not see signs. -/
theorem negacyclic_eq_abs (xs ys : List Integer) :
    negacyclic (xs.map Integer.abs) (ys.map Integer.abs) = negacyclic xs ys := by
  have hcoefficient (xs ys : List Integer) :
      negacyclicCoefficient (xs.map Integer.abs) (ys.map Integer.abs) =
        negacyclicCoefficient xs ys := by
    funext c
    simp only [negacyclicCoefficient, ← List.map_take, ← List.map_drop, ← List.map_reverse,
      foldProducts_abs]
  simp only [negacyclic, List.length_map, ← List.map_take, hcoefficient]

/-- The absolute values of canonical integers are their magnitudes. -/
theorem denoteAll_abs (h : ∀ x ∈ xs, x.Canonical) :
    DenoteAll (xs.map Integer.abs) (xs.map Integer.magnitude) := by
  rw [DenoteAll, List.forall₂_map_left_iff, List.forall₂_map_right_iff, List.forall₂_same]
  intro x hx
  rw [← natAbs_toInt]
  exact (h x hx).denotes.abs_natAbs

/-- The magnitudes are the absolute values of the integers. -/
theorem ints_magnitude (xs : List Integer) :
    ints (xs.map Integer.magnitude) = absolute (xs.map toInt) := by
  rw [ints, absolute, List.map_map, List.map_map]
  refine List.map_congr_left fun x _ => ?_
  rw [Function.comp_apply, Function.comp_apply, ← natAbs_toInt, Int.abs_eq_natAbs]

/-- Entries with the values of the coefficients are those of the product. -/
theorem isNegacyclicProduct_of_denote {as bs : List Int} {cs : List Integer}
    (h : List.Forall₂ (fun c z => z.Denotes (Coefficients.negacyclic n as bs c))
      (List.range n) cs) :
    (∀ z ∈ cs, z.Canonical) ∧ IsNegacyclicProduct n as bs (cs.map toInt) := by
  obtain ⟨hlen, hentry⟩ := List.forall₂_iff_get.mp h
  rw [List.length_range] at hlen
  refine ⟨fun z hz => ?_, by rw [List.length_map, hlen], fun c hc => ?_⟩
  · obtain ⟨c, hc, rfl⟩ := List.getElem_of_mem hz
    exact (hentry c (by simpa [hlen] using hc) hc).canonical
  · have hz := hentry c (by simpa using hc) (hlen ▸ hc)
    rw [List.getD_eq_getElem _ _ (by simpa [← hlen] using hc), List.getElem_map]
    rw [List.get_eq_getElem, List.get_eq_getElem, List.getElem_range] at hz
    rw [hz.toInt, Coefficients.negacyclic, coeff_mul_eq_column, coeff_mul_eq_column]

/-- Only an entry of the first sequence that is too long for the words of a
schoolbook product stops the convolution. -/
theorem negacyclic_product_yields (hx : ∀ x ∈ xs, x.Canonical) (hy : ∀ y ∈ ys, y.Canonical)
    (hxs : xs.length = n) (hys : ys.length = n) :
    (negacyclic xs ys).Yields ⟨False, ∃ x ∈ xs, Digits.maxTerms < x.digitCount, False⟩ fun cs =>
      (∀ z ∈ cs, z.Canonical) ∧
        IsNegacyclicProduct n (absolute (xs.map toInt)) (absolute (ys.map toInt))
          (cs.map toInt) := by
  have hfits : (∃ x ∈ xs, Digits.maxTerms < x.digitCount) ∨ FitAll (xs.map Integer.abs) := by
    by_cases hlong : ∃ x ∈ xs, Digits.maxTerms < x.digitCount
    · exact .inl hlong
    · refine .inr fun y hy => ?_
      obtain ⟨x, hx, rfl⟩ := List.mem_map.mp hy
      exact not_lt.mp fun hlt => hlong ⟨x, hx, hlt⟩
  rw [← negacyclic_eq_abs, ← ints_magnitude, ← ints_magnitude]
  exact (negacyclic_yields (denoteAll_abs hx) (denoteAll_abs hy) (by simpa) (by simpa)
    hfits).mono fun cs => isNegacyclicProduct_of_denote

/-- The direct convolution of two sequences of `n` numbers is the product modulo
`X^n + 1` of the sequences of absolute values, as a polynomial and at every power
of two.  It is that of the signed sequences exactly where in columns `c` and
`c + n` the terms below zero weigh the same.  Nothing but a number of more
digits than a schoolbook product has room for can stop it. -/
theorem negacyclic_exact_iff (hx : ∀ x ∈ xs, x.Canonical) (hy : ∀ y ∈ ys, y.Canonical)
    (hxs : xs.length = n) (hys : ys.length = n) :
    (∃ cs, negacyclic xs ys = .value cs ∧ (∀ z ∈ cs, z.Canonical) ∧
      IsNegacyclicProduct n (absolute (xs.map toInt)) (absolute (ys.map toInt)) (cs.map toInt) ∧
      polynomial (cs.map toInt) =
        (polynomial (absolute (xs.map toInt)) * polynomial (absolute (ys.map toInt)))
          %ₘ (X ^ n + 1) ∧
      (∀ M : Nat, (polynomial (cs.map toInt)).eval (2 ^ M) ≡
        (polynomial (absolute (xs.map toInt))).eval (2 ^ M) *
          (polynomial (absolute (ys.map toInt))).eval (2 ^ M) [ZMOD 2 ^ (n * M) + 1]) ∧
      (IsNegacyclicProduct n (xs.map toInt) (ys.map toInt) (cs.map toInt) ↔
        ∀ c < n, negativeWeight (xs.map toInt) (ys.map toInt) c =
          negativeWeight (xs.map toInt) (ys.map toInt) (c + n))) ∨
    (negacyclic xs ys = .aborted ∧ ∃ x ∈ xs, Digits.maxTerms < x.digitCount) := by
  have hyields := negacyclic_product_yields hx hy hxs hys
  cases hrun : negacyclic xs ys with
  | value cs =>
    obtain ⟨hcanonical, hproduct⟩ := hyields.of_value hrun
    have hxlen : (absolute (xs.map toInt)).length = n := by simpa
    have hylen : (absolute (ys.map toInt)).length = n := by simpa
    exact .inl ⟨cs, rfl, hcanonical, hproduct, hproduct.polynomial_eq hxlen hylen,
      hproduct.eval_modEq hxlen hylen, hproduct.signed_iff⟩
  | failure e =>
    rw [hrun] at hyields
    exact hyields.elim
  | aborted =>
    rw [hrun] at hyields
    exact .inr ⟨rfl, hyields⟩
  | exhausted =>
    rw [hrun] at hyields
    exact hyields.elim

/-- The sequences -1, 2 and 3, -4, one number with a place in reserve.  The
product is `5 + 10·X` modulo `X² + 1`, and the convolution is `-5 + 10·X`: the
term -3 of column 0 and the term -8 of column 2 do not cancel. -/
theorem negacyclic_exact_iff_minus_five :
    ∃ xs ys cs : List Integer, xs = [⟨true, [1, 0]⟩, ⟨false, [2]⟩] ∧
      ys = [⟨false, [3]⟩, ⟨true, [4]⟩] ∧ (∀ x ∈ xs, x.Canonical) ∧ (∀ y ∈ ys, y.Canonical) ∧
      xs.length = 2 ∧ ys.length = 2 ∧ negacyclic xs ys = .value cs ∧ cs.map toInt = [-5, 10] ∧
      IsNegacyclicProduct 2 [1, 2] [3, 4] [-5, 10] ∧
      IsNegacyclicProduct 2 [-1, 2] [3, -4] [5, 10] ∧
      ¬IsNegacyclicProduct 2 [-1, 2] [3, -4] [-5, 10] := by
  have hx : ∀ x ∈ ([⟨true, [1, 0]⟩, ⟨false, [2]⟩] : List Integer), x.Canonical := by
    simp [Canonical, Digits.base, Digits.isZero]
  have hy : ∀ y ∈ ([⟨false, [3]⟩, ⟨true, [4]⟩] : List Integer), y.Canonical := by
    simp [Canonical, Digits.base, Digits.isZero]
  have hrun : negacyclic [⟨true, [1, 0]⟩, ⟨false, [2]⟩] [⟨false, [3]⟩, ⟨true, [4]⟩] =
      .value [⟨true, [5, 0]⟩, ⟨false, [10, 0]⟩] := by decide +kernel
  rcases negacyclic_exact_iff (n := 2) hx hy rfl rfl with ⟨cs, hcs, -, hproduct, -, -, hiff⟩ | hab
  · cases hrun.symm.trans hcs
    refine ⟨_, _, _, rfl, rfl, hx, hy, rfl, rfl, hrun, by decide +kernel, hproduct,
      ⟨rfl, by decide +kernel⟩, fun hsigned => ?_⟩
    exact absurd (hiff.mp hsigned 0 (by decide)) (by decide +kernel)
  · cases hrun.symm.trans hab.1

end Fermat

end Multiprecision
