import Mathlib

/-!
# Multiprecision.Proofs.Polynomial

Lists as the coefficients of polynomials, lowest first.  A product of digit
lists is a product of polynomials evaluated at the base, and a product of
parts in a ring is one evaluated at a power of two, so the rules for columns
of products are proved once, for coefficients:

* `coeff_mul_eq_dot` — column `c` of a product pairs one list upwards with
  the other downwards;
* `coeff_mul_self_eq_dot` — column `c` of a square is twice the terms below
  its middle, and the middle term;
* `eval_mul_eval` — a product of values is a sum of columns;
* `eval_mul_eval_of_pow_eq_neg_one` — where `x^n = -1`, column `c + n` counts
  against column `c`.
-/

namespace Multiprecision.Coefficients

open Polynomial Finset

section Semiring

variable {R : Type*} [CommSemiring R]

/-- The polynomial with the given coefficients. -/
noncomputable def polynomial : List R → R[X]
  | [] => 0
  | c :: cs => C c + X * polynomial cs

@[simp] theorem polynomial_nil : polynomial ([] : List R) = 0 := rfl

@[simp] theorem polynomial_cons (c : R) (cs : List R) :
    polynomial (c :: cs) = C c + X * polynomial cs := rfl

/-- The coefficients are the entries, and zero past the last one. -/
@[simp] theorem coeff_polynomial (cs : List R) (i : Nat) :
    (polynomial cs).coeff i = cs.getD i 0 := by
  induction cs generalizing i with
  | nil => simp
  | cons c cs ih =>
    cases i with
    | zero => simp
    | succ i => simp [ih]

/-- The degree is at most the place of the last entry. -/
theorem natDegree_polynomial_le (cs : List R) :
    (polynomial cs).natDegree ≤ cs.length - 1 := by
  rw [natDegree_le_iff_coeff_eq_zero]
  intro i hi
  rw [coeff_polynomial, List.getD_eq_default]
  omega

/-! ## Columns -/

/-- The sum of the products of paired entries. -/
def dot : List R → List R → R
  | x :: xs, y :: ys => x * y + dot xs ys
  | [], _ => 0
  | _ :: _, [] => 0

/-- The sum over the pairs, as one over their places. -/
theorem dot_eq_sum {xs ys : List R} {n : Nat} (h : min xs.length ys.length ≤ n) :
    dot xs ys = ∑ i ∈ range n, xs.getD i 0 * ys.getD i 0 := by
  induction xs generalizing ys n with
  | nil => simp [dot]
  | cons x xs ih =>
    cases ys with
    | nil => simp [dot]
    | cons y ys =>
      cases n with
      | zero => simp at h
      | succ n =>
        rw [dot, ih (n := n) (by simpa using h), sum_range_succ']
        simp [add_comm]

theorem dot_comm (xs ys : List R) : dot xs ys = dot ys xs := by
  induction xs generalizing ys with
  | nil => cases ys <;> rfl
  | cons x xs ih =>
    cases ys with
    | nil => rfl
    | cons y ys => rw [dot, dot, ih, mul_comm]

/-- Entries past the end of the other list do not count. -/
theorem dot_take_left (xs ys : List R) : dot xs ys = dot (xs.take ys.length) ys := by
  induction xs generalizing ys with
  | nil => simp
  | cons x xs ih =>
    cases ys with
    | nil => rfl
    | cons y ys => rw [dot, ih, List.length_cons, List.take_succ_cons, dot]

/-- A coefficient of a product, as a sum over the places of the entries. -/
theorem coeff_mul_eq_sum (as bs : List R) (c : Nat) :
    (polynomial as * polynomial bs).coeff c =
      ∑ i ∈ range (c + 1), as.getD i 0 * bs.getD (c - i) 0 := by
  rw [coeff_mul, Nat.sum_antidiagonal_eq_sum_range_succ
    (fun i j => (polynomial as).coeff i * (polynomial bs).coeff j)]
  simp

/-- The entries of `bs` downwards from place `min c (n - 1)`. -/
theorem getD_reverse_drop {bs : List R} {c t : Nat} (h : t < min (c + 1) bs.length) :
    (bs.reverse.drop (bs.length - 1 - c)).getD t 0 =
      bs.getD (min c (bs.length - 1) - t) 0 := by
  rw [List.getD_eq_getElem?_getD, List.getD_eq_getElem?_getD, List.getElem?_drop,
    List.getElem?_reverse (by omega)]
  congr 2
  omega

/-- Column `c` of a product, with the empty terms left out. -/
theorem coeff_mul_eq_dot {as bs : List R} (hbs : bs ≠ []) (c : Nat) :
    (polynomial as * polynomial bs).coeff c =
      dot (as.drop (c + 1 - bs.length)) (bs.reverse.drop (bs.length - 1 - c)) := by
  have hpos : 0 < bs.length := List.length_pos_iff.mpr hbs
  have hlen : (bs.reverse.drop (bs.length - 1 - c)).length = min (c + 1) bs.length := by
    rw [List.length_drop, List.length_reverse]
    omega
  rw [dot_eq_sum (n := min (c + 1) bs.length) (by omega), coeff_mul_eq_sum,
    show c + 1 = (c + 1 - bs.length) + min (c + 1) bs.length by omega, sum_range_add]
  rw [sum_eq_zero, zero_add, ← show c + 1 = (c + 1 - bs.length) + min (c + 1) bs.length by omega]
  · refine sum_congr rfl fun t ht => ?_
    have ht := mem_range.mp ht
    rw [getD_reverse_drop ht, List.getD_eq_getElem?_getD, List.getD_eq_getElem?_getD,
      List.getD_eq_getElem?_getD (l := as.drop _), List.getElem?_drop,
      List.getD_eq_getElem?_getD]
    congr 3
    omega
  · intro i hi
    have hi := mem_range.mp hi
    rw [List.getD_eq_default bs 0 (by omega), mul_zero]

/-- A sum of terms that are the same from both ends. -/
theorem sum_range_of_symm {f : Nat → R} {c : Nat} (hf : ∀ i ≤ c, f i = f (c - i)) :
    ∑ i ∈ range (c + 1), f i =
      2 * ∑ i ∈ range ((c + 1) / 2), f i + if c % 2 = 0 then f (c / 2) else 0 := by
  rcases Nat.even_or_odd' c with ⟨h, rfl | rfl⟩
  · have hupper : ∑ t ∈ range h, f (h + (t + 1)) = ∑ t ∈ range h, f t := by
      rw [← sum_range_reflect f h]
      refine sum_congr rfl fun t ht => ?_
      have ht := mem_range.mp ht
      rw [hf _ (by omega)]
      congr 1
      omega
    rw [show 2 * h + 1 = h + (h + 1) by omega, sum_range_add, sum_range_succ', hupper,
      show (h + (h + 1)) / 2 = h by omega, if_pos (by omega), show 2 * h / 2 = h by omega,
      Nat.add_zero]
    ring
  · have hupper : ∑ t ∈ range (h + 1), f (h + 1 + t) = ∑ t ∈ range (h + 1), f t := by
      rw [← sum_range_reflect f (h + 1)]
      refine sum_congr rfl fun t ht => ?_
      have ht := mem_range.mp ht
      rw [hf _ (by omega)]
      congr 1
      omega
    rw [show 2 * h + 1 + 1 = (h + 1) + (h + 1) by omega, sum_range_add, hupper,
      show (h + 1 + (h + 1)) / 2 = h + 1 by omega, if_neg (by omega)]
    ring

/-- Column `c` of a square: the terms below its middle twice, and the middle
term once. -/
theorem coeff_mul_self_eq_dot {cs : List R} (hcs : cs ≠ []) {c lo : Nat}
    (hc : c < 2 * cs.length - 1) (hlo : lo = c + 1 - cs.length) :
    (polynomial cs * polynomial cs).coeff c =
      2 * dot ((cs.drop lo).take ((c + 1 - 2 * lo) / 2))
          (cs.reverse.drop (cs.length - 1 - c)) +
        if c % 2 = 0 then cs.getD (c / 2) 0 * cs.getD (c / 2) 0 else 0 := by
  have hpos : 0 < cs.length := List.length_pos_iff.mpr hcs
  have hlow : ((cs.drop lo).take ((c + 1 - 2 * lo) / 2)).length = (c + 1 - 2 * lo) / 2 := by
    rw [List.length_take, List.length_drop]
    omega
  rw [coeff_mul_eq_sum, sum_range_of_symm]
  · congr 1
    · rw [dot_eq_sum (n := (c + 1 - 2 * lo) / 2) (by omega),
        show (c + 1) / 2 = lo + (c + 1 - 2 * lo) / 2 by omega, sum_range_add, sum_eq_zero,
        zero_add]
      · congr 1
        refine sum_congr rfl fun t ht => ?_
        have ht := mem_range.mp ht
        rw [getD_reverse_drop (by omega), List.getD_eq_getElem?_getD (l := List.take _ _),
          List.getElem?_take_of_lt ht, List.getElem?_drop, ← List.getD_eq_getElem?_getD]
        congr 2
        omega
      · intro i hi
        have hi := mem_range.mp hi
        rw [List.getD_eq_default cs 0 (by omega : cs.length ≤ c - i), mul_zero]
    · split
      · next heven => rw [show c - c / 2 = c / 2 by omega]
      · rfl
  · intro i hi
    rw [Nat.sub_sub_self hi, mul_comm]

/-! ## Values -/

/-- One step of evaluating from the lowest coefficient. -/
theorem eval_polynomial_cons (x c : R) (cs : List R) :
    (polynomial (c :: cs)).eval x = c + x * (polynomial cs).eval x := by
  simp

/-- Coefficients on top of others count as many powers higher. -/
theorem eval_polynomial_append (x : R) (as bs : List R) :
    (polynomial (as ++ bs)).eval x =
      (polynomial as).eval x + x ^ as.length * (polynomial bs).eval x := by
  induction as with
  | nil => simp
  | cons a as ih =>
    rw [List.cons_append, eval_polynomial_cons, eval_polynomial_cons, ih, List.length_cons,
      pow_succ]
    ring

/-- The value of a polynomial with coefficients by their places. -/
theorem eval_polynomial_range (f : Nat → R) (n : Nat) (x : R) :
    (polynomial ((List.range n).map f)).eval x = ∑ c ∈ range n, f c * x ^ c := by
  induction n with
  | zero => simp
  | succ n ih =>
    rw [List.range_succ, List.map_append, eval_polynomial_append, ih, sum_range_succ,
      List.length_map, List.length_range, List.map_singleton, eval_polynomial_cons]
    simp [mul_comm]

/-- The value of a polynomial, as a sum over the entries. -/
theorem eval_polynomial_map_eq_sum {α : Type*} (f : α → R) (as : List α) (x : R) :
    (polynomial (as.map f)).eval x = ∑ j : Fin as.length, f as[j] * x ^ (j : Nat) := by
  induction as with
  | nil => simp
  | cons a as ih =>
    rw [List.map_cons, eval_polynomial_cons, ih, Finset.mul_sum]
    simp only [List.length_cons, Fin.sum_univ_succ, Fin.getElem_fin, Fin.val_zero, Fin.val_succ,
      List.getElem_cons_zero, List.getElem_cons_succ, pow_zero, mul_one]
    congr 1
    refine Finset.sum_congr rfl fun j _ => ?_
    rw [pow_succ']
    ring

/-- A product of values is a sum of columns. -/
theorem eval_mul_eval (x : R) {as bs : List R} {n : Nat}
    (hn : as.length + bs.length ≤ n + 1) :
    (polynomial as).eval x * (polynomial bs).eval x =
      ∑ c ∈ range n, (polynomial as * polynomial bs).coeff c * x ^ c := by
  rcases eq_or_ne as [] with rfl | has
  · simp
  rcases eq_or_ne bs [] with rfl | hbs
  · simp
  have ha := List.length_pos_iff.mpr has
  have hb := List.length_pos_iff.mpr hbs
  rw [← eval_mul, eval_eq_sum_range']
  calc
    (polynomial as * polynomial bs).natDegree ≤ (as.length - 1) + (bs.length - 1) :=
      natDegree_mul_le.trans
        (Nat.add_le_add (natDegree_polynomial_le as) (natDegree_polynomial_le bs))
    _ < n := by omega

end Semiring

/-! ## Images -/

section Image

variable {R S : Type*} [CommSemiring R] [CommSemiring S]

/-- Coefficients in another ring make the polynomial in that ring. -/
theorem polynomial_map (f : R →+* S) (cs : List R) :
    polynomial (cs.map f) = (polynomial cs).map f := by
  induction cs with
  | nil => simp
  | cons c cs ih => simp [ih]

/-- Evaluating may be done before or after the change of rings. -/
theorem eval_polynomial_map (f : R →+* S) (cs : List R) (x : R) :
    (polynomial (cs.map f)).eval (f x) = f ((polynomial cs).eval x) := by
  induction cs with
  | nil => simp
  | cons c cs ih =>
    rw [List.map_cons, eval_polynomial_cons, eval_polynomial_cons, ih, map_add, map_mul]

/-- Coefficients of a product may be taken before or after the change of rings. -/
theorem coeff_mul_map (f : R →+* S) (as bs : List R) (c : Nat) :
    (polynomial (as.map f) * polynomial (bs.map f)).coeff c =
      f ((polynomial as * polynomial bs).coeff c) := by
  rw [polynomial_map, polynomial_map, ← Polynomial.map_mul, coeff_map]

end Image

/-! ## Bounds -/

/-- A column has at most as many terms as either list has entries. -/
theorem dot_le {xs ys : List Nat} {p q : Nat} (hx : ∀ x ∈ xs, x ≤ p) (hy : ∀ y ∈ ys, y ≤ q) :
    dot xs ys ≤ min xs.length ys.length * (p * q) := by
  induction xs generalizing ys with
  | nil => simp [dot]
  | cons x xs ih =>
    cases ys with
    | nil => simp [dot]
    | cons y ys =>
      have hxy := Nat.mul_le_mul (hx x List.mem_cons_self) (hy y List.mem_cons_self)
      have hrest := ih (fun z hz => hx z (List.mem_cons_of_mem x hz))
        (fun z hz => hy z (List.mem_cons_of_mem y hz))
      rw [dot, List.length_cons, List.length_cons, Nat.succ_min_succ, Nat.succ_mul]
      omega

/-- Column `c` of a product of two lists of `n` entries has `c + 1` terms, and
column `c + n` the other `n - 1 - c`. -/
theorem coeff_mul_le {as bs : List Nat} {n p : Nat} (ha : as.length = n) (hb : bs.length = n)
    (hap : ∀ a ∈ as, a ≤ p) (hbp : ∀ b ∈ bs, b ≤ p) {c : Nat} (hc : c < n) :
    (polynomial as * polynomial bs).coeff c ≤ (c + 1) * (p * p) ∧
      (polynomial as * polynomial bs).coeff (c + n) ≤ (n - 1 - c) * (p * p) := by
  have hne : bs ≠ [] := List.ne_nil_of_length_pos (by omega)
  have hleft (k a : Nat) (h : a ∈ as.drop (k + 1 - bs.length)) : a ≤ p :=
    hap a (List.mem_of_mem_drop h)
  have hright (k b : Nat) (h : b ∈ bs.reverse.drop (bs.length - 1 - k)) : b ≤ p :=
    hbp b (List.mem_reverse.mp (List.mem_of_mem_drop h))
  rw [coeff_mul_eq_dot hne, coeff_mul_eq_dot hne]
  constructor
  · refine (dot_le (hleft c) (hright c)).trans (Nat.mul_le_mul_right _ ?_)
    rw [List.length_drop, List.length_drop, List.length_reverse]
    omega
  · refine (dot_le (hleft (c + n)) (hright (c + n))).trans (Nat.mul_le_mul_right _ ?_)
    rw [List.length_drop, List.length_drop, List.length_reverse]
    omega

/-! ## Wrapped columns -/

section Ring

variable {R : Type*} [CommRing R]

/-- Coefficient `c` of a product modulo `X^n + 1`. -/
noncomputable def negacyclic (n : Nat) (as bs : List R) (c : Nat) : R :=
  (polynomial as * polynomial bs).coeff c - (polynomial as * polynomial bs).coeff (c + n)

/-- The coefficients of a product modulo `X^n + 1`. -/
noncomputable def negacyclicAll (n : Nat) (as bs : List R) : List R :=
  (List.range n).map (negacyclic n as bs)

@[simp] theorem length_negacyclicAll (n : Nat) (as bs : List R) :
    (negacyclicAll n as bs).length = n := by
  simp [negacyclicAll]

/-- Where `x^n = -1`, a product of values is the value of the product modulo
`X^n + 1`. -/
theorem eval_mul_eval_of_pow_eq_neg_one {x : R} {as bs : List R} {n : Nat}
    (ha : as.length ≤ n) (hb : bs.length ≤ n) (hx : x ^ n = -1) :
    (polynomial as).eval x * (polynomial bs).eval x =
      (polynomial (negacyclicAll n as bs)).eval x := by
  rw [negacyclicAll, eval_polynomial_range, eval_mul_eval x (n := n + n) (by omega),
    sum_range_add, ← sum_add_distrib]
  refine sum_congr rfl fun c _ => ?_
  rw [negacyclic, Nat.add_comm n c, pow_add, hx]
  ring

/-- The coefficient with the terms of either column paired from the low end of
the second list. -/
theorem negacyclic_eq_dot {as bs : List R} {n : Nat} (ha : as.length = n) (hb : bs.length = n)
    {c : Nat} (hc : c < n) :
    negacyclic n as bs c =
      dot (as.take (c + 1)).reverse bs - dot (as.drop (c + 1)).reverse (bs.drop (c + 1)) := by
  have hne : as ≠ [] := List.ne_nil_of_length_pos (by omega)
  rw [negacyclic, mul_comm, coeff_mul_eq_dot hne, coeff_mul_eq_dot hne, ha,
    show c + 1 - n = 0 by omega, show c + n + 1 - n = c + 1 by omega,
    show n - 1 - (c + n) = 0 by omega, List.drop_zero, List.drop_zero, List.drop_reverse, ha,
    show n - (n - 1 - c) = c + 1 by omega, dot_comm, dot_comm (bs.drop (c + 1)),
    dot_take_left as.reverse, List.length_drop, hb, List.take_reverse, ha,
    show n - (n - (c + 1)) = c + 1 by omega]

/-- A product modulo `X^n + 1` may be formed before or after the change of rings. -/
theorem map_negacyclic {S : Type*} [CommRing S] (f : R →+* S) (n : Nat) (as bs : List R)
    (c : Nat) : f (negacyclic n as bs c) = negacyclic n (as.map f) (bs.map f) c := by
  rw [negacyclic, negacyclic, map_sub, coeff_mul_map, coeff_mul_map]

theorem map_negacyclicAll {S : Type*} [CommRing S] (f : R →+* S) (n : Nat) (as bs : List R) :
    (negacyclicAll n as bs).map f = negacyclicAll n (as.map f) (bs.map f) := by
  rw [negacyclicAll, negacyclicAll, List.map_map]
  exact List.map_congr_left fun c _ => map_negacyclic f n as bs c

end Ring

end Multiprecision.Coefficients
