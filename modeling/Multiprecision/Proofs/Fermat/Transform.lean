import Mathlib
import Multiprecision.Fermat.Transform
import Multiprecision.Proofs.Fermat
import Multiprecision.Proofs.Polynomial

/-!
# Multiprecision.Proofs.Fermat.Transform

Transforms, first of lists over any ring, then of residues:

* `Spectrum.forward_eq` — a forward transform evaluates a polynomial at the
  powers of the root, in bit-reversed order;
* `Spectrum.backward_forward` — a backward transform with the inverse root
  undoes it up to a factor of the length;
* `scramble_represents`, `unscramble_represents` — transforms of residues
  are those transforms over the ring of residues.

The root of a signal of `2^(m+1)` entries is one whose power `2^m` is -1.
-/

namespace Multiprecision

/-! ## Transforms in a ring -/

namespace Spectrum

open Coefficients

variable {R : Type*} [CommRing R]

/-- The product of entry `j` and `w^j`, for every `j` from `start` on. -/
def twist (w : Rˣ) : (start : Nat) → List R → List R
  | _, [] => []
  | j, a :: as => a * (w ^ j : Rˣ) :: twist w (j + 1) as

/-- The forward transform of `2^m` entries with the root `w`. -/
def forward : (m : Nat) → (w : Rˣ) → List R → List R
  | 0, _, as => as
  | m + 1, w, as =>
    let low := as.take (2 ^ m)
    let high := as.drop (2 ^ m)
    forward m (w ^ 2) (List.zipWith (· + ·) low high) ++
      forward m (w ^ 2) (twist w 0 (List.zipWith (· - ·) low high))

/-- The backward transform of `2^m` entries with the root `w`. -/
def backward : (m : Nat) → (w : Rˣ) → List R → List R
  | 0, _, as => as
  | m + 1, w, as =>
    let low := backward m (w ^ 2) (as.take (2 ^ m))
    let high := twist w 0 (backward m (w ^ 2) (as.drop (2 ^ m)))
    List.zipWith (· + ·) low high ++ List.zipWith (· - ·) low high

/-- The powers of the root where a forward transform evaluates, in
bit-reversed order. -/
def points : (m : Nat) → (w : Rˣ) → List Rˣ
  | 0, _ => [1]
  | m + 1, w => points m (w ^ 2) ++ (points m (w ^ 2)).map (w * ·)

/-- The root of a signal of `2^m` entries. -/
def IsRoot (m : Nat) (w : Rˣ) : Prop := ∀ n, m = n + 1 → w ^ 2 ^ n = -1

/-- The square of a root is one for signals of half the length. -/
theorem IsRoot.sq {m : Nat} {w : Rˣ} (h : IsRoot (m + 1) w) : IsRoot m (w ^ 2) := by
  rintro n rfl
  rw [← pow_mul, ← pow_succ']
  exact h (n + 1) rfl

/-! ### Lengths -/

@[simp] theorem length_twist (w : Rˣ) (j : Nat) (as : List R) :
    (twist w j as).length = as.length := by
  induction as generalizing j with
  | nil => rfl
  | cons a as ih => simp [twist, ih]

theorem length_forward {m : Nat} {w : Rˣ} {as : List R} (h : as.length = 2 ^ m) :
    (forward m w as).length = 2 ^ m := by
  induction m generalizing w as with
  | zero => simpa [forward] using h
  | succ m ih =>
    rw [pow_succ] at h ⊢
    rw [forward, List.length_append, ih, ih]
    · omega
    · simp only [length_twist, List.length_zipWith, List.length_take, List.length_drop]
      omega
    · simp only [List.length_zipWith, List.length_take, List.length_drop]
      omega

/-! ### The forward transform evaluates -/

/-- Twisting the coefficients moves the point of evaluation to `w * x`. -/
theorem eval_twist (w : Rˣ) (j : Nat) (as : List R) (x : R) :
    (polynomial (twist w j as)).eval x = w ^ j * (polynomial as).eval (w * x) := by
  induction as generalizing j with
  | nil => simp [twist]
  | cons a as ih =>
    rw [twist, eval_polynomial_cons, eval_polynomial_cons, ih, Units.val_pow_eq_pow_val, pow_succ]
    ring

/-- The value of a sum of coefficients is the sum of the values. -/
theorem eval_zipWith_add {as bs : List R} (h : as.length = bs.length) (x : R) :
    (polynomial (List.zipWith (· + ·) as bs)).eval x =
      (polynomial as).eval x + (polynomial bs).eval x := by
  induction as generalizing bs with
  | nil =>
    obtain rfl : bs = [] := List.length_eq_zero_iff.mp h.symm
    simp
  | cons a as ih =>
    cases bs with
    | nil => simp at h
    | cons b bs =>
      rw [List.zipWith_cons_cons, eval_polynomial_cons, eval_polynomial_cons,
        eval_polynomial_cons, ih (by simpa using h)]
      ring

/-- The value of a difference of coefficients is the difference of the values. -/
theorem eval_zipWith_sub {as bs : List R} (h : as.length = bs.length) (x : R) :
    (polynomial (List.zipWith (· - ·) as bs)).eval x =
      (polynomial as).eval x - (polynomial bs).eval x := by
  induction as generalizing bs with
  | nil =>
    obtain rfl : bs = [] := List.length_eq_zero_iff.mp h.symm
    simp
  | cons a as ih =>
    cases bs with
    | nil => simp at h
    | cons b bs =>
      rw [List.zipWith_cons_cons, eval_polynomial_cons, eval_polynomial_cons,
        eval_polynomial_cons, ih (by simpa using h)]
      ring

/-- The points are roots of one. -/
theorem pow_of_mem_points {m : Nat} {w u : Rˣ} (hw : IsRoot m w) (hu : u ∈ points m w) :
    u ^ 2 ^ m = 1 := by
  induction m generalizing w u with
  | zero => simpa [points] using hu
  | succ m ih =>
    rw [points, List.mem_append, List.mem_map] at hu
    rcases hu with hu | ⟨v, hv, rfl⟩
    · rw [pow_succ, pow_mul, ih hw.sq hu, one_pow]
    · rw [mul_pow, pow_succ, pow_mul, pow_mul, hw m rfl, ih hw.sq hv, neg_one_sq, one_pow, mul_one]

/-- Every power of the root is a point. -/
theorem pow_mem_points {m j : Nat} (w : Rˣ) (hj : j < 2 ^ m) : w ^ j ∈ points m w := by
  induction m generalizing w j with
  | zero =>
    obtain rfl : j = 0 := by simpa using hj
    simp [points]
  | succ m ih =>
    rw [pow_succ] at hj
    have hmem := ih (w ^ 2) (show j / 2 < 2 ^ m by omega)
    rw [← pow_mul] at hmem
    rw [points, List.mem_append]
    rcases Nat.mod_two_eq_zero_or_one j with heven | hodd
    · refine .inl ?_
      rwa [show 2 * (j / 2) = j by omega] at hmem
    · refine .inr (List.mem_map.mpr ⟨_, hmem, ?_⟩)
      rw [← pow_succ', show 2 * (j / 2) + 1 = j by omega]

/-- A forward transform evaluates the polynomial at the points.  In each half
of them one power of `x` is constant, which joins the two halves of the
coefficients. -/
theorem forward_eq {m : Nat} {w : Rˣ} (hw : IsRoot m w) {as : List R} (h : as.length = 2 ^ m) :
    forward m w as = (points m w).map fun u : Rˣ => (polynomial as).eval (u : R) := by
  induction m generalizing w as with
  | zero =>
    obtain ⟨a, rfl⟩ := List.length_eq_one_iff.mp h
    simp [forward, points]
  | succ m ih =>
    have hlow : (as.take (2 ^ m)).length = 2 ^ m := by
      rw [List.length_take, h, pow_succ]
      omega
    have hhigh : (as.drop (2 ^ m)).length = 2 ^ m := by
      rw [List.length_drop, h, pow_succ]
      omega
    have hsplit (x : R) : (polynomial as).eval x = (polynomial (as.take (2 ^ m))).eval x +
        x ^ 2 ^ m * (polynomial (as.drop (2 ^ m))).eval x := by
      conv_lhs => rw [← List.take_append_drop (2 ^ m) as, eval_polynomial_append, hlow]
    have hlen := hlow.trans hhigh.symm
    rw [forward, points, List.map_append, List.map_map,
      ih hw.sq (by rw [List.length_zipWith, hlow, hhigh, min_self]),
      ih hw.sq (by rw [length_twist, List.length_zipWith, hlow, hhigh, min_self])]
    congr 1
    · refine List.map_congr_left fun u hu => ?_
      have hone : (u : R) ^ 2 ^ m = 1 := by
        rw [← Units.val_pow_eq_pow_val, pow_of_mem_points hw.sq hu, Units.val_one]
      rw [eval_zipWith_add hlen, hsplit, hone, one_mul]
    · refine List.map_congr_left fun u hu => ?_
      have hone : ((w * u : Rˣ) : R) ^ 2 ^ m = -1 := by
        rw [← Units.val_pow_eq_pow_val, mul_pow, hw m rfl, pow_of_mem_points hw.sq hu, mul_one,
          Units.val_neg, Units.val_one]
      rw [Function.comp_apply, eval_twist, pow_zero, one_mul, eval_zipWith_sub hlen, hsplit,
        Units.val_mul, ← Units.val_mul, hone]
      ring

/-! ### The backward transform inverts -/

/-- A twist with the inverse root takes a twist back. -/
theorem twist_inv_twist (w : Rˣ) (j : Nat) (as : List R) : twist w⁻¹ j (twist w j as) = as := by
  induction as generalizing j with
  | nil => rfl
  | cons a as ih => rw [twist, twist, ih, inv_pow, Units.mul_inv_cancel_right]

/-- A common factor of the entries passes through a twist. -/
theorem twist_map_mul (w : Rˣ) (j : Nat) (c : R) (as : List R) :
    twist w j (as.map (c * ·)) = (twist w j as).map (c * ·) := by
  induction as generalizing j with
  | nil => rfl
  | cons a as ih => simp only [List.map_cons, twist, ih, mul_assoc]

/-- The sum of sum and difference is twice the first list. -/
theorem zipWith_add_add_sub (c : R) {as bs : List R} (h : as.length = bs.length) :
    List.zipWith (· + ·) ((List.zipWith (· + ·) as bs).map (c * ·))
      ((List.zipWith (· - ·) as bs).map (c * ·)) = as.map (2 * c * ·) := by
  induction as generalizing bs with
  | nil => rfl
  | cons a as ih =>
    cases bs with
    | nil => simp at h
    | cons b bs =>
      simp only [List.zipWith_cons_cons, List.map_cons, ih (by simpa using h), List.cons.injEq,
        and_true]
      ring

/-- The difference of sum and difference is twice the second list. -/
theorem zipWith_sub_add_sub (c : R) {as bs : List R} (h : as.length = bs.length) :
    List.zipWith (· - ·) ((List.zipWith (· + ·) as bs).map (c * ·))
      ((List.zipWith (· - ·) as bs).map (c * ·)) = bs.map (2 * c * ·) := by
  induction as generalizing bs with
  | nil =>
    obtain rfl : bs = [] := List.length_eq_zero_iff.mp h.symm
    rfl
  | cons a as ih =>
    cases bs with
    | nil => simp at h
    | cons b bs =>
      simp only [List.zipWith_cons_cons, List.map_cons, ih (by simpa using h), List.cons.injEq,
        and_true]
      ring

/-- A backward transform with the inverse root undoes a forward one up to a
factor of the length. -/
theorem backward_forward (m : Nat) (w : Rˣ) {as : List R} (h : as.length = 2 ^ m) :
    backward m w⁻¹ (forward m w as) = as.map (2 ^ m * ·) := by
  induction m generalizing w as with
  | zero => simp [forward, backward]
  | succ m ih =>
    have hlow : (as.take (2 ^ m)).length = 2 ^ m := by
      rw [List.length_take, h, pow_succ]
      omega
    have hhigh : (as.drop (2 ^ m)).length = 2 ^ m := by
      rw [List.length_drop, h, pow_succ]
      omega
    have hsum : (List.zipWith (· + ·) (as.take (2 ^ m)) (as.drop (2 ^ m))).length = 2 ^ m := by
      rw [List.length_zipWith, hlow, hhigh, min_self]
    have hdiff : (List.zipWith (· - ·) (as.take (2 ^ m)) (as.drop (2 ^ m))).length = 2 ^ m := by
      rw [List.length_zipWith, hlow, hhigh, min_self]
    have hfirst := length_forward (w := w ^ 2) hsum
    rw [forward, backward, List.take_left' hfirst, List.drop_left' hfirst, inv_pow, ih (w ^ 2) hsum,
      ih (w ^ 2) (by rw [length_twist, hdiff]), twist_map_mul, twist_inv_twist,
      zipWith_add_add_sub _ (hlow.trans hhigh.symm), zipWith_sub_add_sub _ (hlow.trans hhigh.symm),
      ← List.map_append, List.take_append_drop, ← pow_succ']

end Spectrum

/-! ## Transforms of residues -/

namespace Fermat

variable {e : Nat} {xs ys : List Integer} {as bs : List (Residue e)}

/-- An operation on residues, entry by entry, is that on what they stand for. -/
theorem zipWith_represents {f : Integer → Integer → Integer}
    {g : Residue e → Residue e → Residue e}
    (hf : ∀ {x y a b}, Represents e x a → Represents e y b → Represents e (f x y) (g a b))
    (hx : List.Forall₂ (Represents e) xs as) (hy : List.Forall₂ (Represents e) ys bs) :
    List.Forall₂ (Represents e) (List.zipWith f xs ys) (List.zipWith g as bs) := by
  induction hx generalizing ys bs with
  | nil => exact .nil
  | cons hx _ ih =>
    cases hy with
    | nil => exact .nil
    | cons hy hys => exact .cons (hf hx hy) (ih hys)

variable [NeZero e]

/-- Residues are in canonical form already. -/
theorem map_canonical (h : List.Forall₂ (Represents e) xs as) : xs.map (canonical e) = xs := by
  induction h with
  | nil => rfl
  | cons hx _ ih => rw [List.map_cons, hx.canonical_eq, ih]

/-- A twist by shifts multiplies entry `j` by power `j` of the root. -/
theorem twist_represents (root : Int) (j : Nat) (h : List.Forall₂ (Represents e) xs as) :
    List.Forall₂ (Represents e) (twist e root j xs) (Spectrum.twist (two e ^ (-root)) j as) := by
  induction h generalizing j with
  | nil => exact .nil
  | cons hx _ ih =>
    refine .cons ?_ (ih (j + 1))
    have hshift := hx.shiftRight (root * j)
    rwa [← neg_mul, zpow_mul, zpow_natCast] at hshift

/-- Twice the exponent of the root is its square. -/
theorem two_zpow_neg_sq (root : Int) : (two e ^ (-root)) ^ 2 = two e ^ (-(2 * root)) := by
  rw [← zpow_natCast, ← zpow_mul]
  congr 1
  push_cast
  ring

/-- The forward transform of residues is that over the ring of residues. -/
theorem forward_represents (m : Nat) (root : Int) (h : List.Forall₂ (Represents e) xs as) :
    List.Forall₂ (Represents e) (forward e m root xs)
      (Spectrum.forward m (two e ^ (-root)) as) := by
  induction m generalizing root xs as with
  | zero => exact h
  | succ m ih =>
    have hlow := List.forall₂_take (2 ^ m) h
    have hhigh := List.forall₂_drop (2 ^ m) h
    rw [forward, map_canonical h, Spectrum.forward, two_zpow_neg_sq]
    refine List.rel_append (ih _ ?_) (ih _ (twist_represents root 0 ?_))
    · exact zipWith_represents Represents.add hlow hhigh
    · exact zipWith_represents Represents.sub hlow hhigh

/-- The backward transform of residues is that over the ring of residues. -/
theorem backward_represents (m : Nat) (root : Int) (h : List.Forall₂ (Represents e) xs as) :
    List.Forall₂ (Represents e) (backward e m root xs)
      (Spectrum.backward m (two e ^ (-root)) as) := by
  induction m generalizing root xs as with
  | zero => exact h
  | succ m ih =>
    have hlow := ih (2 * root) (List.forall₂_take (Nat.pow 2 m) h)
    have hhigh := twist_represents root 0 (ih (2 * root) (List.forall₂_drop (Nat.pow 2 m) h))
    rw [backward, Spectrum.backward, two_zpow_neg_sq]
    rw [map_canonical hlow, map_canonical hhigh]
    exact List.rel_append (zipWith_represents Represents.add hlow hhigh)
      (zipWith_represents Represents.sub hlow hhigh)

/-- The logarithm of `2^m` is `m`. -/
theorem log2?_two_pow (m : Nat) : log2? (2 ^ m) = some m := by
  rw [log2?, Nat.log2_two_pow]
  exact if_pos rfl

/-- A signal of `2^m` entries has a transform. -/
theorem onSignal_of_length (transform : Nat → Int → List Integer → List Integer) {m : Nat}
    (h : xs.length = 2 ^ m) (root : Int) :
    onSignal transform xs root = .ok (transform m root xs) := by
  rw [onSignal, h, log2?_two_pow]

/-- A signal of residues has a spectrum, and it is that over the ring of
residues. -/
theorem scramble_represents {m : Nat} (root : Int) (h : List.Forall₂ (Represents e) xs as)
    (hlen : as.length = 2 ^ m) :
    ∃ zs, scramble e xs root = .ok zs ∧
      List.Forall₂ (Represents e) zs (Spectrum.forward m (two e ^ (-root)) as) :=
  ⟨_, onSignal_of_length _ (h.length_eq.trans hlen) root, forward_represents m root h⟩

/-- A spectrum of residues has a signal, and it is that over the ring of
residues. -/
theorem unscramble_represents {m : Nat} (root : Int) (h : List.Forall₂ (Represents e) xs as)
    (hlen : as.length = 2 ^ m) :
    ∃ zs, unscramble e xs root = .ok zs ∧
      List.Forall₂ (Represents e) zs (Spectrum.backward m (two e ^ (-root)) as) :=
  ⟨_, onSignal_of_length _ (h.length_eq.trans hlen) root, backward_represents m root h⟩

end Fermat

end Multiprecision
