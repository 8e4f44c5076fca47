import Mathlib
import Multiprecision.Fermat.Product
import Multiprecision.Proofs.Fermat.Convolution
import Multiprecision.Proofs.Fermat.Transform

/-!
# Multiprecision.Proofs.Fermat.Product

Products modulo `2^e + 1` by transforms are exact:

* `eval_chunks` — the parts of a number are its digits to the base `2^size`;
* `coefficient_denotes` — a coefficient is found again from its residue in
  the inner ring, with its sign;
* `evaluate_represents` — the coefficients are put together in the outer ring;
* `convolve_yields` — so a convolution is a product modulo `2^e + 1`.
-/

namespace Multiprecision.Fermat

open Integer Coefficients Finset

/-! ## Parts -/

/-- The lowest `parts` digits of `n` to the base `2^size`. -/
def chunks (parts size n : Nat) : List Nat :=
  (List.range parts).map fun j => n / 2 ^ (j * size) % 2 ^ size

@[simp] theorem length_chunks (parts size n : Nat) : (chunks parts size n).length = parts := by
  simp [chunks]

theorem mem_chunks_lt {parts size n a : Nat} (h : a ∈ chunks parts size n) : a < 2 ^ size := by
  obtain ⟨j, -, rfl⟩ := List.mem_map.mp h
  exact Nat.mod_lt _ (by positivity)

/-- The parts of a number that `parts · size` bits hold. -/
theorem eval_chunks (parts size n : Nat) :
    (polynomial (chunks parts size n)).eval (2 ^ size) = n % 2 ^ (parts * size) := by
  induction parts with
  | zero => simp [chunks, Nat.mod_one]
  | succ parts ih =>
    have hsucc : chunks (parts + 1) size n =
        chunks parts size n ++ [n / 2 ^ (parts * size) % 2 ^ size] := by
      rw [chunks, List.range_succ, List.map_append]
      rfl
    rw [hsucc, eval_polynomial_append, ih, length_chunks, eval_polynomial_cons, polynomial_nil,
      Polynomial.eval_zero, Nat.mul_zero, Nat.add_zero, ← pow_mul, Nat.mul_comm size parts,
      Nat.succ_mul, pow_add, Nat.mod_mul]

/-- The parts of a number write it to the base `2^size`, in any ring. -/
theorem eval_cast_chunks {R : Type*} [CommRing R] {parts size n : Nat}
    (hn : n < 2 ^ (parts * size)) :
    (polynomial ((chunks parts size n).map (Nat.cast : Nat → R))).eval (2 ^ size) = n := by
  have heval := eval_polynomial_map (Nat.castRingHom R) (chunks parts size n) (2 ^ size)
  rwa [eval_chunks, Nat.mod_eq_of_lt hn, map_pow, map_ofNat] at heval

/-- The parts of an operand are those of its magnitude. -/
theorem split_denotes {x : Integer} {i : Int} (h : x.Denotes i) (parts : Nat) {size : Nat}
    (hsize : 0 < size) : DenoteAll (split parts size x) (chunks parts size i.natAbs) := by
  rw [DenoteAll, split, chunks, List.forall₂_map_left_iff, List.forall₂_map_right_iff,
    List.forall₂_same]
  intro j _
  have hwindow := h.bitWindow (j * size) ((j + 1) * size - 1)
  rwa [show (j + 1) * size - 1 + 1 - j * size = size by
    rw [Nat.succ_mul]
    omega] at hwindow

/-- Small numbers are their own residues. -/
theorem DenoteAll.represents {inner : Nat} {xs : List Integer} {as : List Nat}
    (h : DenoteAll xs as) (hlt : ∀ a ∈ as, a ≤ 2 ^ inner) :
    List.Forall₂ (Represents inner) xs (as.map Nat.cast) := by
  induction h with
  | nil => exact .nil
  | cons hx _ ih =>
    refine .cons ?_ (ih fun a ha => hlt a (List.mem_cons_of_mem _ ha))
    have hle := hlt _ List.mem_cons_self
    exact represents_of_lt hx (by omega) (by exact_mod_cast Nat.lt_succ_of_le hle) (by simp)

/-! ## Coefficients -/

variable {e inner step k size j : Nat} {x : Integer} {N : Int}

/-- A coefficient is found again from its residue.  One that is not negative
lies below the bound, and the residue of a negative one does not. -/
theorem coefficient_denotes [NeZero inner]
    (h : Represents inner x (N * (two inner ^ ((k + j * step : Nat) : Int) : (Residue inner)ˣ)))
    (hj : j < 2 ^ k) (hroom : 2 ^ k * 2 ^ (2 * size) ≤ 2 ^ inner)
    (hge : -((2 ^ k - 1 - j : Nat) * 2 ^ (2 * size) : Int) ≤ N)
    (hlt : N < (j + 1 : Nat) * 2 ^ (2 * size)) :
    (coefficient inner step k size j x).Denotes N := by
  have hc := h.shiftRight (k + j * step : Nat)
  rw [zpow_neg, Units.mul_inv_cancel_right] at hc
  obtain ⟨m, hm, hmle, hcast⟩ := hc.exists_nat
  have hbound : ((Integer.ofNat (j + 1)).shiftLeft (2 * size)).Denotes
      (((j + 1) * 2 ^ (2 * size) : Nat) : Int) :=
    ((denotes_ofNat (j + 1)).shiftLeft (2 * size)).of_eq (by push_cast; ring)
  have hmod := denotes_modulus inner
  have hdvd : ((2 ^ inner + 1 : Nat) : Int) ∣ m - N := by
    rw [← ZMod.intCast_zmod_eq_zero_iff_dvd, Int.cast_sub, Int.cast_natCast, hcast, sub_self]
  have hsum : ((j + 1 : Nat) : Int) * 2 ^ (2 * size) +
      (2 ^ k - 1 - j : Nat) * 2 ^ (2 * size) ≤ 2 ^ inner := by
    rw [← add_mul, ← Nat.cast_add, show j + 1 + (2 ^ k - 1 - j) = 2 ^ k by omega]
    exact_mod_cast hroom
  have hpos : (0 : Int) < (j + 1 : Nat) * 2 ^ (2 * size) := by positivity
  have hnonneg : (0 : Int) ≤ (2 ^ k - 1 - j : Nat) * 2 ^ (2 * size) := by positivity
  have hpow := natCast_two_pow inner
  have hbelow := hm.below_iff hbound
  rw [Int.natAbs_natCast, Int.natAbs_natCast, ← Int.ofNat_lt, Nat.cast_mul, Nat.cast_pow,
    Nat.cast_ofNat] at hbelow
  simp only [coefficient]
  rcases Int.lt_or_le N 0 with hneg | hge0
  · have heq : (m : Int) - N - (2 ^ inner + 1 : Nat) = 0 := by
      refine Int.eq_zero_of_abs_lt_dvd (dvd_sub_self_right.mpr hdvd) ?_
      rw [abs_lt]
      omega
    rw [if_neg (mt hbelow.mp (by omega))]
    exact (hm.sub hmod).of_eq (by omega)
  · have heq : (m : Int) - N = 0 := by
      refine Int.eq_zero_of_abs_lt_dvd hdvd ?_
      rw [abs_lt]
      omega
    rw [if_pos (hbelow.mpr (by omega))]
    exact hm.of_eq (by omega)

/-- The coefficients of entries `j` and later. -/
theorem coefficients_denote [NeZero inner] {xs : List Integer} {Ns : List Int}
    (h : List.Forall₂ (Represents inner) xs
      ((Spectrum.twist (two inner ^ (step : Int)) j (Ns.map Int.cast)).map (2 ^ k * ·)))
    (hj : j + Ns.length ≤ 2 ^ k) (hroom : 2 ^ k * 2 ^ (2 * size) ≤ 2 ^ inner)
    (hbounds : ∀ i (hi : i < Ns.length),
      -((2 ^ k - 1 - (j + i) : Nat) * 2 ^ (2 * size) : Int) ≤ Ns[i] ∧
        Ns[i] < (j + i + 1 : Nat) * 2 ^ (2 * size)) :
    List.Forall₂ Denotes (coefficients inner step k size j xs) Ns := by
  induction Ns generalizing xs j with
  | nil =>
    cases h
    exact .nil
  | cons N Ns ih =>
    rw [List.map_cons, Spectrum.twist, List.map_cons] at h
    obtain ⟨x, xs, hx, hxs, rfl⟩ := List.forall₂_cons_right_iff.mp h
    rw [List.length_cons] at hj
    obtain ⟨hge, hlt⟩ := hbounds 0 (by simp)
    refine .cons (coefficient_denotes ?_ (by omega) hroom hge hlt) (ih hxs (by omega) ?_)
    · convert hx using 1
      rw [Nat.cast_add, zpow_add, Nat.cast_mul, Int.mul_comm, zpow_mul, zpow_natCast,
        zpow_natCast _ j, Units.val_mul, Units.val_pow_eq_pow_val (two inner), val_two]
      ring
    · intro i hi
      have h := hbounds (i + 1) (by simpa using hi)
      rwa [List.getElem_cons_succ, show j + (i + 1) = j + 1 + i by omega] at h

/-! ## Evaluation -/

/-- The coefficients are put together in the outer ring. -/
theorem evaluate_represents [NeZero e] (size : Nat) {cs : List Integer} {Ns : List Int}
    (h : List.Forall₂ Denotes cs Ns) (hle : ∀ N ∈ Ns, |N| ≤ 2 ^ e) :
    Represents e (evaluate e size cs)
      ((polynomial (Ns.map (Int.cast : Int → Residue e))).eval (2 ^ size)) := by
  suffices hsum : Represents e (cs.foldr (fun c sum => lower (modulus e) 4 (raise (modulus e) 4
      ((shiftLeft e sum size).add c))) (zeros (e + 1))) _ from Denotes.trim hsum
  induction h with
  | nil => exact represents_of_lt (denotes_zeros (e + 1)) le_rfl (by positivity) (by simp)
  | @cons c N cs Ns hc _ ih =>
    have hN := abs_le.mp (hle N List.mem_cons_self)
    have hshift := (ih fun N hN => hle N (List.mem_cons_of_mem _ hN)).shiftLeft size
    obtain ⟨m, hm, hmle, hcast⟩ := hshift.exists_nat
    have hmod : (modulus e).Denotes ((2 ^ e + 1 : Nat) : Int) := denotes_modulus e
    have hpow := natCast_two_pow e
    obtain ⟨r, hr, hdvd, hor⟩ := raise_spec hmod (n := 4) (hm.add hc) (by push_cast; omega)
    have hlower := lower_spec hmod (n := 4) hr (by omega)
    refine represents_of_lt hlower (by omega) ?_ ?_
    · exact_mod_cast Nat.mod_lt r (Nat.succ_pos _)
    · have hres : ((r : Int) : Residue e) = (m + N : Int) := by
        rw [← sub_eq_zero, ← Int.cast_sub]
        exact (ZMod.intCast_zmod_eq_zero_iff_dvd _ _).mpr hdvd
      rw [Int.cast_natCast] at hres ⊢
      rw [ZMod.natCast_mod, hres, List.map_cons, eval_polynomial_cons, Int.cast_add,
        Int.cast_natCast, hcast, zpow_natCast, Units.val_pow_eq_pow_val, val_two]
      ring

/-! ## Products of transforms -/

section Weights

variable [NeZero inner] {xs : List Integer} {as : List (Residue inner)}

/-- The weight of the parts, a root of -1. -/
def weight (inner step : Nat) [NeZero inner] : (Residue inner)ˣ := two inner ^ (step : Int)

/-- The root of unity that belongs to the weight. -/
def root (inner step : Nat) [NeZero inner] : (Residue inner)ˣ := two inner ^ (-(2 * step : Int))

/-- The weight is a root of -1 for the number of parts. -/
theorem weight_pow (hstep : step * 2 ^ k = inner) : weight inner step ^ 2 ^ k = -1 := by
  rw [weight, ← zpow_natCast, ← zpow_mul, ← Nat.cast_mul, hstep, two_zpow_eq_neg_one]

/-- The root of the transform is one for the number of parts. -/
theorem isRoot_root (hstep : step * 2 ^ k = inner) : Spectrum.IsRoot k (root inner step) := by
  rintro n rfl
  have hexp : -(2 * step : Int) * (2 ^ n : Nat) = -(inner : Nat) := by
    rw [← hstep]
    push_cast
    ring
  rw [root, ← zpow_natCast, ← zpow_mul, hexp, zpow_neg, two_zpow_eq_neg_one, inv_neg, inv_one]

/-- The points where the weighted transform evaluates. -/
def weightedPoints (inner step k : Nat) [NeZero inner] : List (Residue inner) :=
  (Spectrum.points k (root inner step)).map fun u => ((weight inner step * u :) : Residue inner)

/-- The odd powers of the weight are the points. -/
theorem two_pow_mem_weightedPoints (hstep : step * 2 ^ k = inner) {j : Nat} (hj : 0 < j)
    (hlt : j < 2 ^ k) : (2 : Residue inner) ^ (step * (2 * j + 1)) ∈ weightedPoints inner step k := by
  refine List.mem_map.mpr
    ⟨_, Spectrum.pow_mem_points (root inner step) (show 2 ^ k - j < 2 ^ k by omega), ?_⟩
  have hcast : ((2 ^ k - j : Nat) : Int) = 2 ^ k - j := by
    rw [Nat.cast_sub hlt.le, natCast_two_pow]
  have hinner : (step : Int) * 2 ^ k = inner := by exact_mod_cast hstep
  have hexp : (step : Int) + -(2 * step) * (2 ^ k - j) =
      (step * (2 * j + 1) : Nat) + -((inner : Int) * 2) := by
    push_cast
    linear_combination (-2) * hinner
  have hone : two inner ^ (-((inner : Int) * 2)) = 1 := by
    rw [zpow_neg, zpow_mul, two_zpow_eq_neg_one, zpow_two, neg_mul_neg, mul_one, inv_one]
  have hunit : weight inner step * root inner step ^ (2 ^ k - j) =
      two inner ^ (step * (2 * j + 1)) := by
    rw [weight, root, ← zpow_natCast, ← zpow_mul, ← zpow_add, hcast, hexp, zpow_add, hone,
      mul_one, zpow_natCast]
  rw [hunit, Units.val_pow_eq_pow_val, val_two]

/-- Every point of the weighted transform is a root of -1. -/
theorem pow_of_mem_weightedPoints (hstep : step * 2 ^ k = inner) {z : Residue inner}
    (hz : z ∈ weightedPoints inner step k) : z ^ 2 ^ k = -1 := by
  obtain ⟨u, hu, rfl⟩ := List.mem_map.mp hz
  rw [← Units.val_pow_eq_pow_val, mul_pow, weight_pow hstep,
    Spectrum.pow_of_mem_points (isRoot_root hstep) hu, mul_one, Units.val_neg, Units.val_one]

/-- A transform of weighted parts evaluates at the weighted points. -/
theorem forward_twist (hstep : step * 2 ^ k = inner) (hlen : as.length = 2 ^ k) :
    Spectrum.forward k (root inner step) (Spectrum.twist (weight inner step) 0 as) =
      (weightedPoints inner step k).map fun z => (polynomial as).eval z := by
  rw [Spectrum.forward_eq (isRoot_root hstep) (by rwa [Spectrum.length_twist]), weightedPoints,
    List.map_map]
  refine List.map_congr_left fun u _ => ?_
  rw [Spectrum.eval_twist, pow_zero, one_mul, Function.comp_apply, Units.val_mul]

/-- The weighted transform evaluates at roots of -1. -/
theorem weightedForward_represents (hstep : step * 2 ^ k = inner)
    (h : List.Forall₂ (Represents inner) xs as) (hlen : as.length = 2 ^ k) :
    ∃ zs, weightedForward inner step xs = .ok zs ∧
      List.Forall₂ (Represents inner) zs
        ((weightedPoints inner step k).map fun z => (polynomial as).eval z) := by
  have htwist := twist_represents (-step) 0 h
  rw [neg_neg] at htwist
  obtain ⟨zs, hok, hzs⟩ := scramble_represents (2 * step) htwist
    (by rwa [Spectrum.length_twist])
  rw [← forward_twist hstep hlen]
  exact ⟨zs, hok, hzs⟩

/-- The transformed parts of an integer are values of the polynomial that the
parts are the coefficients of. -/
theorem weightedForward_split (hstep : step * 2 ^ k = inner) (hsize : 0 < size)
    (hle : size ≤ inner) {x : Integer} {i : Int} (h : x.Denotes i) :
    ∃ zs, weightedForward inner step (split (2 ^ k) size x) = .ok zs ∧
      List.Forall₂ (Represents inner) zs ((weightedPoints inner step k).map fun z =>
        (polynomial ((chunks (2 ^ k) size i.natAbs).map Nat.cast)).eval z) := by
  have hparts := (split_denotes h (2 ^ k) hsize).represents fun a ha =>
    (mem_chunks_lt ha).le.trans (Nat.pow_le_pow_right (by decide) hle)
  exact weightedForward_represents hstep hparts (by simp)

/-- The backward transform finds the weighted coefficients again. -/
theorem unscramble_values (hstep : step * 2 ^ k = inner) (hlen : as.length = 2 ^ k)
    (h : List.Forall₂ (Represents inner) xs
      ((weightedPoints inner step k).map fun z => (polynomial as).eval z)) :
    ∃ zs, unscramble inner xs (-(2 * step : Nat)) = .ok zs ∧
      List.Forall₂ (Represents inner) zs
        ((Spectrum.twist (weight inner step) 0 as).map (2 ^ k * ·)) := by
  have htwist : (Spectrum.twist (weight inner step) 0 as).length = 2 ^ k := by
    rwa [Spectrum.length_twist]
  rw [← forward_twist hstep hlen] at h
  obtain ⟨zs, hok, hzs⟩ := unscramble_represents (-(2 * step : Nat)) h
    (Spectrum.length_forward htwist)
  refine ⟨zs, hok, ?_⟩
  rwa [show two inner ^ (- -((2 * step : Nat) : Int)) = (root inner step)⁻¹ by
    rw [root, ← zpow_neg]
    push_cast
    rfl, Spectrum.backward_forward k _ htwist] at hzs

end Weights

/-! ## Multipliers of residues -/

/-- Factors that represent residues, with the product of the residues. -/
inductive RepresentFactors (e : Nat) : Factors → Residue e → Prop where
  | pair {x y : Integer} {a b : Residue e} : Represents e x a → Represents e y b →
      RepresentFactors e (.pair x y) (a * b)
  | twice {x : Integer} {a : Residue e} : Represents e x a →
      RepresentFactors e (.twice x) (a * a)

/-- A canonical integer from 0 to `2^e`. -/
def IsResidue (e : Nat) (x : Integer) : Prop := x.Canonical ∧ 0 ≤ x.toInt ∧ x.toInt ≤ 2 ^ e

/-- Factors from 0 to `2^e`. -/
def AreResidues (e : Nat) : Factors → Prop
  | .pair x y => IsResidue e x ∧ IsResidue e y
  | .twice x => IsResidue e x

theorem IsResidue.represents {x : Integer} (h : IsResidue e x) : Represents e x x.toInt :=
  represents_of_lt h.1.denotes h.2.1 (Int.lt_add_one_of_le h.2.2) rfl

/-- Residues represent their product. -/
theorem AreResidues.represent {f : Factors} (h : AreResidues e f) :
    RepresentFactors e f f.toInt := by
  cases f with
  | pair x y =>
    rw [Factors.toInt, Int.cast_mul]
    exact .pair h.1.represents h.2.represents
  | twice x =>
    rw [Factors.toInt, Int.cast_mul]
    exact .twice (IsResidue.represents h)

/-- The representative of a number from 0 to `2^e`. -/
theorem Represents.toInt_eq {x : Integer} {i : Int} (h : Represents e x i) :
    x.toInt = i % (2 ^ e + 1) := by
  rw [Denotes.toInt h, ZMod.val_intCast]
  push_cast
  rfl

/-- Values of the multiplier represent the products of residues modulo
`2^e + 1`. -/
def RingExact (may : Endings) (e : Nat) (multiply : Multiplier) : Prop :=
  ∀ f c, RepresentFactors e f c → (multiply f).Yields may (Represents e · c)

/-- Two spectra side by side are factors of the products. -/
theorem zipWith_pair {xs ys : List Integer} {as bs : List (Residue e)}
    (hx : List.Forall₂ (Represents e) xs as) (hy : List.Forall₂ (Represents e) ys bs) :
    List.Forall₂ (RepresentFactors e) (List.zipWith .pair xs ys) (List.zipWith (· * ·) as bs) := by
  induction hx generalizing ys bs with
  | nil => exact .nil
  | cons hx _ ih =>
    cases hy with
    | nil => exact .nil
    | cons hy hys => exact .cons (.pair hx hy) (ih hys)

/-- The entries of one spectrum are factors of its squares. -/
theorem map_twice {xs : List Integer} {as : List (Residue e)}
    (hx : List.Forall₂ (Represents e) xs as) :
    List.Forall₂ (RepresentFactors e) (xs.map .twice) (as.map fun a => a * a) := by
  induction hx with
  | nil => exact .nil
  | cons hx _ ih => exact .cons (.twice hx) ih

/-- Pointwise products represent the products, if the multiplier does. -/
theorem mapM_products {may : Endings} {multiply : Multiplier} {fs : List Factors}
    {cs : List (Residue e)} (hm : RingExact may e multiply)
    (h : List.Forall₂ (RepresentFactors e) fs cs) :
    (fs.mapM multiply).Yields may (List.Forall₂ (Represents e) · cs) := by
  induction h with
  | nil => exact .nil
  | cons hf _ ih =>
    rw [List.mapM_cons]
    refine (hm _ _ hf).bind fun p hp => ?_
    exact ih.bind fun ps hps => .cons hp hps

/-! ## The inner ring -/

/-- Rounding up does not make a number smaller. -/
theorem le_roundUp (n : Nat) {step : Nat} (hstep : 0 < step) : n ≤ roundUp n step := by
  have hdm := Nat.mod_add_div (n + step - 1) step
  have hlt := Nat.mod_lt (n + step - 1) hstep
  rw [roundUp, Nat.mul_comm]
  omega

/-- Rounding up adds less than the step. -/
theorem roundUp_lt (n : Nat) {step : Nat} (hstep : 0 < step) : roundUp n step < n + step := by
  have hle := Nat.div_mul_le_self (n + step - 1) step
  rw [roundUp]
  omega

theorem dvd_roundUp (n step : Nat) : step ∣ roundUp n step := Dvd.intro_left _ rfl

/-- The inner ring has room for a column: twice the bits of a part, and as many
as there are bits in the number of parts. -/
theorem le_innerExponent (e k : Nat) : 2 * (e / 2 ^ k) + k ≤ innerExponent e k :=
  le_roundUp _ (Nat.two_pow_pos k)

/-- The number of parts divides the inner exponent. -/
theorem innerExponent_div_mul (e k : Nat) :
    innerExponent e k / 2 ^ k * 2 ^ k = innerExponent e k :=
  Nat.div_mul_cancel (dvd_roundUp _ _)

/-- The parts of a ring that splits evenly, and the inner ring, which holds
them. -/
theorem size_spec (he : 0 < e) (hdiv : e % 2 ^ k = 0) :
    2 ^ k * (e / 2 ^ k) = e ∧ 0 < e / 2 ^ k ∧ e / 2 ^ k ≤ innerExponent e k := by
  have hdvd := Nat.dvd_of_mod_eq_zero hdiv
  have hroom := le_innerExponent e k
  refine ⟨Nat.mul_div_cancel' hdvd, ?_, by omega⟩
  exact Nat.div_pos (Nat.le_of_dvd he hdvd) (by positivity)

/-! ## Convolution -/

section Convolution

variable {may : Endings} {pointwise : Multiplier} {as bs : List Nat} {n : Nat}

/-- Both convolutions have the same coefficients. -/
theorem disagreement?_eq_none {cs ds : List Integer} {Ns : List Int}
    (hc : List.Forall₂ Denotes cs Ns) (hd : List.Forall₂ Denotes ds Ns) (j : Nat) :
    disagreement? j cs ds = none := by
  induction hc generalizing ds j with
  | nil =>
    cases hd
    rfl
  | cons hc _ ih =>
    cases hd with
    | cons hd hds => rw [disagreement?, if_pos ((hc.equals_iff hd).mpr rfl), ih hds]

/-- The coefficients of a product of parts, each below `2^size`. -/
theorem negacyclicAll_bounds (ha : as.length = n) (hb : bs.length = n)
    (hal : ∀ a ∈ as, a < 2 ^ size) (hbl : ∀ b ∈ bs, b < 2 ^ size) {i : Nat}
    (hi : i < (negacyclicAll n (ints as) (ints bs)).length) :
    -((n - 1 - i : Nat) * 2 ^ (2 * size) : Int) ≤ (negacyclicAll n (ints as) (ints bs))[i] ∧
      (negacyclicAll n (ints as) (ints bs))[i] < (i + 1 : Nat) * 2 ^ (2 * size) := by
  have hin : i < n := by simpa using hi
  have hcast (c : Nat) : (polynomial (ints as) * polynomial (ints bs)).coeff c =
      ((polynomial as * polynomial bs).coeff c : Nat) :=
    coeff_mul_map (Nat.castRingHom Int) as bs c
  obtain ⟨hlow, hhigh⟩ := coeff_mul_le ha hb (fun a h => Nat.le_sub_one_of_lt (hal a h))
    (fun b h => Nat.le_sub_one_of_lt (hbl b h)) hin
  have hsq : (2 ^ size - 1) * (2 ^ size - 1) < 2 ^ (2 * size) := by
    rw [Nat.two_mul, pow_add]
    have hpos : 0 < 2 ^ size := by positivity
    exact Nat.mul_lt_mul'' (by omega) (by omega)
  have hlow := hlow.trans_lt (Nat.mul_lt_mul_of_pos_left hsq (Nat.succ_pos i))
  have hhigh := hhigh.trans (Nat.mul_le_mul_left _ hsq.le)
  simp only [negacyclicAll, List.getElem_map, List.getElem_range, Coefficients.negacyclic, hcast]
  constructor
  · have hhigh : ((polynomial as * polynomial bs).coeff (i + n) : Int) ≤
        (n - 1 - i : Nat) * 2 ^ (2 * size) := by exact_mod_cast hhigh
    omega
  · have hlow : ((polynomial as * polynomial bs).coeff i : Int) <
        (i + 1 : Nat) * 2 ^ (2 * size) := by exact_mod_cast hlow
    omega

/-- No coefficient is larger than all parts together allow. -/
theorem negacyclicAll_abs_le (ha : as.length = n) (hb : bs.length = n)
    (hal : ∀ a ∈ as, a < 2 ^ size) (hbl : ∀ b ∈ bs, b < 2 ^ size) {N : Int}
    (hN : N ∈ negacyclicAll n (ints as) (ints bs)) : |N| ≤ n * 2 ^ (2 * size) := by
  obtain ⟨i, hi, rfl⟩ := List.mem_iff_getElem.mp hN
  have hin : i < n := by simpa using hi
  obtain ⟨hge, hlt⟩ := negacyclicAll_bounds ha hb hal hbl hi
  have hwindow : (0 : Int) < 2 ^ (2 * size) := by positivity
  have hlow : ((n - 1 - i : Nat) : Int) * 2 ^ (2 * size) ≤ n * 2 ^ (2 * size) :=
    mul_le_mul_of_nonneg_right (by omega) hwindow.le
  have hhigh : ((i + 1 : Nat) : Int) * 2 ^ (2 * size) ≤ n * 2 ^ (2 * size) :=
    mul_le_mul_of_nonneg_right (by omega) hwindow.le
  exact abs_le.mpr ⟨by omega, by omega⟩

/-- At a root of -1 a product of values is the value of the wrapped product. -/
theorem map_eval_mul_eval [NeZero inner] (hstep : step * 2 ^ k = inner) (ha : as.length = 2 ^ k)
    (hb : bs.length = 2 ^ k) :
    ((weightedPoints inner step k).map fun z =>
      (polynomial (as.map Nat.cast)).eval z * (polynomial (bs.map Nat.cast)).eval z) =
    (weightedPoints inner step k).map fun z =>
      (polynomial ((negacyclicAll (2 ^ k) (ints as) (ints bs)).map
        (Int.castRingHom (Residue inner)))).eval z := by
  refine List.map_congr_left fun z hz => ?_
  rw [map_negacyclicAll, map_ints, map_ints]
  exact eval_mul_eval_of_pow_eq_neg_one (by simp [ha]) (by simp [hb])
    (pow_of_mem_weightedPoints hstep hz)

/-- The end of a convolution: products of values at the weighted points give
the coefficients, and these the product in the outer ring. -/
theorem products_yield [NeZero e] [NeZero inner] (hstep : step * 2 ^ k = inner)
    (ha : as.length = 2 ^ k) (hb : bs.length = 2 ^ k) (hal : ∀ a ∈ as, a < 2 ^ size)
    (hbl : ∀ b ∈ bs, b < 2 ^ size) (hroom : k + 2 * size ≤ inner) (hinner : inner ≤ e)
    (hpointwise : RingExact may inner pointwise) {entries : List Factors}
    (hentries : List.Forall₂ (RepresentFactors inner) entries
      ((weightedPoints inner step k).map fun z =>
        (polynomial (as.map Nat.cast)).eval z * (polynomial (bs.map Nat.cast)).eval z))
    {expected : Option (List Integer)}
    (hexpected : ∀ ds, expected = some ds →
      List.Forall₂ Denotes ds (negacyclicAll (2 ^ k) (ints as) (ints bs))) :
    (do
      let products ← entries.mapM pointwise
      let cs := coefficients inner step k size 0
        (← unscramble inner products (-(2 * step : Nat)))
      if let some j := expected.bind (disagreement? 0 cs) then
        throw (.invariantViolation
          ("negacyclic coefficient " ++ Nat.repr j ++ " disagrees with direct convolution"))
      return evaluate e size cs : Outcome Integer).Yields may
      (Represents e · ((polynomial ((negacyclicAll (2 ^ k) (ints as) (ints bs)).map
        (Int.cast : Int → Residue e))).eval (2 ^ size))) := by
  rw [map_eval_mul_eval hstep ha hb] at hentries
  have hlen : (negacyclicAll (2 ^ k) (ints as) (ints bs)).length = 2 ^ k := length_negacyclicAll ..
  have hroom : 2 ^ k * 2 ^ (2 * size) ≤ 2 ^ inner := by
    rw [← pow_add]
    exact Nat.pow_le_pow_right (by decide) hroom
  refine (mapM_products hpointwise hentries).bind fun products hproducts => ?_
  obtain ⟨zs, hok, hzs⟩ := unscramble_values hstep (by simp) hproducts
  refine (Outcome.Yields.liftM_ok (p := (List.Forall₂ (Represents inner) · _)) hok hzs).bind
    fun zs hzs => ?_
  have hcs := coefficients_denote hzs (by omega) hroom fun i hi => by
    rw [Nat.zero_add]
    exact negacyclicAll_bounds ha hb hal hbl hi
  have hagree : expected.bind (disagreement? 0 (coefficients inner step k size 0 zs)) = none := by
    cases expected with
    | none => rfl
    | some ds => exact disagreement?_eq_none hcs (hexpected ds rfl) 0
  simp only [hagree]
  refine evaluate_represents size hcs fun N hN =>
    (negacyclicAll_abs_le ha hb hal hbl hN).trans ?_
  exact_mod_cast hroom.trans (Nat.pow_le_pow_right (by decide) hinner)

/-- The coefficients in the outer ring, where `2^size` is a root of -1. -/
theorem eval_negacyclicAll {m : Nat} (he : e = 2 ^ k * size) (hm : m < 2 ^ e) (hn : n < 2 ^ e) :
    (polynomial ((negacyclicAll (2 ^ k) (ints (chunks (2 ^ k) size m))
      (ints (chunks (2 ^ k) size n))).map (Int.cast : Int → Residue e))).eval (2 ^ size) =
      (m * n : Nat) := by
  have hints (c : Nat) (hc : c < 2 ^ e) :
      (polynomial ((ints (chunks (2 ^ k) size c)).map (Int.castRingHom (Residue e)))).eval
        (2 ^ size) = c := by
    rw [map_ints, eval_cast_chunks (he ▸ hc)]
  have hroot : ((2 : Residue e) ^ size) ^ 2 ^ k = -1 := by
    rw [← pow_mul, Nat.mul_comm, ← he, two_pow_eq_neg_one]
  have hmap := map_negacyclicAll (Int.castRingHom (Residue e)) (2 ^ k)
    (ints (chunks (2 ^ k) size m)) (ints (chunks (2 ^ k) size n))
  rw [show (Int.cast : Int → Residue e) = Int.castRingHom (Residue e) from rfl, hmap,
    ← eval_mul_eval_of_pow_eq_neg_one (by simp) (by simp) hroot, hints m hm, hints n hn,
    Nat.cast_mul]

/-- Parts of a ring of exponent `e` are short enough for direct products. -/
theorem fitAll_of_le {xs : List Integer} (h : DenoteAll xs as) (hal : ∀ a ∈ as, a < 2 ^ size)
    (hsize : size ≤ Digits.maxTerms) : FitAll xs := by
  induction h with
  | nil => exact fun x hx => absurd hx List.not_mem_nil
  | cons hx _ ih =>
    intro y hy
    rcases List.mem_cons.mp hy with rfl | hy
    · refine (hx.digitCount_le_iff.mpr ?_).trans hsize
      rw [Int.natAbs_natCast]
      exact (hal _ List.mem_cons_self).trans_le (Nat.pow_le_pow_left (by decide) size)
    · exact ih (fun a ha => hal a (List.mem_cons_of_mem _ ha)) y hy

/-- The coefficients for the check are those of the product modulo `X^n + 1`. -/
theorem expectedCoefficients_yields {check : Nat} {xs ys : List Integer} (hx : DenoteAll xs as)
    (hy : DenoteAll ys bs) (ha : as.length = n) (hb : bs.length = n)
    (hfits : may.abort ∨ FitAll xs) :
    (expectedCoefficients check e xs ys).Yields may fun expected =>
      ∀ ds, expected = some ds →
        List.Forall₂ Denotes ds (negacyclicAll n (ints as) (ints bs)) := by
  rw [expectedCoefficients]
  split
  · refine Outcome.Yields.map ?_ (negacyclic_yields hx hy ha hb hfits)
    intro ds hds ds' hsome
    obtain rfl := Option.some.inj hsome
    rw [negacyclicAll, List.forall₂_map_right_iff]
    exact hds.flip
  · intro ds hds
    exact absurd hds (by simp)

/-- A convolution is a product modulo `2^e + 1`. -/
theorem convolve_yields [NeZero e] {check : Nat} (hdiv : e % 2 ^ k = 0)
    (hinner : innerExponent e k ≤ e)
    (hpointwise : RingExact may (innerExponent e k) pointwise)
    (hfits : may.abort ∨ e ≤ Digits.maxTerms) {f : Factors} (hf : f.Canonical)
    (hlt : f.largest < 2 ^ e) :
    (convolve pointwise check e k f).Yields may (Represents e · (f.magnitude : Residue e)) := by
  obtain ⟨he, hsize, hinnersize⟩ := size_spec (Nat.pos_of_neZero e) hdiv
  have hroom := le_innerExponent e k
  have : NeZero (innerExponent e k) := ⟨by omega⟩
  have hstep := innerExponent_div_mul e k
  have hparts (x : Integer) (hx : x.Canonical) :=
    split_denotes hx.denotes (2 ^ k) hsize
  have htransformed (x : Integer) (hx : x.Canonical) :=
    weightedForward_split hstep hsize hinnersize hx.denotes
  have hfit {xs : List Integer} {c : Nat} (h : DenoteAll xs (chunks (2 ^ k) (e / 2 ^ k) c)) :
      may.abort ∨ FitAll xs :=
    hfits.imp_right fun hle => fitAll_of_le h (fun _ => mem_chunks_lt)
      ((Nat.div_le_self e _).trans hle)
  rw [convolve, if_neg (by simpa using hdiv), if_neg (by omega)]
  cases f with
  | pair x y =>
    have hx := hparts x hf.1
    have hy := hparts y hf.2
    obtain ⟨zs, hzok, hzs⟩ := htransformed x hf.1
    obtain ⟨ws, hwok, hws⟩ := htransformed y hf.2
    rw [natAbs_toInt] at hx hy hzs hws
    rw [Factors.magnitude, ← eval_negacyclicAll he.symm ((le_max_left _ _).trans_lt hlt)
      ((le_max_right _ _).trans_lt hlt)]
    refine (expectedCoefficients_yields hx hy (length_chunks ..) (length_chunks ..)
      (hfit hx)).bind
      fun expected hexpected => ?_
    refine (Outcome.Yields.liftM_ok (p := (List.Forall₂ (Represents _) · _)) hzok hzs).bind
      fun zs hzs => ?_
    refine (Outcome.Yields.liftM_ok (p := (List.Forall₂ (Represents _) · _)) hwok hws).bind
      fun ws hws => ?_
    refine products_yield hstep (by simp) (by simp) (fun _ => mem_chunks_lt)
      (fun _ => mem_chunks_lt) (by omega) hinner hpointwise ?_ hexpected
    have hentries := zipWith_pair hzs hws
    rwa [List.zipWith_map, List.zipWith_self] at hentries
  | twice x =>
    have hx := hparts x hf
    obtain ⟨zs, hzok, hzs⟩ := htransformed x hf
    rw [natAbs_toInt] at hx hzs
    have hlt : x.magnitude < 2 ^ e := hlt
    rw [Factors.magnitude, ← eval_negacyclicAll he.symm hlt hlt]
    refine (expectedCoefficients_yields hx hx (length_chunks ..) (length_chunks ..)
      (hfit hx)).bind
      fun expected hexpected => ?_
    refine (Outcome.Yields.liftM_ok (p := (List.Forall₂ (Represents _) · _)) hzok hzs).bind
      fun zs hzs => ?_
    refine products_yield hstep (by simp) (by simp) (fun _ => mem_chunks_lt)
      (fun _ => mem_chunks_lt) (by omega) hinner hpointwise ?_ hexpected
    have hentries := map_twice hzs
    rwa [List.map_map] at hentries

end Convolution

/-! ## Products of residues -/

section Residues

variable {may : Endings} {multiply : Multiplier} {f : Factors} {c : Residue e}

theorem RepresentFactors.isCanonical (h : RepresentFactors e f c) : f.Canonical := by
  cases h with
  | pair hx hy => exact ⟨hx.isCanonical, hy.isCanonical⟩
  | twice hx => exact hx.isCanonical

/-- The product of the magnitudes of such factors is that of the residues. -/
theorem RepresentFactors.magnitude_cast (h : RepresentFactors e f c) :
    (f.magnitude : Residue e) = c := by
  cases h with
  | pair hx hy => rw [Factors.magnitude, Nat.cast_mul, hx.magnitude_cast, hy.magnitude_cast]
  | twice hx => rw [Factors.magnitude, Nat.cast_mul, hx.magnitude_cast]

/-- A residue other than -1 needs no more than `e` bits. -/
theorem magnitude_lt {x : Integer} {a : Residue e} (h : Represents e x a)
    (hne : ¬ isMinusOne e x = true) : x.magnitude < 2 ^ e := by
  rw [isMinusOne_iff h] at hne
  obtain ⟨n, hn, hle, rfl⟩ := h.exists_nat
  rw [hn.magnitude, Int.natAbs_natCast]
  refine lt_of_le_of_ne hle ?_
  rintro rfl
  rw [Nat.cast_pow, Nat.cast_ofNat] at hne
  exact hne (two_pow_eq_neg_one e)

/-- The shortcut is exact, and other factors are short. -/
theorem minusOneProduct?_spec [NeZero e] (h : RepresentFactors e f c) :
    (∀ r, minusOneProduct? e f = some r → Represents e r c) ∧
      (minusOneProduct? e f = none → f.largest < 2 ^ e) := by
  cases h with
  | @pair x y a b hx hy =>
    rw [minusOneProduct?]
    split
    · next hminus =>
      rw [isMinusOne_iff hx] at hminus
      refine ⟨?_, fun hnone => absurd hnone (by simp)⟩
      rintro r hsome
      obtain rfl := Option.some.inj hsome
      rw [hminus, neg_one_mul]
      exact hy.neg
    · next hxne =>
      split
      · next hminus =>
        rw [isMinusOne_iff hy] at hminus
        refine ⟨?_, fun hnone => absurd hnone (by simp)⟩
        rintro r hsome
        obtain rfl := Option.some.inj hsome
        rw [hminus, mul_neg_one]
        exact hx.neg
      · next hyne =>
        refine ⟨fun r hsome => absurd hsome (by simp), fun _ => ?_⟩
        exact max_lt (magnitude_lt hx hxne) (magnitude_lt hy hyne)
  | @twice x a hx =>
    rw [minusOneProduct?]
    split
    · next hminus =>
      rw [isMinusOne_iff hx] at hminus
      refine ⟨?_, fun hnone => absurd hnone (by simp)⟩
      rintro r hsome
      obtain rfl := Option.some.inj hsome
      rw [hminus, neg_mul_neg, one_mul]
      exact represents_of_lt denotes_one (by decide) (by simp) (by simp)
    · next hne =>
      exact ⟨fun r hsome => absurd hsome (by simp), fun _ => magnitude_lt hx hne⟩

/-- A product of residues is exact, at every depth of rings within rings. -/
theorem product_exact (t : Thresholds) (k : Nat) (he : 0 < e)
    (hm : multiply.ExactOn may (·.largest < 2 ^ e)) (hfits : may.abort ∨ e ≤ Digits.maxTerms) :
    RingExact may e (product t multiply k e) := by
  induction e using Nat.strong_induction_on with
  | _ e ih =>
    intro f c h
    have : NeZero e := ⟨he.ne'⟩
    obtain ⟨hsome, hnone⟩ := minusOneProduct?_spec h
    have hreduced (hlt : f.largest < 2 ^ e) :
        (reducedProduct multiply e f).Yields may (Represents e · c) := by
      refine (hm f h.isCanonical hlt).bind fun r hr => ?_
      rw [← h.magnitude_cast]
      exact represents_reduce hr
    rw [product]
    split
    · next r hr => exact hsome r hr
    · next hr =>
      have hlt := hnone hr
      split
      · exact hreduced hlt
      · split
        · next hring =>
          obtain ⟨-, hsize, hinnersize⟩ := size_spec he hring.2
          rw [← h.magnitude_cast]
          refine convolve_yields hring.2 hring.1.le (ih _ hring.1 (by omega) ?_ ?_) hfits
            h.isCanonical hlt
          · exact hm.mono fun g hg => hg.trans (Nat.pow_lt_pow_right (by decide) hring.1)
          · exact hfits.imp_right hring.1.le.trans
        · exact hreduced hlt

end Residues

/-! ## Products of integers -/

section Integers

variable {may : Endings} {multiply : Multiplier} {f : Factors}

/-- Rounding up stops at any multiple of the step. -/
theorem roundUp_le {n m step : Nat} (hle : n ≤ m) (hdvd : step ∣ m) : roundUp n step ≤ m := by
  obtain ⟨q, rfl⟩ := hdvd
  rcases Nat.eq_zero_or_pos step with rfl | hpos
  · simp [roundUp]
  · rw [roundUp, Nat.mul_comm]
    refine Nat.mul_le_mul_left _ (Nat.le_of_lt_succ ?_)
    rw [Nat.div_lt_iff_lt_mul hpos, Nat.succ_mul, Nat.mul_comm]
    omega

/-- For at least four parts, the bits of their number are few beside it. -/
theorem add_two_le_two_pow {k : Nat} (hk : 2 ≤ k) : k + 2 ≤ 2 ^ k := by
  induction k, hk using Nat.le_induction with
  | base => decide
  | succ k _ ih =>
    rw [pow_succ]
    omega

/-- With four parts or more the inner ring is no larger than the outer one. -/
theorem innerExponent_le {e k : Nat} (hk : 2 ≤ k) (hpos : 0 < e) (hdvd : 2 ^ k ∣ e) :
    innerExponent e k ≤ e := by
  refine roundUp_le ?_ hdvd
  obtain ⟨size, rfl⟩ := hdvd
  have hsize : 0 < size := Nat.pos_of_mul_pos_left hpos
  have hpow := add_two_le_two_pow hk
  rw [show Nat.pow 2 k = 2 ^ k from rfl, Nat.mul_div_cancel_left _ (by positivity)]
  calc
    2 * size + k ≤ 2 * size + k * size := Nat.add_le_add_left (Nat.le_mul_of_pos_right k hsize) _
    _ = (k + 2) * size := by ring
    _ ≤ 2 ^ k * size := Nat.mul_le_mul_right _ hpow

/-- A magnitude is below the power of two with its bits. -/
theorem lt_two_pow_bitLength {x : Integer} (hx : x.Canonical) : x.magnitude < 2 ^ x.bitLength := by
  rw [hx.denotes.bitLength, natAbs_toInt]
  exact Nat.lt_size_self _

/-- The outer ring holds the factors and their product. -/
theorem outerExponent_spec (k : Nat) (hf : f.Canonical) :
    2 ^ k ∣ outerExponent k f ∧ 0 < outerExponent k f ∧
      f.largest < 2 ^ outerExponent k f ∧ f.magnitude < 2 ^ outerExponent k f := by
  have hle (bits : Nat) : bits + 1 ≤ roundUp (bits + 1) (Nat.pow 2 k) :=
    le_roundUp _ (Nat.two_pow_pos k)
  have hpow {a b : Nat} (h : a ≤ b) : 2 ^ a ≤ 2 ^ b := Nat.pow_le_pow_right (by decide) h
  refine ⟨dvd_roundUp _ _, (Nat.succ_pos _).trans_le (hle _), ?_⟩
  cases f with
  | pair x y =>
    have hx := lt_two_pow_bitLength hf.1
    have hy := lt_two_pow_bitLength hf.2
    have hbits := hle (x.bitLength + y.bitLength)
    refine ⟨max_lt (hx.trans_le (hpow (by simp only [outerExponent]; omega)))
      (hy.trans_le (hpow (by simp only [outerExponent]; omega))), ?_⟩
    refine (Nat.mul_lt_mul'' hx hy).trans_le ?_
    rw [← pow_add]
    exact hpow (by simp only [outerExponent]; omega)
  | twice x =>
    have hx : x.magnitude < 2 ^ x.bitLength := lt_two_pow_bitLength hf
    have hbits := hle (2 * x.bitLength)
    refine ⟨hx.trans_le (hpow (by simp only [outerExponent]; omega)), ?_⟩
    refine (Nat.mul_lt_mul'' hx hx).trans_le ?_
    rw [← pow_add]
    exact hpow (by simp only [outerExponent]; omega)

/-- A Schönhage–Strassen product is exact. -/
theorem schonhageStrassen_yields (t : Thresholds) {k : Nat} (hk : 2 ≤ k) (hk63 : k < 63)
    (hf : f.Canonical)
    (hm : multiply.ExactOn may (·.largest < 2 ^ innerExponent (outerExponent k f) k))
    (hfits : may.abort ∨ outerExponent k f ≤ Digits.maxTerms) :
    (schonhageStrassen t multiply k f).Yields may (·.Denotes f.magnitude) := by
  obtain ⟨hdvd, hpos, hlargest, hproduct⟩ := outerExponent_spec k hf
  have hinner := innerExponent_le hk hpos hdvd
  have hdiv := Nat.mod_eq_zero_of_dvd hdvd
  obtain ⟨-, hsize, hinnersize⟩ := size_spec hpos hdiv
  have : NeZero (outerExponent k f) := ⟨hpos.ne'⟩
  rw [schonhageStrassen, if_pos (by simp [hk, hk63])]
  refine (convolve_yields hdiv hinner
    (product_exact t k (by omega) hm (hfits.imp_right hinner.trans)) hfits hf hlargest).mono
    fun r hr => ?_
  rwa [Represents, ZMod.val_natCast_of_lt (hproduct.trans (Nat.lt_succ_self _))] at hr

end Integers

end Multiprecision.Fermat
