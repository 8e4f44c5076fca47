import Mathlib
import Multiprecision.Proofs.Fermat.Product
import Multiprecision.Proofs.Fermat.Stages

/-!
# Multiprecision.Proofs.Fermat.Spectrum

What the forward transform in place leaves of a signal of residues:

* `Spectrum.reversed` — a number with its lowest bits in reversed order, and
  `Spectrum.testBit_reversed`, which says so bit by bit;
* `Spectrum.getElem?_points` — the place of a power of the root among the
  points of a transform;
* `scramble_spectrum` — so entry `k` of the spectrum, the sum of the entries
  `x(j)` times `2^(-r·j·k)`, stands where the bits of `k` lead in reverse, and
  the transform that splits a signal in halves has it there as well.
-/

namespace Multiprecision

/-! ## Bit-reversed order -/

namespace Spectrum

/-- The number whose `m` lowest bits are those of `k` in reversed order. -/
def reversed : (m : Nat) → (k : Nat) → Nat
  | 0, _ => 0
  | m + 1, k => 2 ^ m * (k % 2) + reversed m (k / 2)

/-- The reversed number has no more bits either. -/
theorem reversed_lt (m k : Nat) : reversed m k < 2 ^ m := by
  induction m generalizing k with
  | zero => simp [reversed]
  | succ m ih =>
    have hlow := ih (k / 2)
    have hhigh : 2 ^ m * (k % 2) ≤ 2 ^ m * 1 := Nat.mul_le_mul_left _ (by omega)
    rw [reversed, pow_succ]
    omega

/-- Bit `i` of the reversed number is bit `m - 1 - i` of the number. -/
theorem testBit_reversed (m k i : Nat) :
    (reversed m k).testBit i = (decide (i < m) && k.testBit (m - 1 - i)) := by
  induction m generalizing k with
  | zero => simp [reversed]
  | succ m ih =>
    rw [reversed, Nat.testBit_two_pow_mul_add _ (reversed_lt m _)]
    rcases lt_trichotomy i m with hlt | rfl | hgt
    · rw [if_pos hlt, ih, Nat.testBit_div_two, show m - 1 - i + 1 = m + 1 - 1 - i by omega]
      simp [hlt, Nat.lt_succ_of_lt hlt]
    · simp [Nat.testBit_zero]
    · have hone : k % 2 < 2 ^ (i - m) :=
        (Nat.mod_lt k two_pos).trans_le (Nat.le_self_pow (by omega) 2)
      rw [if_neg (by omega), Nat.testBit_lt_two_pow hone]
      simp [show ¬i < m + 1 by omega]

variable {R : Type*} [CommRing R]

@[simp] theorem length_points (m : Nat) (w : Rˣ) : (points m w).length = 2 ^ m := by
  induction m generalizing w with
  | zero => rfl
  | succ m ih => rw [points, List.length_append, List.length_map, ih, pow_succ, Nat.mul_two]

/-- Power `k` of the root is the point in the place with the bits of `k` in
reversed order.  The lowest bit of `k` says in which half it is. -/
theorem getElem?_points (w : Rˣ) {m k : Nat} (hk : k < 2 ^ m) :
    (points m w)[reversed m k]? = some (w ^ k) := by
  induction m generalizing w k with
  | zero =>
    obtain rfl : k = 0 := by simpa using hk
    rw [pow_zero]
    rfl
  | succ m ih =>
    rw [pow_succ] at hk
    have hpoint := ih (w ^ 2) (show k / 2 < 2 ^ m by omega)
    have hlt := reversed_lt m (k / 2)
    rw [← pow_mul] at hpoint
    rw [points, reversed]
    rcases Nat.mod_two_eq_zero_or_one k with heven | hodd
    · rw [heven, Nat.mul_zero, Nat.zero_add, List.getElem?_append_left (by simpa using hlt),
        hpoint, show 2 * (k / 2) = k by omega]
    · rw [hodd, Nat.mul_one, List.getElem?_append_right (by simp), length_points,
        Nat.add_sub_cancel_left, List.getElem?_map, hpoint, Option.map_some, ← pow_succ',
        show 2 * (k / 2) + 1 = k by omega]

end Spectrum

/-! ## Signals of residues -/

namespace Fermat

open Coefficients Integer

variable {e m : Nat} {xs : List Integer}

/-- What represents a residue is the one number from 0 to `2^e` that it is the
residue of. -/
theorem represents_iff {x : Integer} {a : Residue e} :
    Represents e x a ↔ IsResidue e x ∧ (x.toInt : Residue e) = a := by
  constructor
  · intro h
    obtain ⟨n, hn, hle, rfl⟩ := h.exists_nat
    rw [IsResidue, hn.toInt]
    exact ⟨⟨hn.canonical, Int.natCast_nonneg n, by exact_mod_cast hle⟩, Int.cast_natCast n⟩
  · rintro ⟨hx, rfl⟩
    exact hx.represents

/-- A signal of residues represents its entries modulo `2^e + 1`. -/
theorem represents_all (h : ∀ x ∈ xs, IsResidue e x) :
    List.Forall₂ (Represents e) xs (xs.map fun x => (x.toInt : Residue e)) :=
  List.forall₂_map_right_iff.mpr (List.forall₂_same.mpr fun x hx => (h x hx).represents)

variable [NeZero e]

/-- A power of two that is -1 by its exponent. -/
theorem two_zpow_of_modEq {s : Int} (h : s ≡ e [ZMOD 2 * e]) : two e ^ s = -1 := by
  have hfold : s % (2 * e : Nat) = (e : Int) % (2 * e : Nat) := by exact_mod_cast h
  rw [← two_zpow_eq_neg_one (e := e)]
  ext
  rw [two_zpow_eq, two_zpow_eq, hfold]

/-- Half a period of the root is a sign. -/
theorem isRoot_two_zpow {root : Int}
    (hroot : 0 < m → root * 2 ^ (m - 1) ≡ e [ZMOD 2 * e]) :
    Spectrum.IsRoot m (two e ^ (-root)) := by
  rintro n rfl
  have hhalf := two_zpow_of_modEq (hroot n.succ_pos)
  rw [← zpow_natCast, ← zpow_mul, Int.neg_mul, zpow_neg, Nat.cast_pow, Nat.cast_ofNat]
  rw [Nat.add_sub_cancel] at hhalf
  rw [hhalf, inv_neg, inv_one]

/-- The stages in place leave entry `k` of the spectrum in the place with the
bits of `k` in reversed order, as the number from 0 to `2^e` that the sum of the
entries `x(j)` times `2^(-root·j·k)` is modulo `2^e + 1`; so does the transform
that splits the signal in halves.  The root must be one of unity for signals of
that length, which no root needs to be for a single entry. -/
theorem scramble_spectrum (root : Int) (hlen : xs.length = 2 ^ m)
    (hroot : 0 < m → root * 2 ^ (m - 1) ≡ e [ZMOD 2 * e]) (hxs : ∀ x ∈ xs, IsResidue e x) :
    ∃ zs, scrambleInPlace e xs root = (zs, .ok ()) ∧ scramble e xs root = .ok zs ∧
      zs.length = 2 ^ m ∧
      ∀ k < 2 ^ m, ∃ z, zs[Spectrum.reversed m k]? = some z ∧ IsResidue e z ∧
        (z.toInt : Residue e) = ∑ j : Fin xs.length,
          (xs[j].toInt : Residue e) * (two e ^ (-(root * j * k)) : (Residue e)ˣ) := by
  set as := xs.map fun x => (x.toInt : Residue e)
  have has : as.length = 2 ^ m := (List.length_map _).trans hlen
  have hzs := forward_represents m root (represents_all hxs)
  rw [Spectrum.forward_eq (isRoot_two_zpow hroot) has] at hzs
  obtain ⟨hcount, hentry⟩ := List.forall₂_iff_get.mp hzs
  rw [List.length_map, Spectrum.length_points] at hcount
  refine ⟨_, scrambleInPlace_eq hlen root, onSignal_of_length _ hlen root, hcount,
    fun k hk => ?_⟩
  obtain ⟨hplace, hpoint⟩ :=
    List.getElem?_eq_some_iff.mp (Spectrum.getElem?_points (two e ^ (-root)) hk)
  rw [Spectrum.length_points] at hplace
  have hz := hentry (Spectrum.reversed m k) (hcount ▸ hplace) (by simpa using hplace)
  rw [List.get_eq_getElem, List.get_eq_getElem, List.getElem_map, hpoint,
    eval_polynomial_map_eq_sum] at hz
  obtain ⟨hresidue, hcast⟩ := represents_iff.mp hz
  refine ⟨_, List.getElem?_eq_getElem (hcount ▸ hplace), hresidue, hcast.trans ?_⟩
  refine Finset.sum_congr rfl fun j _ => ?_
  rw [← Units.val_pow_eq_pow_val, ← zpow_natCast, ← zpow_natCast, ← zpow_mul, ← zpow_mul]
  congr 3
  ring

/-- Four residues modulo 17, one of them -1, with the root `2^(-2)` of order
four.  Entry 1 of the spectrum is 10, in place 2. -/
theorem scramble_spectrum_four :
    ∃ xs zs : List Integer, xs = [3, 16, 0, 5] ∧ xs.length = 2 ^ 2 ∧
      (0 < 2 → (2 : Int) * 2 ^ (2 - 1) ≡ (4 : Nat) [ZMOD 2 * (4 : Nat)]) ∧
      (∀ x ∈ xs, IsResidue 4 x) ∧ scrambleInPlace 4 xs 2 = (zs, .ok ()) ∧
      scramble 4 xs 2 = .ok zs ∧ Spectrum.reversed 2 1 = 2 ∧
      ∃ z, zs[2]? = some z ∧ z.toInt = 10 ∧ (z.toInt : Residue 4) = ∑ j : Fin xs.length,
        (xs[j].toInt : Residue 4) * (two 4 ^ (-((2 : Int) * j * (1 : Nat))) : (Residue 4)ˣ) := by
  have hroot : (2 : Int) * 2 ^ (2 - 1) ≡ (4 : Nat) [ZMOD 2 * (4 : Nat)] := by decide
  have hxs : ∀ x ∈ ([3, 16, 0, 5] : List Integer), IsResidue 4 x := by
    intro x hx
    simp only [List.mem_cons, List.not_mem_nil, or_false] at hx
    rcases hx with rfl | rfl | rfl | rfl <;>
      exact ⟨(denotes_ofNat _).canonical, by decide +kernel, by decide +kernel⟩
  have hrun : scrambleInPlace 4 [3, 16, 0, 5] 2 =
      ([⟨false, [7, 0]⟩, ⟨false, [16]⟩, ⟨false, [10, 0]⟩, ⟨false, [13]⟩], .ok ()) := by
    decide +kernel
  obtain ⟨zs, hplaced, hok, -, hentry⟩ := scramble_spectrum 2 (m := 2) rfl (fun _ => hroot) hxs
  obtain ⟨z, hplace, -, hsum⟩ := hentry 1 (by decide)
  cases hrun.symm.trans hplaced
  cases hplace
  exact ⟨_, _, rfl, rfl, fun _ => hroot, hxs, hrun, hok, rfl, _, rfl, by decide +kernel, hsum⟩

end Fermat

end Multiprecision
