import Mathlib
import Multiprecision.Proofs.Fermat.Shift
import Multiprecision.Proofs.Fermat.Stages

/-!
# Multiprecision.Proofs.Fermat.Inversion

The two transforms in place, one after the other:

* `scaled_toInt` — a residue times a power of two, and the shift that takes it
  back;
* `unscramble_scramble` — the backward transform with the negated root undoes
  the forward transform up to a factor of the length, whatever the root.
-/

namespace Multiprecision.Fermat

open Integer

variable {e m : Nat} [NeZero e]

/-- What stands for `2^m` times a residue is moved back to it by `m` places. -/
theorem scaled_toInt {x z : Integer} (hx : IsResidue e x)
    (hz : Represents e z (2 ^ m * x.toInt)) :
    IsResidue e z ∧ z.toInt = 2 ^ m * x.toInt % (2 ^ e + 1) ∧
      (shiftRight e z m).toInt = x.toInt := by
  refine ⟨(represents_iff.mp hz).1, Represents.toInt_eq (by exact_mod_cast hz), ?_⟩
  have hback := hz.shiftRight m
  rw [mul_comm (2 ^ m), mul_assoc, ← val_two, ← Units.val_pow_eq_pow_val, ← zpow_natCast,
    ← Units.val_mul, ← zpow_add, add_neg_cancel, zpow_zero, Units.val_one, mul_one] at hback
  exact hback.toInt_congr hx.represents

/-- A transform of residues in place, and back with the negated root, leaves the
number from 0 to `2^e` that is the length times the entry modulo `2^e + 1` in
every place; `m` places to the right of it stands the entry.  The spectrum
consists of residues as well, and the root may have any order.  A signal whose
length is no power of two is an invalid argument for either transform, and is
left as it was. -/
theorem unscramble_scramble (e : Nat) [NeZero e] (root : Int) :
    (∀ (m : Nat) (xs : List Integer), xs.length = 2 ^ m → (∀ x ∈ xs, IsResidue e x) →
      ∃ ys zs, scrambleInPlace e xs root = (ys, .ok ()) ∧
        unscrambleInPlace e ys (-root) = (zs, .ok ()) ∧ (∀ y ∈ ys, IsResidue e y) ∧
        zs.length = 2 ^ m ∧ ∀ (i : Nat) (hi : i < xs.length), ∃ z, zs[i]? = some z ∧
          IsResidue e z ∧ z.toInt = 2 ^ m * xs[i].toInt % (2 ^ e + 1) ∧
          (shiftRight e z m).toInt = xs[i].toInt) ∧
    ∀ xs : List Integer, (∀ m, xs.length ≠ 2 ^ m) →
      scrambleInPlace e xs root = (xs, .error (.invalidArgument
        ("transform length " ++ Nat.repr xs.length ++ " is not a power of two"))) ∧
      unscrambleInPlace e xs root = (xs, .error (.invalidArgument
        ("transform length " ++ Nat.repr xs.length ++ " is not a power of two"))) := by
  refine ⟨fun m xs hlen hxs => ?_, fun xs h =>
    ⟨inPlace_invalid _ h root, inPlace_invalid _ h root⟩⟩
  set as := xs.map fun x => (x.toInt : Residue e)
  have has : as.length = 2 ^ m := (List.length_map _).trans hlen
  have hys := forward_represents m root (represents_all hxs)
  have hylen : (forward e m root xs).length = 2 ^ m :=
    hys.length_eq.trans (Spectrum.length_forward has)
  have hzs := backward_represents m (-root) hys
  rw [zpow_neg, Spectrum.backward_forward _ _ has] at hzs
  have hzlen : (backward e m (-root) (forward e m root xs)).length = xs.length := by
    simpa [as] using hzs.length_eq
  refine ⟨_, _, scrambleInPlace_eq hlen root, unscrambleInPlace_eq hylen (-root), fun y hy => ?_,
    hzlen.trans hlen, fun i hi => ?_⟩
  · obtain ⟨i, hi, rfl⟩ := List.getElem_of_mem hy
    have hentry := (List.forall₂_iff_get.mp hys).2 i hi (hys.length_eq ▸ hi)
    exact (represents_iff.mp hentry).1
  · have hz := (List.forall₂_iff_get.mp hzs).2 i (hzlen ▸ hi) (by simpa [as] using hi)
    rw [List.get_eq_getElem, List.get_eq_getElem, List.getElem_map, List.getElem_map] at hz
    exact ⟨_, List.getElem?_eq_getElem (hzlen ▸ hi),
      scaled_toInt (hxs _ (List.getElem_mem hi)) hz⟩

/-- Four residues modulo 17, one with a place in reserve, and the root 2, whose
order is 8.  A transform there and back leaves four times the signal; a signal of
three entries is left alone. -/
theorem unscramble_scramble_seventeen :
    ∃ xs ys zs : List Integer,
      xs = [⟨false, [3, 0]⟩, ⟨false, [16]⟩, ⟨false, []⟩, ⟨false, [5]⟩] ∧
        xs.length = 2 ^ 2 ∧ (∀ x ∈ xs, IsResidue 4 x) ∧
        scrambleInPlace 4 xs 1 = (ys, .ok ()) ∧ unscrambleInPlace 4 ys (-1) = (zs, .ok ()) ∧
        zs.map toInt = [12, 13, 0, 3] ∧ (shiftRight 4 (zs.getD 1 .zero) 2).toInt = 16 ∧
        (∀ m, (xs.take 3).length ≠ 2 ^ m) ∧
        scrambleInPlace 4 (xs.take 3) 1 =
          (xs.take 3, .error (.invalidArgument "transform length 3 is not a power of two")) := by
  have hxs : ∀ x ∈ ([⟨false, [3, 0]⟩, ⟨false, [16]⟩, ⟨false, []⟩, ⟨false, [5]⟩] : List Integer),
      IsResidue 4 x := by
    simp only [List.forall_mem_cons, List.not_mem_nil, false_implies, implies_true, and_true]
    refine ⟨?_, ?_, ?_, ?_⟩ <;>
      exact ⟨by simp [Canonical, Digits.base], by decide, by decide⟩
  have hthree (m : Nat) : 3 ≠ 2 ^ m := by
    rcases m with _ | _ | m
    · decide
    · decide
    · rw [pow_add]
      omega
  obtain ⟨hinverse, hinvalid⟩ := unscramble_scramble 4 1
  obtain ⟨ys, zs, hys, hzs, -, -, hentry⟩ := hinverse 2 _ rfl hxs
  obtain ⟨z, hz, -, -, hback⟩ := hentry 1 (by decide)
  have hrun : ((unscrambleInPlace 4 (scrambleInPlace 4
      [⟨false, [3, 0]⟩, ⟨false, [16]⟩, ⟨false, []⟩, ⟨false, [5]⟩] 1).1 (-1)).1).map toInt =
        [12, 13, 0, 3] := by decide +kernel
  rw [hys, hzs] at hrun
  refine ⟨_, ys, zs, rfl, rfl, hxs, hys, hzs, hrun, ?_, hthree, (hinvalid [_, _, _] hthree).1⟩
  rw [List.getD_eq_getElem?_getD, hz]
  exact hback

end Multiprecision.Fermat
