import Mathlib
import Multiprecision.Proofs.Digits.Order
import Multiprecision.Proofs.Integer.Group

/-!
# Multiprecision.Proofs.Integer.Order

Order, equality and the key of a hash table agree on canonical integers, and
none of them sees the places that an integer has in reserve.  Values are in
the order that `compare` gives, and with it they are the ordered group of the
integers: `Value.orderIsoInt`.
-/

namespace Multiprecision.Integer

variable {x y z : Integer} {i j k : Int}

/-! ## Comparisons -/

/-- A summand on both sides leaves the order. -/
theorem Denotes.compare_add_right (hx : x.Denotes i) (hy : y.Denotes j) (hz : z.Denotes k) :
    (x.add z).compare (y.add z) = x.compare y := by
  rw [(hx.add hz).compare_eq (hy.add hz), hx.compare_eq hy]
  rcases lt_trichotomy i j with h | rfl | h
  · rw [compare_lt_iff_lt.mpr h, compare_lt_iff_lt.mpr (by omega)]
  · rw [compare_eq_iff_eq.mpr rfl, compare_eq_iff_eq.mpr rfl]
  · rw [compare_gt_iff_gt.mpr h, compare_gt_iff_gt.mpr (by omega)]

/-- Integers are equal just if neither is larger. -/
theorem Denotes.equals_iff_compare (hx : x.Denotes i) (hy : y.Denotes j) :
    x.equals y = true ↔ x.compare y = .eq := by
  rw [hx.equals_iff hy, hx.compare_eq hy, compare_eq_iff_eq]

/-- Integers have one key just if they have one value. -/
theorem Denotes.hashKey_eq_iff (hx : x.Denotes i) (hy : y.Denotes j) :
    x.hashKey = y.hashKey ↔ i = j := by
  rw [hashKey, hashKey, hx.negative, hy.negative, hx.significant_eq, hy.significant_eq]
  constructor
  · intro h
    obtain ⟨hsign, hdigits⟩ := Prod.mk.inj h
    have hnegative : i < 0 ↔ j < 0 := decide_eq_decide.mp hsign
    have habs : i.natAbs = j.natAbs := by
      rw [← Digits.value_ofNat i.natAbs, hdigits, Digits.value_ofNat]
    omega
  · rintro rfl
    rfl

/-! ## The order of values -/

namespace Value

/-- Values are compared as the integers are. -/
instance : Ord Value where
  compare := Quotient.lift₂ (fun x y => x.1.compare y.1) (by
    intro x y x' y' hx hy
    simp only [x.2.denotes.compare_eq y.2.denotes, x'.2.denotes.compare_eq y'.2.denotes,
      (x.2.equals_iff x'.2).mp hx, (y.2.equals_iff y'.2).mp hy])

@[simp] theorem compare_of (hx : x.Canonical) (hy : y.Canonical) :
    Ord.compare (of x hx) (of y hy) = x.compare y := rfl

/-- Values compare as their integers. -/
theorem compare_toInt (a b : Value) : Ord.compare a b = Ord.compare a.toInt b.toInt := by
  obtain ⟨x, hx, rfl⟩ := exists_of a
  obtain ⟨y, hy, rfl⟩ := exists_of b
  exact hx.denotes.compare_eq hy.denotes

instance : LinearOrder Value := LinearOrder.liftWithOrd' toInt toInt_injective compare_toInt

/-- The values are the integers, with their sums and their order. -/
noncomputable def orderIsoInt : Value ≃+o Int :=
  { equivInt with map_le_map_iff' := Iff.rfl }

end Value

/-! ## Agreement -/

/-- On canonical integers, with any places in reserve, comparing magnitudes
gives the order of the absolute values and looks at stored places only, and
comparing integers gives the order of the values.  Integers are equal just if
neither is larger, and just then they have one key.  A summand on both sides
leaves the order; it is one of values, which are the ordered group of the
integers. -/
theorem order_exact (hx : x.Denotes i) (hy : y.Denotes j) :
    (x.compareMagnitude y = Ord.compare i.natAbs j.natAbs ∧
      Digits.compareByPlaces? x.digits y.digits = some (x.compareMagnitude y)) ∧
    x.compare y = Ord.compare i j ∧
    (x.equals y = true ↔ x.compare y = .eq) ∧
    (x.hashKey = y.hashKey ↔ i = j) ∧
    (∀ z k, z.Denotes k → (x.add z).compare (y.add z) = x.compare y) ∧
    ∃ e : Value ≃+o Int, (∀ z hz, e (.of z hz) = z.toInt) ∧
      ∀ z z' hz hz', Ord.compare (Value.of z hz) (.of z' hz') = z.compare z' := by
  refine ⟨⟨hx.compareMagnitude_eq hy, Digits.compareByPlaces?_eq hx.inRange hy.inRange⟩,
    hx.compare_eq hy, hx.equals_iff_compare hy, hx.hashKey_eq_iff hy,
    fun z k hz => hx.compare_add_right hy hz, Value.orderIsoInt, fun z hz => rfl,
    fun z z' hz hz' => rfl⟩

/-- Two negative integers of as many digits, which differ in the lowest one. -/
theorem order_exact_negative :
    Denotes ⟨true, [1, 0x3FFFFFFF, 0]⟩ (-(2 ^ 60 - 2 ^ 30 + 1)) ∧
    Denotes ⟨true, [5, 0x3FFFFFFF]⟩ (-(2 ^ 60 - 2 ^ 30 + 5)) ∧
    compareMagnitude ⟨true, [1, 0x3FFFFFFF, 0]⟩ ⟨true, [5, 0x3FFFFFFF]⟩ = .lt ∧
    Integer.compare ⟨true, [1, 0x3FFFFFFF, 0]⟩ ⟨true, [5, 0x3FFFFFFF]⟩ = .gt ∧
    equals ⟨true, [1, 0x3FFFFFFF, 0]⟩ ⟨true, [5, 0x3FFFFFFF]⟩ = false ∧
    hashKey ⟨true, [1, 0x3FFFFFFF, 0]⟩ ≠ hashKey ⟨true, [5, 0x3FFFFFFF]⟩ := by
  have hx : Denotes ⟨true, [1, 0x3FFFFFFF, 0]⟩ (-(2 ^ 60 - 2 ^ 30 + 1)) :=
    ⟨by simp [Canonical, Digits.base, Digits.isZero], by decide⟩
  have hy : Denotes ⟨true, [5, 0x3FFFFFFF]⟩ (-(2 ^ 60 - 2 ^ 30 + 5)) :=
    ⟨by simp [Canonical, Digits.base, Digits.isZero], by decide⟩
  obtain ⟨⟨hmagnitude, -⟩, hcompare, hequals, hkey, -⟩ := order_exact hx hy
  have hgt : Ord.compare (-(2 ^ 60 - 2 ^ 30 + 1) : Int) (-(2 ^ 60 - 2 ^ 30 + 5)) = .gt := by decide
  rw [hgt] at hcompare
  refine ⟨hx, hy, hmagnitude.trans (by decide), hcompare, ?_, hkey.not.mpr (by decide)⟩
  rw [Bool.eq_false_iff, Ne, hequals, hcompare]
  decide

end Multiprecision.Integer
