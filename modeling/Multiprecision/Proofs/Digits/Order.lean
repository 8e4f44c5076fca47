import Mathlib
import Multiprecision.Digits.Order
import Multiprecision.Proofs.Digits

/-!
# Multiprecision.Proofs.Digits.Order

Digits in range are in the order of their values whichever way they are gone
through:

* `value_lt_of_count_lt` — fewer significant digits write a smaller number;
* `compareDown?_eq` — among as many, the highest digit that differs decides;
* `compareByPlaces?_eq` — so the order by places is `compare`, and looks at
  stored places only.
-/

namespace Multiprecision.Digits

variable {as bs : List Digit}

/-! ## Significant digits -/

theorem count_le_length (ds : List Digit) : count ds ≤ ds.length := by
  obtain ⟨n, hn⟩ := exists_padding ds
  calc count ds ≤ count ds + n := Nat.le_add_right _ _
    _ = (significant ds ++ List.replicate n 0).length := by simp [count]
    _ = ds.length := by rw [hn]

/-- The significant digits are the lowest ones. -/
theorem take_count (ds : List Digit) : ds.take (count ds) = significant ds := by
  obtain ⟨n, hn⟩ := exists_padding ds
  calc ds.take (count ds) = (significant ds ++ List.replicate n 0).take (count ds) := by rw [hn]
    _ = significant ds := List.take_left

/-- Fewer significant digits write a smaller number. -/
theorem value_lt_of_count_lt (ha : InRange as) (h : count as < count bs) : value as < value bs :=
  calc value as < base ^ count as := value_lt_count ha
    _ ≤ base ^ (count bs - 1) := Nat.pow_le_pow_right base_pos (by omega)
    _ ≤ value bs := base_pow_le_value (by omega)

/-! ## From the top -/

/-- The lowest `n` digits write a number below the power `n` of the base. -/
theorem value_take_lt {ds : List Digit} (h : InRange ds) {n : Nat} (hn : n ≤ ds.length) :
    value (ds.take n) < base ^ n := by
  have hlt := value_lt (h.take n)
  rwa [List.length_take, min_eq_left hn] at hlt

/-- One more digit counts in the next place. -/
theorem value_take_succ {ds : List Digit} {n : Nat} (h : n < ds.length) :
    value (ds.take (n + 1)) = value (ds.take n) + base ^ n * ds[n].toNat := by
  rw [List.take_succ_eq_append_getElem h, value_append, List.length_take, min_eq_left h.le,
    value_cons, value_nil, Nat.mul_zero, Nat.add_zero]

/-- Going down through `n` places compares what they hold. -/
theorem compareDown?_eq (ha : InRange as) (hb : InRange bs) {n : Nat} (hna : n ≤ as.length)
    (hnb : n ≤ bs.length) :
    compareDown? n as bs = some (Ord.compare (value (as.take n)) (value (bs.take n))) := by
  induction n with
  | zero => simp [compareDown?]
  | succ n ih =>
    have hla := value_take_lt ha (Nat.le_of_succ_le hna)
    have hlb := value_take_lt hb (Nat.le_of_succ_le hnb)
    rw [compareDown?, List.getElem?_eq_getElem hna, List.getElem?_eq_getElem hnb,
      value_take_succ hna, value_take_succ hnb, compare_add_mul hla hlb]
    simp only [Option.bind_eq_bind, Option.bind_some, Option.pure_def]
    by_cases heq : as[n] = bs[n]
    · rw [if_pos heq, heq, compare_eq_iff_eq.mpr rfl, Ordering.eq_then,
        ih (Nat.le_of_succ_le hna) (Nat.le_of_succ_le hnb)]
    · have hne : Ord.compare as[n].toNat bs[n].toNat ≠ .eq := by
        rwa [Ne, compare_eq_iff_eq, UInt32.toNat_inj]
      rw [if_neg heq, compare_toNat]
      cases h : Ord.compare as[n].toNat bs[n].toNat with
      | lt => rfl
      | eq => exact absurd h hne
      | gt => rfl

/-- The order by places is that of the values. -/
theorem compareByPlaces?_eq (ha : InRange as) (hb : InRange bs) :
    compareByPlaces? as bs = some (compare as bs) := by
  rw [compareByPlaces?, compare_eq ha hb]
  by_cases heq : count as = count bs
  · rw [if_pos heq, compareDown?_eq ha hb (count_le_length as) (heq ▸ count_le_length bs),
      take_count, heq, take_count, value_significant, value_significant]
  · rw [if_neg heq]
    rcases Nat.lt_or_gt_of_ne heq with h | h
    · rw [Nat.compare_eq_lt.mpr h, Nat.compare_eq_lt.mpr (value_lt_of_count_lt ha h)]
    · rw [Nat.compare_eq_gt.mpr h, Nat.compare_eq_gt.mpr (value_lt_of_count_lt hb h)]

end Multiprecision.Digits
