import Mathlib
import Multiprecision.Digits

/-!
# Multiprecision.Proofs.Digits

Digit lists as natural numbers.  Reserved places have no part in the value,
and everything that is read off a list depends on the value alone:

* `count_le_iff` — the number of digits is the least `n` with `value < base ^ n`;
* `bitLength_eq_size` — the number of bits is the size of the value;
* `compare_eq` — the order is the order of the values.

Words are read as numbers once, in the first section; after it no proof
about digits looks at bits of a word.
-/

namespace Multiprecision.Digits

/-! ## Words as numbers -/

/-- The base is the power of two that a digit has bits for. -/
theorem base_eq : base = 2 ^ width := by decide

theorem base_pos : 0 < base := by decide

theorem base_pow (n : Nat) : base ^ n = 2 ^ (width * n) := by rw [base_eq, pow_mul]

@[simp] theorem toNat_and_mask (d : Digit) : (d &&& mask).toNat = d.toNat % base := by
  rw [UInt32.toNat_and]
  exact Nat.and_two_pow_sub_one_eq_mod _ 30

@[simp] theorem toNat_shiftRight_width (d : Digit) : (d >>> 30).toNat = d.toNat / base := by
  rw [UInt32.toNat_shiftRight]
  exact Nat.shiftRight_eq_div_pow _ 30

@[simp] theorem toNat_and_wideMask (d : UInt64) : (d &&& wideMask).toNat = d.toNat % base := by
  rw [UInt64.toNat_and]
  exact Nat.and_two_pow_sub_one_eq_mod _ 30

@[simp] theorem toNat_wide_shiftRight_width (d : UInt64) :
    (d >>> 30).toNat = d.toNat / base := by
  rw [UInt64.toNat_shiftRight]
  exact Nat.shiftRight_eq_div_pow _ 30

/-- The low digit of a double word fits a word. -/
@[simp] theorem toNat_and_wideMask_toUInt32 (d : UInt64) :
    (d &&& wideMask).toUInt32.toNat = d.toNat % base := by
  rw [UInt64.toNat_toUInt32, toNat_and_wideMask]
  exact Nat.mod_eq_of_lt (lt_trans (Nat.mod_lt _ base_pos) (by decide))

/-- What the mask leaves of a word is a digit. -/
theorem and_mask_lt (d : Digit) : (d &&& mask).toNat < base :=
  toNat_and_mask d ▸ Nat.mod_lt _ base_pos

theorem mod_base_lt (n : Nat) : n % base < base := Nat.mod_lt _ base_pos

/-- A number below the base is kept in a word. -/
theorem toNat_ofNat_of_lt_base {n : Nat} (h : n < base) : (UInt32.ofNat n).toNat = n :=
  UInt32.toNat_ofNat_of_lt' (h.trans (by decide))

/-- The width of a shift within a digit, in a word. -/
theorem toNat_ofNat_of_le_width {n : Nat} (h : n ≤ width) : (UInt32.ofNat n).toNat = n :=
  toNat_ofNat_of_lt_base (h.trans_lt (by decide))

/-- A single bit of a digit. -/
theorem toNat_one_shiftLeft {n : Nat} (h : n < width) :
    ((1 : Digit) <<< UInt32.ofNat n).toNat = 2 ^ n := by
  have hword : n < 32 := h.trans (by decide)
  have hpow : 2 ^ n < 2 ^ 32 := Nat.pow_lt_pow_right (by decide) hword
  rw [UInt32.toNat_shiftLeft, toNat_ofNat_of_le_width h.le, Nat.mod_eq_of_lt hword,
    UInt32.toNat_one, Nat.one_shiftLeft, Nat.mod_eq_of_lt hpow]

/-- A one that is shifted within a digit does not get lost. -/
theorem one_le_one_shiftLeft {n : Nat} (h : n < width) : (1 : Digit) ≤ 1 <<< UInt32.ofNat n := by
  rw [UInt32.le_iff_toNat_le, toNat_one_shiftLeft h]
  exact Nat.one_le_two_pow

/-! ## Range -/

/-- Every digit is below the base. -/
def InRange (ds : List Digit) : Prop := ∀ d ∈ ds, d.toNat < base

@[simp] theorem inRange_nil : InRange [] := fun _ h => (List.not_mem_nil h).elim

@[simp] theorem inRange_cons {d : Digit} {ds : List Digit} :
    InRange (d :: ds) ↔ d.toNat < base ∧ InRange ds := by
  simp [InRange]

@[simp] theorem inRange_append {as bs : List Digit} :
    InRange (as ++ bs) ↔ InRange as ∧ InRange bs := by
  simp only [InRange, List.mem_append, or_imp, forall_and]

@[simp] theorem inRange_replicate_zero (n : Nat) : InRange (List.replicate n 0) := by
  intro d hd
  rw [List.eq_of_mem_replicate hd]
  decide

theorem InRange.take {ds : List Digit} (h : InRange ds) (n : Nat) : InRange (ds.take n) :=
  fun d hd => h d (List.mem_of_mem_take hd)

theorem InRange.drop {ds : List Digit} (h : InRange ds) (n : Nat) : InRange (ds.drop n) :=
  fun d hd => h d (List.mem_of_mem_drop hd)

/-! ## Value -/

@[simp] theorem value_nil : value [] = 0 := rfl

/-- The lowest digit, and the base times what the others are worth. -/
@[simp] theorem value_cons (d : Digit) (ds : List Digit) :
    value (d :: ds) = d.toNat + base * value ds := rfl

/-- Digits on top of others count that many places higher. -/
theorem value_append (as bs : List Digit) :
    value (as ++ bs) = value as + base ^ as.length * value bs := by
  induction as with
  | nil => simp
  | cons a as ih =>
    simp only [List.cons_append, value_cons, List.length_cons, ih, pow_succ]
    ring

@[simp] theorem value_replicate_zero (n : Nat) : value (List.replicate n 0) = 0 := by
  induction n with
  | zero => rfl
  | succ n ih => simp [List.replicate_succ, ih]

/-- The digits of a list write a number below the power of the base that
belongs to its length. -/
theorem value_lt {ds : List Digit} (h : InRange ds) : value ds < base ^ ds.length := by
  induction ds with
  | nil => simp
  | cons d ds ih =>
    obtain ⟨hd, hds⟩ := inRange_cons.mp h
    have hlt := ih hds
    rw [value_cons, List.length_cons, pow_succ']
    calc
      d.toNat + base * value ds < base + base * value ds := Nat.add_lt_add_right hd _
      _ = base * (value ds + 1) := by ring
      _ ≤ base * base ^ ds.length := Nat.mul_le_mul_left _ hlt

/-- A number by its low and its high digits. -/
theorem value_take_add_drop (n : Nat) (ds : List Digit) (h : n ≤ ds.length) :
    value ds = value (ds.take n) + base ^ n * value (ds.drop n) := by
  conv_lhs => rw [← List.take_append_drop n ds]
  rw [value_append, List.length_take, min_eq_left h]

/-- Dropping digits divides by a power of the base. -/
theorem value_drop {ds : List Digit} (h : InRange ds) (n : Nat) :
    value (ds.drop n) = value ds / base ^ n := by
  rcases le_or_gt n ds.length with hn | hn
  · have hlt := value_lt (h.take n)
    rw [List.length_take, min_eq_left hn] at hlt
    rw [value_take_add_drop n ds hn, Nat.add_mul_div_left _ _ (pow_pos base_pos n),
      Nat.div_eq_of_lt hlt, Nat.zero_add]
  · rw [List.drop_of_length_le hn.le, value_nil, Nat.div_eq_of_lt]
    exact (value_lt h).trans_le (Nat.pow_le_pow_right base_pos hn.le)

/-- Taking digits leaves the remainder by a power of the base. -/
theorem value_take {ds : List Digit} (h : InRange ds) (n : Nat) :
    value (ds.take n) = value ds % base ^ n := by
  rcases le_or_gt n ds.length with hn | hn
  · have hlt := value_lt (h.take n)
    rw [List.length_take, min_eq_left hn] at hlt
    rw [value_take_add_drop n ds hn, Nat.add_mul_mod_self_left, Nat.mod_eq_of_lt hlt]
  · rw [List.take_of_length_le hn.le, Nat.mod_eq_of_lt]
    exact (value_lt h).trans_le (Nat.pow_le_pow_right base_pos hn.le)

/-- The digit in a place, which is zero past the last one. -/
theorem headD_drop_eq {ds : List Digit} (h : InRange ds) (i : Nat) :
    ((ds.drop i).headD 0).toNat = value ds / base ^ i % base := by
  rw [← value_drop h]
  have hrest := h.drop i
  cases hdrop : ds.drop i with
  | nil => rfl
  | cons d rest =>
    rw [hdrop] at hrest
    rw [List.headD_cons, value_cons, Nat.add_mul_mod_self_left,
      Nat.mod_eq_of_lt (inRange_cons.mp hrest).1]

/-- The digit in any place is in range; past the last one it is zero. -/
theorem headD_drop_lt {ds : List Digit} (h : InRange ds) (i : Nat) :
    ((ds.drop i).headD 0).toNat < base :=
  headD_drop_eq h i ▸ mod_base_lt _

theorem toNat_eq_zero_iff {d : Digit} : d.toNat = 0 ↔ d = 0 := by
  rw [← UInt32.toNat_inj, UInt32.toNat_zero]

/-- The digits are all zero exactly if the number is. -/
@[simp] theorem isZero_iff {ds : List Digit} : isZero ds = true ↔ value ds = 0 := by
  induction ds with
  | nil => simp [isZero]
  | cons d ds ih =>
    rw [isZero, List.all_cons, Bool.and_eq_true, ← isZero, ih, beq_iff_eq, value_cons,
      ← toNat_eq_zero_iff]
    constructor
    · rintro ⟨hd, hds⟩
      rw [hd, hds, Nat.mul_zero]
    · intro h
      obtain ⟨hd, hds⟩ := Nat.add_eq_zero_iff.mp h
      exact ⟨hd, (Nat.mul_eq_zero.mp hds).resolve_left base_pos.ne'⟩

/-- Some digit is not zero exactly if the number is positive. -/
theorem isZero_eq_false_iff {ds : List Digit} : isZero ds = false ↔ 0 < value ds := by
  rw [Nat.pos_iff_ne_zero, Ne, ← isZero_iff, Bool.not_eq_true]

/-! ## Reserved places -/

/-- Zeros on top do not change the number. -/
@[simp] theorem value_padTo (n : Nat) (ds : List Digit) : value (padTo n ds) = value ds := by
  simp [padTo, value_append]

@[simp] theorem inRange_padTo {n : Nat} {ds : List Digit} :
    InRange (padTo n ds) ↔ InRange ds := by
  simp [padTo]

/-- Padding makes a list as long as asked for, and never shorter. -/
theorem length_padTo (n : Nat) (ds : List Digit) : (padTo n ds).length = max n ds.length := by
  simp only [padTo, List.length_append, List.length_replicate]
  omega

/-- A list is its significant digits and then reserved places. -/
theorem exists_padding (ds : List Digit) :
    ∃ n, significant ds ++ List.replicate n 0 = ds := by
  induction ds with
  | nil => exact ⟨0, rfl⟩
  | cons d ds ih =>
    obtain ⟨n, hn⟩ := ih
    cases hs : significant ds with
    | nil =>
      rw [hs, List.nil_append] at hn
      by_cases hd : d = 0
      · exact ⟨n + 1, by simp [significant, hs, hd, List.replicate_succ, hn]⟩
      · exact ⟨n, by simp [significant, hs, hd, hn]⟩
    | cons e es =>
      rw [hs] at hn
      exact ⟨n, by rw [significant, hs, List.cons_append, hn]⟩

/-- Without its leading zeros a number is the same. -/
@[simp] theorem value_significant (ds : List Digit) : value (significant ds) = value ds := by
  obtain ⟨n, hn⟩ := exists_padding ds
  conv_rhs => rw [← hn]
  simp [value_append]

theorem InRange.significant {ds : List Digit} (h : InRange ds) :
    InRange (significant ds) := by
  obtain ⟨n, hn⟩ := exists_padding ds
  rw [← hn] at h
  exact (inRange_append.mp h).1

/-- The last significant digit is not zero. -/
theorem base_pow_le_value {ds : List Digit} (h : 0 < count ds) :
    base ^ (count ds - 1) ≤ value ds := by
  induction ds with
  | nil => simp [count, significant] at h
  | cons d ds ih =>
    rw [count, significant] at h ⊢
    cases hs : significant ds with
    | nil =>
      by_cases hd : d = 0
      · simp [hs, hd] at h
      · have := Nat.pos_of_ne_zero (mt toNat_eq_zero_iff.mp hd)
        simp only [if_neg hd, List.length_singleton, Nat.sub_self, pow_zero, value_cons]
        omega
    | cons e es =>
      have hc : count ds = es.length + 1 := by simp [count, hs]
      have := ih (by omega)
      simp only [List.length_cons, Nat.add_sub_cancel, value_cons]
      rw [hc, Nat.add_sub_cancel] at this
      calc
        base ^ (es.length + 1) = base * base ^ es.length := pow_succ' ..
        _ ≤ base * value ds := Nat.mul_le_mul_left _ this
        _ ≤ d.toNat + base * value ds := Nat.le_add_left ..

/-- A number is below the power of the base with as many zeros as it has digits. -/
theorem value_lt_count {ds : List Digit} (h : InRange ds) : value ds < base ^ count ds := by
  have := value_lt h.significant
  rwa [value_significant] at this

/-- The number of digits is the least `n` such that the value is below
`base ^ n`. -/
theorem count_le_iff {ds : List Digit} (h : InRange ds) {n : Nat} :
    count ds ≤ n ↔ value ds < base ^ n := by
  constructor
  · intro hn
    exact (value_lt_count h).trans_le (Nat.pow_le_pow_right base_pos hn)
  · intro hlt
    by_contra hn
    have hpos : 0 < count ds := by omega
    have hle := base_pow_le_value hpos
    have hpow := Nat.pow_le_pow_right base_pos (show n ≤ count ds - 1 by omega)
    omega

/-! ## Bits -/

/-- A bit of a number is one of the digit in its place. -/
theorem testBit_digit (n k : Nat) :
    (n / base ^ (k / width) % base).testBit (k % width) = n.testBit k := by
  have hlow : k % width < width := Nat.mod_lt _ (by decide)
  rw [base_pow, base_eq, Nat.testBit_mod_two_pow, Nat.testBit_div_two_pow, decide_eq_true hlow,
    Bool.true_and, Nat.add_comm, Nat.div_add_mod]

/-- The bits of a word are counted as those of any number. -/
theorem wordBits_eq_size (n : Nat) : wordBits n = n.size := by
  rcases Nat.eq_zero_or_pos n with rfl | hn
  · simp [wordBits]
  · rw [wordBits, if_neg hn.ne']
    apply le_antisymm
    · exact Nat.lt_size.mpr (Nat.log2_self_le hn.ne')
    · exact Nat.size_le.mpr Nat.lt_log2_self

/-- Digits below others add their width to the size. -/
theorem size_add_base_mul {d n : Nat} (hd : d < base) (hn : n ≠ 0) :
    (d + base * n).size = n.size + width := by
  apply le_antisymm
  · rw [Nat.size_le, pow_add, ← base_eq]
    have := Nat.lt_size_self n
    calc
      d + base * n < base * (n + 1) := by rw [Nat.mul_add]; omega
      _ ≤ base * 2 ^ n.size := Nat.mul_le_mul_left _ this
      _ = 2 ^ n.size * base := Nat.mul_comm ..
  · have hpos : 0 < n.size := Nat.size_pos.mpr (Nat.pos_of_ne_zero hn)
    have hle : 2 ^ (n.size - 1) ≤ n := Nat.lt_size.mp (by omega)
    have : n.size - 1 + width < (d + base * n).size := by
      rw [Nat.lt_size, pow_add, ← base_eq]
      calc
        2 ^ (n.size - 1) * base ≤ n * base := Nat.mul_le_mul_right _ hle
        _ = base * n := Nat.mul_comm ..
        _ ≤ d + base * n := Nat.le_add_left ..
    omega

/-- The number of bits is the size of the value. -/
theorem bitLength_eq_size {ds : List Digit} (h : InRange ds) :
    bitLength ds = (value ds).size := by
  induction ds with
  | nil => simp [bitLength]
  | cons d ds ih =>
    obtain ⟨hd, hds⟩ := inRange_cons.mp h
    rw [bitLength, ih hds, value_cons]
    cases hs : (value ds).size with
    | zero =>
      have hz : value ds = 0 := Nat.size_eq_zero.mp hs
      simp [hz, wordBits_eq_size]
    | succ n =>
      have hv : value ds ≠ 0 := fun hz => by simp [hz] at hs
      rw [size_add_base_mul hd hv, hs]

/-! ## Digits for a number of bits -/

/-- The digits that are reserved for some bits hold them. -/
theorem le_width_mul_countFor (bits : Nat) : bits ≤ width * countFor bits := by
  have hwidth : width = 30 := rfl
  rw [countFor, hwidth]
  omega

/-- One digit less would not hold them. -/
theorem pred_countFor_mul_lt {bits : Nat} (hpos : 0 < bits) :
    (countFor bits - 1) * width < bits := by
  have hwidth : width = 30 := rfl
  rw [countFor, hwidth]
  omega

theorem countFor_pos {bits : Nat} (hpos : 0 < bits) : 0 < countFor bits := by
  have hwidth : width = 30 := rfl
  rw [countFor, hwidth]
  omega

/-- No more bits than a digit has fit in one. -/
theorem countFor_of_le {bits : Nat} (hpos : 0 < bits) (hle : bits ≤ width) :
    countFor bits = 1 := by
  have hwidth : width = 30 := rfl
  rw [countFor, hwidth]
  omega

/-- Another digit is needed for every `width` bits. -/
theorem countFor_cons {bits : Nat} (hge : width ≤ bits) :
    countFor bits = countFor (bits - width) + 1 := by
  have hwidth : width = 30 := rfl
  rw [countFor, countFor, hwidth]
  omega

/-! ## Digits of a number -/

@[simp] theorem value_ofNat (n : Nat) : value (ofNat n) = n := by
  induction n using ofNat.induct with
  | case1 => simp [ofNat]
  | case2 n hn ih =>
    rw [ofNat, if_neg hn, value_cons, ih, toNat_ofNat_of_lt_base (mod_base_lt n)]
    exact Nat.mod_add_div n base

@[simp] theorem inRange_ofNat (n : Nat) : InRange (ofNat n) := by
  induction n using ofNat.induct with
  | case1 => simp [ofNat]
  | case2 n hn ih =>
    rw [ofNat, if_neg hn, inRange_cons, toNat_ofNat_of_lt_base (mod_base_lt n)]
    exact ⟨mod_base_lt n, ih⟩

/-- Digits in range without reserved places are those of their value. -/
theorem significant_eq_ofNat {ds : List Digit} (h : InRange ds) :
    significant ds = ofNat (value ds) := by
  induction ds with
  | nil => simp [significant, ofNat]
  | cons d ds ih =>
    obtain ⟨hd, hds⟩ := inRange_cons.mp h
    have hvalue : value (significant ds) = value ds := value_significant ds
    have hhead : UInt32.ofNat ((d.toNat + base * value ds) % base) = d := by
      rw [Nat.add_mul_mod_self_left, Nat.mod_eq_of_lt hd, UInt32.ofNat_toNat]
    have htail : (d.toNat + base * value ds) / base = value ds := by
      rw [Nat.add_mul_div_left _ _ base_pos, Nat.div_eq_of_lt hd, Nat.zero_add]
    rw [value_cons, ofNat, hhead, htail, ← ih hds]
    cases hs : significant ds with
    | nil =>
      rw [hs, value_nil] at hvalue
      simp only [significant, hs, ← hvalue, Nat.mul_zero, Nat.add_zero, toNat_eq_zero_iff]
    | cons e es =>
      have hne : value ds ≠ 0 := fun hzero => by
        have hnil := ih hds
        rw [hzero, ofNat, if_pos rfl, hs] at hnil
        exact absurd hnil (List.cons_ne_nil e es)
      have hpos : d.toNat + base * value ds ≠ 0 := by
        have := Nat.mul_ne_zero base_pos.ne' hne
        omega
      rw [significant, hs, if_neg hpos]

/-! ## Order -/

/-- The lower parts decide only where the higher ones agree. -/
theorem compare_add_mul {p a b m n : Nat} (ha : a < p) (hb : b < p) :
    Ord.compare (a + p * m) (b + p * n) =
      (Ord.compare m n).then (Ord.compare a b) := by
  rcases lt_trichotomy m n with h | rfl | h
  · have : p * m + p ≤ p * n := by rw [← Nat.mul_succ]; exact Nat.mul_le_mul_left _ h
    rw [Nat.compare_eq_lt.mpr h, Ordering.lt_then, Nat.compare_eq_lt]
    omega
  · rcases lt_trichotomy a b with h | rfl | h
    · simp [Nat.compare_eq_lt.mpr h, Nat.compare_eq_lt.mpr (Nat.add_lt_add_right h _)]
    · simp
    · simp [Nat.compare_eq_gt.mpr h, Nat.compare_eq_gt.mpr (Nat.add_lt_add_right h _)]
  · have : p * n + p ≤ p * m := by rw [← Nat.mul_succ]; exact Nat.mul_le_mul_left _ h
    rw [Nat.compare_eq_gt.mpr h, Ordering.gt_then, Nat.compare_eq_gt]
    omega

/-- Digits compare as the numbers they are. -/
theorem compare_toNat (a b : Digit) : Ord.compare a b = Ord.compare a.toNat b.toNat := by
  show compareOfLessAndEq a b = compareOfLessAndEq a.toNat b.toNat
  simp only [compareOfLessAndEq, UInt32.lt_iff_toNat_lt, UInt32.toNat_inj]

/-- The order of digit lists is the order of the values. -/
theorem compare_eq {as bs : List Digit} (ha : InRange as) (hb : InRange bs) :
    compare as bs = Ord.compare (value as) (value bs) := by
  induction as generalizing bs with
  | nil =>
    rw [compare, value_nil]
    by_cases hz : isZero bs = true
    · rw [if_pos hz, isZero_iff.mp hz]
      simp
    · rw [if_neg hz, eq_comm, Nat.compare_eq_lt]
      exact isZero_eq_false_iff.mp (Bool.not_eq_true _ ▸ hz)
  | cons a as ih =>
    cases bs with
    | nil =>
      rw [compare, value_nil]
      · by_cases hz : isZero (a :: as) = true
        · rw [if_pos hz, isZero_iff.mp hz]
          simp
        · rw [if_neg hz, eq_comm, Nat.compare_eq_gt]
          exact isZero_eq_false_iff.mp (Bool.not_eq_true _ ▸ hz)
      · simp
    | cons b bs =>
      obtain ⟨ha0, has⟩ := inRange_cons.mp ha
      obtain ⟨hb0, hbs⟩ := inRange_cons.mp hb
      rw [compare, ih has hbs, compare_toNat, value_cons, value_cons,
        compare_add_mul ha0 hb0]

end Multiprecision.Digits
