import Mathlib
import Multiprecision.Digits.Shift
import Multiprecision.Proofs.Digits

/-!
# Multiprecision.Proofs.Digits.Shift

Shifts by `b < 30` bits.  A digit is cut where the shift puts the border
between two places, and the parts are joined to parts of its neighbours:

* `value_shiftUp` — the value times `2^b`, with the top of the digit below;
* `value_shiftDown` — the value divided by `2^b`;
* `value_lowBits` — the remainder by a power of two.
-/

namespace Multiprecision.Digits

variable {b : UInt32}

/-! ## Parts of a digit -/

/-- The base splits at any place of a digit. -/
theorem base_eq_mul {n : Nat} (h : n ≤ width) : base = 2 ^ n * 2 ^ (width - n) := by
  rw [← pow_add, Nat.add_sub_cancel' h, base_eq]

/-- A shift to the right within a word is a quotient. -/
theorem toNat_shiftRight_lt (d : Digit) (h : b.toNat < 32) :
    (d >>> b).toNat = d.toNat / 2 ^ b.toNat := by
  rw [UInt32.toNat_shiftRight, Nat.mod_eq_of_lt h, Nat.shiftRight_eq_div_pow]

/-- A digit moved up keeps its low bits. -/
theorem toNat_shiftLeft_and_mask (d : Digit) (h : b.toNat ≤ width) :
    ((d <<< b) &&& mask).toNat = 2 ^ b.toNat * (d.toNat % 2 ^ (width - b.toNat)) := by
  have hwidth : width = 30 := rfl
  rw [toNat_and_mask, UInt32.toNat_shiftLeft, Nat.mod_eq_of_lt (by omega : b.toNat < 32),
    Nat.shiftLeft_eq, Nat.mod_mod_of_dvd _ (by decide), base_eq_mul h,
    Nat.mul_comm d.toNat, Nat.mul_mod_mul_left]

theorem toNat_width_sub (h : b.toNat ≤ width) : (30 - b).toNat = width - b.toNat :=
  UInt32.toNat_sub_of_le _ _ (UInt32.le_iff_toNat_le.mpr h)

/-- The bits of a digit that stay are as many fewer as are shifted out. -/
theorem div_two_pow_lt {d n : Nat} (hd : d < base) (h : n ≤ width) :
    d / 2 ^ n < 2 ^ (width - n) :=
  Nat.div_lt_of_lt_mul (base_eq_mul h ▸ hd)

/-- The low part of a digit above the high part of the digit below it. -/
theorem toNat_joinUp (d : Digit) {low : Digit} (hlow : low.toNat < base) (h : b.toNat < width) :
    (((d <<< b) &&& mask) ||| (low >>> (30 - b))).toNat =
      2 ^ b.toNat * (d.toNat % 2 ^ (width - b.toNat)) + low.toNat / 2 ^ (width - b.toNat) := by
  have hwidth : width = 30 := rfl
  have hsub := toNat_width_sub h.le
  have hpart := div_two_pow_lt hlow (show width - b.toNat ≤ width by omega)
  rw [Nat.sub_sub_self h.le] at hpart
  rw [UInt32.toNat_or, toNat_shiftLeft_and_mask d h.le, toNat_shiftRight_lt _ (by omega), hsub,
    Nat.two_pow_add_eq_or_of_lt hpart]

/-- The high part of a digit below the low part of the digit above it. -/
theorem toNat_joinDown {d : Digit} (hd : d.toNat < base) (e : Digit) (h : b.toNat < width) :
    ((d >>> b) ||| ((e <<< (30 - b)) &&& mask)).toNat =
      d.toNat / 2 ^ b.toNat + 2 ^ (width - b.toNat) * (e.toNat % 2 ^ b.toNat) := by
  have hwidth : width = 30 := rfl
  have hsub := toNat_width_sub h.le
  rw [UInt32.toNat_or, toNat_shiftLeft_and_mask e (by omega), toNat_shiftRight_lt _ (by omega),
    hsub, Nat.sub_sub_self h.le, Nat.or_comm,
    ← Nat.two_pow_add_eq_or_of_lt (div_two_pow_lt hd h.le), Nat.add_comm]

/-! ## Up -/

/-- A shift to the left keeps digits in range. -/
theorem inRange_shiftUp {ds : List Digit} (h : b.toNat < width) {low : Digit}
    (hlow : low.toNat < base) (hds : InRange ds) : InRange (shiftUp b ds low) := by
  have hwidth : width = 30 := rfl
  induction ds generalizing low with
  | nil =>
    simp only [shiftUp, inRange_cons, inRange_nil, and_true]
    rw [toNat_shiftRight_lt _ (by rw [toNat_width_sub h.le]; omega)]
    exact (Nat.div_le_self _ _).trans_lt hlow
  | cons d ds ih =>
    obtain ⟨hd, hds⟩ := inRange_cons.mp hds
    refine inRange_cons.mpr ⟨?_, ih hd hds⟩
    rw [toNat_joinUp d hlow h]
    have hpart := div_two_pow_lt hlow (show width - b.toNat ≤ width by omega)
    rw [Nat.sub_sub_self h.le] at hpart
    have hmod := Nat.mod_lt d.toNat (Nat.two_pow_pos (width - b.toNat))
    calc
      _ < 2 ^ b.toNat * (d.toNat % 2 ^ (width - b.toNat)) + 2 ^ b.toNat :=
        Nat.add_lt_add_left hpart _
      _ = 2 ^ b.toNat * (d.toNat % 2 ^ (width - b.toNat) + 1) := by ring
      _ ≤ 2 ^ b.toNat * 2 ^ (width - b.toNat) := Nat.mul_le_mul_left _ hmod
      _ = base := (base_eq_mul h.le).symm

/-- A shift up takes in the high part of the digit below. -/
theorem value_shiftUp {ds : List Digit} (h : b.toNat < width) {low : Digit}
    (hlow : low.toNat < base) (hds : InRange ds) :
    value (shiftUp b ds low) =
      2 ^ b.toNat * value ds + low.toNat / 2 ^ (width - b.toNat) := by
  have hwidth : width = 30 := rfl
  induction ds generalizing low with
  | nil =>
    simp only [shiftUp, value_cons, value_nil]
    rw [toNat_shiftRight_lt _ (by rw [toNat_width_sub h.le]; omega), toNat_width_sub h.le]
    ring
  | cons d ds ih =>
    obtain ⟨hd, hds⟩ := inRange_cons.mp hds
    have hdm := Nat.mod_add_div d.toNat (2 ^ (width - b.toNat))
    rw [shiftUp, value_cons, ih hd hds, toNat_joinUp d hlow h, value_cons]
    calc
      _ = 2 ^ b.toNat * (d.toNat % 2 ^ (width - b.toNat)) +
            base * (d.toNat / 2 ^ (width - b.toNat)) +
            2 ^ b.toNat * (base * value ds) + low.toNat / 2 ^ (width - b.toNat) := by ring
      _ = 2 ^ b.toNat * (d.toNat % 2 ^ (width - b.toNat)) +
            2 ^ b.toNat * 2 ^ (width - b.toNat) * (d.toNat / 2 ^ (width - b.toNat)) +
            2 ^ b.toNat * (base * value ds) + low.toNat / 2 ^ (width - b.toNat) := by
        rw [← base_eq_mul h.le]
      _ = 2 ^ b.toNat * (d.toNat % 2 ^ (width - b.toNat) +
            2 ^ (width - b.toNat) * (d.toNat / 2 ^ (width - b.toNat))) +
            2 ^ b.toNat * (base * value ds) + low.toNat / 2 ^ (width - b.toNat) := by ring
      _ = _ := by rw [hdm]; ring

/-! ## Down -/

/-- The low bits of a number are those of its lowest digit. -/
theorem value_cons_mod (d : Digit) (ds : List Digit) {n : Nat} (h : n ≤ width) :
    value (d :: ds) % 2 ^ n = d.toNat % 2 ^ n := by
  rw [value_cons, base_eq_mul h, Nat.mul_assoc, Nat.add_mul_mod_self_left]

theorem inRange_shiftDown {ds : List Digit} (h : b.toNat < width) (hds : InRange ds) :
    InRange (shiftDown b ds) := by
  have hwidth : width = 30 := rfl
  induction ds using shiftDown.induct with
  | case1 => exact inRange_nil
  | case2 d =>
    obtain ⟨hd, -⟩ := inRange_cons.mp hds
    refine inRange_cons.mpr ⟨?_, inRange_nil⟩
    rw [toNat_shiftRight_lt _ (by omega)]
    exact (Nat.div_le_self _ _).trans_lt hd
  | case3 d e ds ih =>
    obtain ⟨hd, hes⟩ := inRange_cons.mp hds
    refine inRange_cons.mpr ⟨?_, ih hes⟩
    rw [toNat_joinDown hd e h]
    have hmod := Nat.mod_lt e.toNat (Nat.two_pow_pos b.toNat)
    calc
      _ < 2 ^ (width - b.toNat) + 2 ^ (width - b.toNat) * (e.toNat % 2 ^ b.toNat) :=
        Nat.add_lt_add_right (div_two_pow_lt hd h.le) _
      _ = 2 ^ (width - b.toNat) * (e.toNat % 2 ^ b.toNat + 1) := by ring
      _ ≤ 2 ^ (width - b.toNat) * 2 ^ b.toNat := Nat.mul_le_mul_left _ hmod
      _ = base := by rw [Nat.mul_comm, ← base_eq_mul h.le]

/-- A shift down divides, and drops the remainder. -/
theorem value_shiftDown {ds : List Digit} (h : b.toNat < width) (hds : InRange ds) :
    value (shiftDown b ds) = value ds / 2 ^ b.toNat := by
  have hwidth : width = 30 := rfl
  induction ds using shiftDown.induct with
  | case1 => simp [shiftDown]
  | case2 d =>
    rw [shiftDown, value_cons, value_cons, value_nil, toNat_shiftRight_lt _ (by omega)]
    simp
  | case3 d e ds ih =>
    obtain ⟨hd, hes⟩ := inRange_cons.mp hds
    have hdm := Nat.mod_add_div (value (e :: ds)) (2 ^ b.toNat)
    rw [value_cons_mod e ds h.le] at hdm
    rw [shiftDown, value_cons, ih hes, toNat_joinDown hd e h, value_cons d (e :: ds)]
    have hpos := Nat.two_pow_pos b.toNat
    calc
      _ = d.toNat / 2 ^ b.toNat + 2 ^ (width - b.toNat) * (e.toNat % 2 ^ b.toNat +
            2 ^ b.toNat * (value (e :: ds) / 2 ^ b.toNat)) := by
        rw [base_eq_mul h.le]
        ring
      _ = d.toNat / 2 ^ b.toNat + 2 ^ (width - b.toNat) * value (e :: ds) := by rw [hdm]
      _ = (d.toNat + base * value (e :: ds)) / 2 ^ b.toNat := by
        rw [base_eq_mul h.le, Nat.mul_assoc, Nat.add_mul_div_left _ _ hpos]

/-! ## Low bits -/

/-- The mask of the lowest bits leaves a remainder. -/
theorem toNat_and_lowMask (d : Digit) {n : Nat} (h : n < width) :
    (d &&& ((1 <<< UInt32.ofNat n) - 1)).toNat = d.toNat % 2 ^ n := by
  rw [UInt32.toNat_and, UInt32.toNat_sub_of_le _ _ (one_le_one_shiftLeft h),
    toNat_one_shiftLeft h, UInt32.toNat_one, Nat.and_two_pow_sub_one_eq_mod]

theorem inRange_lowBits (n : Nat) {ds : List Digit} (hds : InRange ds) :
    InRange (lowBits n ds) := by
  induction ds generalizing n with
  | nil => exact inRange_nil
  | cons d ds ih =>
    obtain ⟨hd, hds⟩ := inRange_cons.mp hds
    rw [lowBits]
    split
    · exact inRange_nil
    · split
      · next hlt =>
        refine inRange_cons.mpr ⟨?_, inRange_nil⟩
        rw [toNat_and_lowMask d hlt]
        exact (Nat.mod_le _ _).trans_lt hd
      · exact inRange_cons.mpr ⟨hd, ih _ hds⟩

/-- The low bits are the remainder by a power of two. -/
theorem value_lowBits (n : Nat) {ds : List Digit} (hds : InRange ds) :
    value (lowBits n ds) = value ds % 2 ^ n := by
  induction ds generalizing n with
  | nil => simp [lowBits]
  | cons d ds ih =>
    obtain ⟨hd, hds⟩ := inRange_cons.mp hds
    rw [lowBits]
    split
    · next h0 => simp [h0, Nat.mod_one]
    · split
      · next hlt =>
        rw [value_cons_mod d ds hlt.le, value_cons, value_nil, toNat_and_lowMask d hlt]
        simp
      · next hge =>
        have hsplit : 2 ^ n = base * 2 ^ (n - width) := by
          rw [base_eq, ← pow_add, Nat.add_sub_cancel' (not_lt.mp hge)]
        rw [value_cons, value_cons, ih _ hds, hsplit, Nat.mod_mul,
          Nat.add_mul_mod_self_left, Nat.mod_eq_of_lt hd, Nat.add_mul_div_left _ _ base_pos,
          Nat.div_eq_of_lt hd, Nat.zero_add]

end Multiprecision.Digits
