import Mathlib
import Multiprecision.Digits.Sum
import Multiprecision.Proofs.Digits

/-!
# Multiprecision.Proofs.Digits.Sum

Carries and borrows.  Each pass keeps an equation that a carry or a borrow
out of the last place completes:

```
value (as + bs)  +  base^n · carry   =  value as + value bs + carry in
value (as - bs)  +  value bs + borrow in  =  value as + base^n · borrow
```

The exact sum and difference follow where the result has room.
-/

namespace Multiprecision.Digits

/-! ## Sums -/

/-- Two digits and a carry do not overflow a word. -/
theorem toNat_add_digits {a b c : Digit} (ha : a.toNat < base) (hb : b.toNat < base)
    (hc : c.toNat ≤ 1) : (a + b + c).toNat = a.toNat + b.toNat + c.toNat := by
  have hbase : base = 1073741824 := rfl
  rw [UInt32.toNat_add, UInt32.toNat_add]
  omega

/-- What a sum carries out of a place is at most one. -/
theorem carry_le_one {n : Nat} (h : n < 2 * base) : n / base ≤ 1 :=
  Nat.le_of_lt_succ (Nat.div_lt_of_lt_mul (by omega))

/-- A sum has digits in range. -/
theorem inRange_addInto {as : List Digit} (ha : InRange as) (bs : List Digit) (c : Digit) :
    InRange (addInto as bs c) := by
  induction as generalizing bs c with
  | nil => simp [addInto]
  | cons a as ih =>
    obtain ⟨ha0, has⟩ := inRange_cons.mp ha
    cases bs with
    | nil =>
      rw [addInto]
      split
      · exact ha
      · exact inRange_cons.mpr ⟨and_mask_lt _, ih has _ _⟩
    | cons b bs => exact inRange_cons.mpr ⟨and_mask_lt _, ih has _ _⟩

/-- A sum is exact but for what is carried out of the last place. -/
theorem exists_carry_addInto {as bs : List Digit} (ha : InRange as) (hb : InRange bs)
    (hlen : bs.length ≤ as.length) {c : Digit} (hc : c.toNat ≤ 1) :
    ∃ k, value (addInto as bs c) + base ^ as.length * k =
      value as + value bs + c.toNat := by
  induction as generalizing bs c with
  | nil =>
    obtain rfl : bs = [] := List.length_eq_zero_iff.mp (by simpa using hlen)
    exact ⟨c.toNat, by simp [addInto]⟩
  | cons a as ih =>
    obtain ⟨ha0, has⟩ := inRange_cons.mp ha
    have hbase : base = 1073741824 := rfl
    cases bs with
    | nil =>
      by_cases h0 : c = 0
      · exact ⟨0, by simp [addInto, h0]⟩
      · have hsum : (a + c).toNat = a.toNat + c.toNat := by
          rw [UInt32.toNat_add]
          omega
        have hout : ((a + c) >>> 30).toNat ≤ 1 := by
          rw [toNat_shiftRight_width, hsum]
          exact carry_le_one (by omega)
        obtain ⟨k, hk⟩ := ih has inRange_nil (Nat.zero_le _) hout
        refine ⟨k, ?_⟩
        have hdm := Nat.mod_add_div (a.toNat + c.toNat) base
        rw [addInto, if_neg h0]
        simp only [value_cons, toNat_and_mask, toNat_shiftRight_width, hsum, value_nil,
          List.length_cons, pow_succ'] at hk ⊢
        linear_combination base * hk + hdm
    | cons b bs =>
      obtain ⟨hb0, hbs⟩ := inRange_cons.mp hb
      have hsum := toNat_add_digits ha0 hb0 hc
      have hout : ((a + b + c) >>> 30).toNat ≤ 1 := by
        rw [toNat_shiftRight_width, hsum]
        exact carry_le_one (by omega)
      obtain ⟨k, hk⟩ := ih has hbs (by simpa using hlen) hout
      refine ⟨k, ?_⟩
      have hdm := Nat.mod_add_div (a.toNat + b.toNat + c.toNat) base
      rw [addInto]
      simp only [value_cons, toNat_and_mask, toNat_shiftRight_width, hsum,
        List.length_cons, pow_succ'] at hk ⊢
      linear_combination base * hk + hdm

/-- The sum is exact where it has room. -/
theorem value_addInto {as bs : List Digit} (ha : InRange as) (hb : InRange bs)
    (hlen : bs.length ≤ as.length) (hroom : value as + value bs < base ^ as.length) :
    value (addInto as bs 0) = value as + value bs := by
  obtain ⟨k, hk⟩ := exists_carry_addInto ha hb hlen (c := 0) (by decide)
  rw [UInt32.toNat_zero, Nat.add_zero] at hk
  rcases Nat.eq_zero_or_pos k with rfl | hpos
  · simpa using hk
  · have := Nat.le_mul_of_pos_right (base ^ as.length) hpos
    omega

/-! ## Differences -/

/-- A digit of a difference and the borrow that it leaves. -/
theorem subtractDigit_spec {a b c : Digit} (ha : a.toNat < base) (hb : b.toNat < base)
    (hc : c.toNat ≤ 1) :
    (subtractDigit a b c).1.toNat + b.toNat + c.toNat =
        a.toNat + base * (subtractDigit a b c).2.toNat ∧
      (subtractDigit a b c).1.toNat < base ∧ (subtractDigit a b c).2.toNat ≤ 1 := by
  have hbase : base = 1073741824 := rfl
  have htaken : (b + c).toNat = b.toNat + c.toNat := by
    rw [UInt32.toNat_add]
    omega
  rw [subtractDigit]
  by_cases hle : b + c ≤ a
  · have hle' := UInt32.le_iff_toNat_le.mp hle
    simp only [hle, if_true, UInt32.toNat_sub_of_le _ _ hle, htaken, UInt32.toNat_zero]
    omega
  · have hlt : a.toNat < b.toNat + c.toNat := by
      rw [← htaken]
      exact not_le.mp (mt UInt32.le_iff_toNat_le.mpr hle)
    have hup : (a + 0x40000000).toNat = a.toNat + base := by
      rw [UInt32.toNat_add, show (0x40000000 : Digit).toNat = base from rfl]
      omega
    have hle' : b + c ≤ a + 0x40000000 := by
      rw [UInt32.le_iff_toNat_le, htaken, hup]
      omega
    simp only [hle, if_false, UInt32.toNat_sub_of_le _ _ hle', htaken, hup,
      show (1 : Digit).toNat = 1 from rfl]
    omega

theorem length_subtract (as bs : List Digit) (c : Digit) :
    (subtract as bs c).length = as.length := by
  induction as generalizing bs c with
  | nil => rfl
  | cons a as ih =>
    cases bs with
    | nil =>
      rw [subtract]
      split
      · rfl
      · simp [ih]
    | cons b bs => simp [subtract, ih]

/-- A difference has digits in range. -/
theorem inRange_subtract {as bs : List Digit} (ha : InRange as) (hb : InRange bs)
    {c : Digit} (hc : c.toNat ≤ 1) : InRange (subtract as bs c) := by
  induction as generalizing bs c with
  | nil => simp [subtract]
  | cons a as ih =>
    obtain ⟨ha0, has⟩ := inRange_cons.mp ha
    cases bs with
    | nil =>
      obtain ⟨-, hd, hout⟩ := subtractDigit_spec ha0 (b := 0) (by decide) hc
      rw [subtract]
      split
      · exact ha
      · exact inRange_cons.mpr ⟨hd, ih has inRange_nil hout⟩
    | cons b bs =>
      obtain ⟨hb0, hbs⟩ := inRange_cons.mp hb
      obtain ⟨-, hd, hout⟩ := subtractDigit_spec ha0 hb0 hc
      exact inRange_cons.mpr ⟨hd, ih has hbs hout⟩

/-- A difference is exact but for what is borrowed past the last place. -/
theorem exists_borrow_subtract {as bs : List Digit} (ha : InRange as) (hb : InRange bs)
    (hlen : bs.length ≤ as.length) {c : Digit} (hc : c.toNat ≤ 1) :
    ∃ k, value (subtract as bs c) + value bs + c.toNat =
      value as + base ^ as.length * k := by
  induction as generalizing bs c with
  | nil =>
    obtain rfl : bs = [] := List.length_eq_zero_iff.mp (by simpa using hlen)
    exact ⟨c.toNat, by simp [subtract]⟩
  | cons a as ih =>
    obtain ⟨ha0, has⟩ := inRange_cons.mp ha
    cases bs with
    | nil =>
      by_cases h0 : c = 0
      · exact ⟨0, by simp [subtract, h0]⟩
      · obtain ⟨hd, -, hout⟩ := subtractDigit_spec ha0 (b := 0) (by decide) hc
        obtain ⟨k, hk⟩ := ih has inRange_nil (Nat.zero_le _) hout
        refine ⟨k, ?_⟩
        rw [subtract, if_neg h0]
        simp only [value_cons, value_nil, UInt32.toNat_zero, List.length_cons,
          pow_succ'] at hd hk ⊢
        linear_combination base * hk + hd
    | cons b bs =>
      obtain ⟨hb0, hbs⟩ := inRange_cons.mp hb
      obtain ⟨hd, -, hout⟩ := subtractDigit_spec ha0 hb0 hc
      obtain ⟨k, hk⟩ := ih has hbs (by simpa using hlen) hout
      refine ⟨k, ?_⟩
      rw [subtract]
      simp only [value_cons, List.length_cons, pow_succ'] at hk ⊢
      linear_combination base * hk + hd

/-- The difference is exact where the first operand is the larger one. -/
theorem value_subtract {as bs : List Digit} (ha : InRange as) (hb : InRange bs)
    (hlen : bs.length ≤ as.length) (hle : value bs ≤ value as) :
    value (subtract as bs 0) = value as - value bs := by
  obtain ⟨k, hk⟩ := exists_borrow_subtract ha hb hlen (c := 0) (by decide)
  have hlt := value_lt (inRange_subtract ha hb (c := 0) (by decide))
  rw [length_subtract] at hlt
  rw [UInt32.toNat_zero, Nat.add_zero] at hk
  rcases Nat.eq_zero_or_pos k with rfl | hpos
  · omega
  · have := Nat.le_mul_of_pos_right (base ^ as.length) hpos
    omega

/-! ## Differences the other way -/

theorem inRange_subtractFrom {as bs : List Digit} (ha : InRange as) (hb : InRange bs)
    {c : Digit} (hc : c.toNat ≤ 1) : InRange (subtractFrom as bs c) := by
  induction as generalizing bs c with
  | nil => simp [subtractFrom]
  | cons a as ih =>
    obtain ⟨ha0, has⟩ := inRange_cons.mp ha
    cases bs with
    | nil => exact ha
    | cons b bs =>
      obtain ⟨hb0, hbs⟩ := inRange_cons.mp hb
      obtain ⟨-, hd, hout⟩ := subtractDigit_spec hb0 ha0 hc
      exact inRange_cons.mpr ⟨hd, ih has hbs hout⟩

/-- The places past those of `bs` stay, so they must hold nothing. -/
theorem exists_borrow_subtractFrom {as bs : List Digit} (ha : InRange as) (hb : InRange bs)
    (hlen : bs.length ≤ as.length) (hhigh : value (as.drop bs.length) = 0)
    {c : Digit} (hc : c.toNat ≤ 1) :
    ∃ k, value (subtractFrom as bs c) + value as + c.toNat =
        value bs + base ^ bs.length * k ∧
      value (subtractFrom as bs c) < base ^ bs.length := by
  induction as generalizing bs c with
  | nil =>
    obtain rfl : bs = [] := List.length_eq_zero_iff.mp (by simpa using hlen)
    exact ⟨c.toNat, by simp [subtractFrom]⟩
  | cons a as ih =>
    obtain ⟨ha0, has⟩ := inRange_cons.mp ha
    cases bs with
    | nil =>
      rw [List.length_nil, List.drop_zero] at hhigh
      exact ⟨c.toNat, by simp [subtractFrom, hhigh]⟩
    | cons b bs =>
      obtain ⟨hb0, hbs⟩ := inRange_cons.mp hb
      obtain ⟨hd, hlt, hout⟩ := subtractDigit_spec hb0 ha0 hc
      obtain ⟨k, hk, hroom⟩ := ih has hbs (by simpa using hlen) (by simpa using hhigh) hout
      refine ⟨k, ?_, ?_⟩
      · rw [subtractFrom]
        simp only [value_cons, List.length_cons, pow_succ'] at hk ⊢
        linear_combination base * hk + hd
      · rw [subtractFrom, value_cons, List.length_cons, pow_succ']
        calc
          _ < base + base * value (subtractFrom as bs (subtractDigit b a c).2) :=
            Nat.add_lt_add_right hlt _
          _ = base * (value (subtractFrom as bs (subtractDigit b a c).2) + 1) := by ring
          _ ≤ base * base ^ bs.length := Nat.mul_le_mul_left _ hroom

/-- The difference written over the smaller number is what is left of the larger
one. -/
theorem value_subtractFrom {as bs : List Digit} (ha : InRange as) (hb : InRange bs)
    (hlen : bs.length ≤ as.length) (hle : value as ≤ value bs) :
    value (subtractFrom as bs 0) = value bs - value as := by
  have hhigh : value (as.drop bs.length) = 0 := by
    rw [value_drop ha, Nat.div_eq_of_lt (hle.trans_lt (value_lt hb))]
  obtain ⟨k, hk, hlt⟩ := exists_borrow_subtractFrom ha hb hlen hhigh (c := 0) (by decide)
  rw [UInt32.toNat_zero, Nat.add_zero] at hk
  rcases Nat.eq_zero_or_pos k with rfl | hpos
  · omega
  · have := Nat.le_mul_of_pos_right (base ^ bs.length) hpos
    omega

end Multiprecision.Digits
